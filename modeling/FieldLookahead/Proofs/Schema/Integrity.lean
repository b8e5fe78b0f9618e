import FieldLookahead.Proofs.Schema.Conformance
import FieldLookahead.Proofs.Schema.Definitions

namespace FieldLookahead.Schema

/-! The names in a schema lead to types of the schema, unless the name is that of a parameter's
type: building checks all references but those of parameters. -/

inductive Role where
  | interface | member | field | parameter | input | root
  deriving DecidableEq

inductive Mentions (schema : Schema) : Role → String → Prop
  | interface {name : String} {type : NamedType} (known : type ∈ schema.types.types)
      (member : name ∈ type.interfaces) : Mentions schema .interface name
  | member {name : String} {type : NamedType} (known : type ∈ schema.types.types)
      (member : name ∈ type.members) : Mentions schema .member name
  | field {type : NamedType} {field : Field} (known : type ∈ schema.types.types)
      (member : field ∈ type.fields) : Mentions schema .field field.type.typeName
  | parameter {type : NamedType} {field : Field} {reference : TypeReference}
      (known : type ∈ schema.types.types) (declared : field ∈ type.fields)
      (member : reference ∈ field.parameters.values) :
      Mentions schema .parameter reference.typeName
  | input {type : NamedType} {reference : TypeReference} (known : type ∈ schema.types.types)
      (member : reference ∈ type.inputs) : Mentions schema .input reference.typeName
  | root {name : String} {operation : Query.OperationKind}
      (rooted : schema.root? operation = some name) : Mentions schema .root name

/-- A name from which lookups start or to which they lead. -/
inductive Supplies (schema : Schema) (name : String) : Prop
  | type (known : name ∈ schema.types.byName.keys)
  | mentioned {role : Role} (mentions : schema.Mentions role name)
  | possible {scope : String} {types : List String}
      (possible : schema.possibleTypes scope = .ok types) (member : name ∈ types)

variable {schema : Schema} {name : String}

theorem Mentions.mem_keys {role : Role} (mentions : schema.Mentions role name)
    (other : role ≠ .parameter) : name ∈ schema.types.byName.keys := by
  cases mentions with
  | interface known member =>
      obtain ⟨_, _, found⟩ := schema.resolves.interfaces _ known name member
      exact TypeTable.mem_keys_of_get? found
  | member known member =>
      obtain ⟨_, _, found⟩ := schema.resolves.members _ known name member
      exact TypeTable.mem_keys_of_get? found
  | field known member => exact schema.resolves.fields _ known _ member
  | parameter _ _ _ => exact absurd rfl other
  | input known member => exact schema.resolves.inputs _ known _ member
  | root rooted =>
      obtain ⟨_, _, found⟩ := exists_object_of_root? rooted
      exact TypeTable.mem_keys_of_get? found

theorem mem_keys_of_possible {scope : String} {types : List String}
    (possible : schema.possibleTypes scope = .ok types) (member : name ∈ types) :
    name ∈ schema.types.byName.keys := by
  obtain ⟨_, found, _⟩ := (possibleTypes_complete possible).kinds name member
  exact TypeTable.mem_keys_of_get? found

theorem Supplies.mem_keys_or (supplies : schema.Supplies name) :
    name ∈ schema.types.byName.keys ∨ schema.Mentions .parameter name := by
  cases supplies with
  | type known => exact .inl known
  | @mentioned role mentions =>
      by_cases parameter : role = .parameter
      · exact .inr (parameter ▸ mentions)
      · exact .inl (mentions.mem_keys parameter)
  | possible possible member => exact .inl (mem_keys_of_possible possible member)

/-- All names that a schema mentions are names of its types exactly if those of parameters are. -/
theorem mentions_resolve_iff (schema : Schema) :
    (∀ role name, schema.Mentions role name → name ∈ schema.types.byName.keys) ↔
      ∀ name, schema.Mentions .parameter name → name ∈ schema.types.byName.keys := by
  constructor
  · exact fun resolve name => resolve .parameter name
  · intro parameters role name mentions
    by_cases parameter : role = .parameter
    · exact parameters name (parameter ▸ mentions)
    · exact mentions.mem_keys parameter

/-- A root type whose only field takes a parameter of a type that is not there. -/
def strayDefinitions : Sdl.Document :=
  [.type ⟨"Query", none, ⟨1, 1⟩, .object []
    [⟨"pet", .named "Boolean", [⟨"named", .named "Missing"⟩], none, ⟨1, 14⟩⟩]⟩]

def strayField : Field :=
  ⟨"pet", "Query", .named "Boolean" true, .ofList [("named", .named "Missing" true)], none,
    ⟨none, ⟨1, 14⟩⟩⟩

def strayType : NamedType :=
  .object ⟨"Query", none, ⟨none, ⟨1, 1⟩⟩⟩ ⟨[], .ofList [("pet", strayField)]⟩

def strayTypes : TypeTable := TypeTable.builtins.insert strayType

def stray : Schema where
  types := strayTypes
  resolved := by decide +kernel
  implementations := strayTypes.implementations
  implementations_eq := rfl
  query := ⟨"Query", by decide +kernel⟩
  mutation? := none
  subscription? := none

theorem built_stray : stray.Built :=
  ⟨[(none, strayDefinitions)], ⟨strayTypes, ∅, []⟩, rfl, rfl⟩

theorem mentions_stray : stray.Mentions .parameter "Missing" := by
  have known : strayType ∈ stray.types.types := by decide +kernel
  have declared : strayField ∈ strayType.fields := List.mem_singleton_self _
  have takes : .named "Missing" true ∈ strayField.parameters.values :=
    List.mem_singleton_self _
  exact .parameter known declared takes

theorem notMem_keys_stray : "Missing" ∉ stray.types.byName.keys := by decide +kernel

theorem not_all_mentions_resolve :
    ¬ ∀ schema : Schema, schema.Built →
      ∀ role name, schema.Mentions role name → name ∈ schema.types.byName.keys :=
  fun resolve =>
    notMem_keys_stray (resolve stray built_stray .parameter "Missing" mentions_stray)

/-! Lookups. -/

def Missing {α : Type} (answer : Except LookupFault α) : Prop :=
  ∃ typeName, answer = .error (.undefinedType typeName)

/-- No lookup about a name stops at a type that is not there. -/
structure Answers (schema : Schema) (name : String) : Prop where
  type : ¬ Missing (schema.type name)
  kind : ¬ Missing (schema.kind name)
  isLeaf : ¬ Missing (schema.isLeaf name)
  possibleTypes : ¬ Missing (schema.possibleTypes name)
  field : ∀ field, ¬ Missing (schema.field name field)
  fieldType : ∀ field, ¬ Missing (schema.fieldType name field)
  referenced : ∀ reference : TypeReference, reference.typeName = name →
    ¬ Missing (schema.referenced reference)

theorem missing_bind {α β : Type} {found : Except LookupFault α} {next : α → Except LookupFault β} :
    Missing (found >>= next) ↔
      Missing found ∨ ∃ value, found = .ok value ∧ Missing (next value) := by
  cases found <;> simp [Missing, bind, Except.bind]

theorem missing_map {α β : Type} {found : Except LookupFault α} {convert : α → β} :
    Missing (found.map convert) ↔ Missing found := by
  cases found <;> simp [Missing, Except.map]

theorem missing_type : Missing (schema.type name) ↔ name ∉ schema.types.byName.keys := by
  rw [← TypeTable.contains_iff_mem_keys, TypeTable.contains, Schema.type, Schema.get?]
  cases schema.types.get? name <;> simp [Missing]

theorem not_missing_possibleTypes (known : ¬ Missing (schema.type name)) :
    ¬ Missing (schema.possibleTypes name) := by
  rw [possibleTypes, missing_bind]
  rintro (missing | ⟨type, _, _, missing⟩)
  · exact known missing
  · split at missing <;> cases missing

theorem not_missing_field (known : ¬ Missing (schema.type name)) (field : String) :
    ¬ Missing (schema.field name field) := by
  rw [Schema.field, missing_bind]
  rintro (missing | ⟨type, _, _, missing⟩)
  · exact known missing
  · split at missing
    · cases missing
    · split at missing <;> cases missing

theorem mem_fields_of_field {field : String} {declared : Field}
    (found : schema.field name field = .ok declared) :
    ∃ type ∈ schema.types.types, declared ∈ type.fields := by
  obtain ⟨type, shape, known, shaped, filed⟩ := field_eq_ok.mp found
  refine ⟨type, TypeTable.mem_types_of_get? known, ?_⟩
  rw [NamedType.fields, shaped]
  exact List.mem_map_of_mem (OrderedMap.get?_eq_some.mp filed)

theorem answers_of_mem_keys (known : name ∈ schema.types.byName.keys) : schema.Answers name := by
  have type : ¬ Missing (schema.type name) := fun missing => missing_type.mp missing known
  have kind : ¬ Missing (schema.kind name) := mt missing_map.mp type
  refine ⟨type, kind, mt missing_map.mp kind, not_missing_possibleTypes type,
    not_missing_field type, fun field => ?_, fun reference same => ?_⟩
  · rw [Schema.fieldType, missing_bind]
    rintro (missing | ⟨declared, found, missing⟩)
    · exact not_missing_field type field missing
    · obtain ⟨owner, inside, member⟩ := mem_fields_of_field found
      exact missing_type.mp (missing_map.mp missing)
        (schema.resolves.fields owner inside declared member)
  · rw [referenced, missing_map, same]
    exact type

theorem IsComposite.possibleTypes_eq (composite : schema.IsComposite name) :
    ∃ objects, schema.possibleTypes name =
        .ok ((if name ∈ schema.types.interfaceNames then [name] else []) ++ objects) ∧
      ∀ object ∈ objects, schema.types.isObject object = true := by
  obtain ⟨types, possible⟩ := composite.possibleTypes
  rw [possible]
  cases possibleTypes_eq_ok.mp possible with
  | object found =>
      refine ⟨[name], congrArg Except.ok (if_neg ?_ ▸ rfl), ?_⟩
      · rw [TypeTable.mem_interfaceNames_iff]
        rintro ⟨_, _, again⟩
        cases found.symm.trans again
      · exact List.forall_mem_singleton.mpr (TypeTable.isObject_iff.mpr ⟨_, _, found⟩)
  | interface found =>
      refine ⟨schema.implementers name, congrArg Except.ok (if_pos ?_ ▸ rfl), ?_⟩
      · exact TypeTable.mem_interfaceNames_iff.mpr ⟨_, _, found⟩
      · intro object member
        exact TypeTable.isObject_iff.mpr (mem_implementers_iff.mp member).exists_object
  | union found =>
      refine ⟨types, congrArg Except.ok (if_neg ?_ ▸ rfl), ?_⟩
      · rw [TypeTable.mem_interfaceNames_iff]
        rintro ⟨_, _, again⟩
        cases found.symm.trans again
      · intro object member
        exact TypeTable.isObject_iff.mpr (exists_object_of_member found member)

/-- What holds of the names in a schema that documents make. -/
structure Integral (schema : Schema) : Prop where
  named : ∀ entry ∈ schema.types.byName.entries, entry.2.name = entry.1
  builtinNames : ∃ others,
    schema.types.byName.keys = ["Boolean", "Float", "ID", "Int", "String"] ++ others
  builtins : ∀ which, schema.get? which.name = some (.builtin which)
  fields : ∀ type ∈ schema.types.types, type.FilesFields
  query : ∃ heading shape, schema.get? schema.query.val = some (.object heading shape)
  roots : ∀ operation root, schema.root? operation = some root →
    ∃ heading shape, schema.get? root = some (.object heading shape)
  fieldTypes : ∀ type ∈ schema.types.types, ∀ field ∈ type.fields,
    schema.fieldType type.name field.name = .ok field.type.typeName
  possibleTypes : ∀ name, schema.IsComposite name → ∃ types, schema.possibleTypes name = .ok types ∧
    types.Nodup ∧ (∀ other ∈ types, other ∈ schema.types.byName.keys) ∧
    ∃ objects, types = (if name ∈ schema.types.interfaceNames then [name] else []) ++ objects ∧
      ∀ object ∈ objects, schema.types.isObject object = true
  answers : ∀ name, schema.Supplies name →
    schema.Answers name ∨
      schema.Mentions .parameter name ∧ name ∉ schema.types.byName.keys

theorem Built.fieldType {schema : Schema} (built : schema.Built) {type : NamedType} {field : Field}
    (known : type ∈ schema.types.types) (declared : field ∈ type.fields) :
    schema.fieldType type.name field.name = .ok field.type.typeName := by
  have found := TypeTable.get?_of_mem_types known
  cases shaped : type.shape? with
  | none =>
      rw [NamedType.fields, shaped] at declared
      cases declared
  | some shape =>
      rw [NamedType.fields, shaped] at declared
      obtain ⟨entry, filed, rfl⟩ := List.mem_map.mp declared
      have named := (built.filesFields found shape shaped entry filed).1
      have resolves := schema.resolves.fields type known entry.2
        (by rw [NamedType.fields, shaped]; exact declared)
      obtain ⟨target, present⟩ := Option.isSome_iff_exists.mp
        (TypeTable.contains_iff_mem_keys.mpr resolves)
      refine fieldType_eq_ok.mpr ⟨entry.2, target.kind, ?_, ?_, rfl⟩
      · refine field_eq_ok.mpr ⟨type, shape, found, shaped, ?_⟩
        rw [named]
        exact OrderedMap.get?_eq_some.mpr filed
      · exact map_eq_ok.mpr ⟨target, type_eq_ok.mpr present, rfl⟩

theorem MadeOf.integral {documents : List (Option String × Sdl.Document)}
    (made : schema.MadeOf documents) : schema.Integral where
  named := schema.types.named
  builtinNames := ⟨_, made.keys⟩
  builtins := Built.get?_builtin ⟨documents, made⟩
  fields type known := Built.filesFields ⟨documents, made⟩ (TypeTable.get?_of_mem_types known)
  query := TypeTable.isObject_iff.mp schema.query.property
  roots _ _ := exists_object_of_root?
  fieldTypes _ known _ declared := Built.fieldType ⟨documents, made⟩ known declared
  possibleTypes name composite := by
    obtain ⟨objects, possible, areObjects⟩ := composite.possibleTypes_eq
    refine ⟨_, possible, possibleTypes_nodup ⟨documents, made⟩ possible, ?_, objects, rfl,
      areObjects⟩
    exact fun other member => mem_keys_of_possible possible member
  answers name supplies := by
    by_cases known : name ∈ schema.types.byName.keys
    · exact .inl (answers_of_mem_keys known)
    · exact .inr ⟨supplies.mem_keys_or.resolve_left known, known⟩

theorem exists_ofDraft_iff {draft : Draft} {types : TypeTable} {query : types.ObjectName}
    {mutation? subscription? : Option types.ObjectName}
    (extended : draft.extensions.foldlM TypeTable.extend draft.types = .ok types)
    (queried : types.root? draft.roots .query = .ok (some query))
    (mutated : types.root? draft.roots .mutation = .ok mutation?)
    (subscribed : types.root? draft.roots .subscription = .ok subscription?) :
    (∃ schema, ofDraft draft = .ok schema) ↔ types.Resolves := by
  constructor
  · rintro ⟨schema, made⟩
    obtain ⟨again, _⟩ := ofDraft_eq_ok.mp made
    rw [extended] at again
    cases again
    exact schema.resolves
  · intro resolves
    have resolved := TypeTable.referenceFaults_eq_nil_iff.mpr resolves
    refine ⟨⟨types, resolved, types.implementations, rfl, query, mutation?, subscription?⟩, ?_⟩
    exact ofDraft_eq_ok.mpr ⟨extended, queried, mutated, subscribed⟩

/-- Documents make a schema exactly if the references of their types resolve, once all extensions
apply and the root types are there; and the names in every schema that they make lead to types
of it, except for parameters whose types are not there. -/
theorem ofDraft_integral {documents : List (Option String × Sdl.Document)} {draft : Draft}
    (collected : Draft.ofDocuments documents = .ok draft) :
    (∀ (types : TypeTable) (query : types.ObjectName)
      (mutation? subscription? : Option types.ObjectName),
      draft.extensions.foldlM TypeTable.extend draft.types = .ok types →
      types.root? draft.roots .query = .ok (some query) →
      types.root? draft.roots .mutation = .ok mutation? →
      types.root? draft.roots .subscription = .ok subscription? →
      ((∃ schema, ofDraft draft = .ok schema) ↔ types.Resolves)) ∧
    ∀ schema, ofDraft draft = .ok schema → schema.Integral := by
  constructor
  · intro types query mutation? subscription? extended queried mutated subscribed
    exact exists_ofDraft_iff extended queried mutated subscribed
  · intro schema made
    exact MadeOf.integral ⟨draft, collected, made⟩

/-- The type of a parameter need not be there, and then no lookup about it gives an answer. -/
theorem not_all_supplied_answer :
    ¬ ∀ documents draft schema, Draft.ofDocuments documents = .ok draft →
      ofDraft draft = .ok schema →
      ∀ name, schema.Supplies name → schema.Answers name := by
  intro answer
  have answers := answer [(none, strayDefinitions)] ⟨strayTypes, ∅, []⟩ stray rfl rfl
    "Missing" (.mentioned mentions_stray)
  exact answers.type (missing_type.mpr notMem_keys_stray)

def kennelDocuments : List (Option String × Sdl.Document) :=
  let field (name typeName : String) (arguments : List Sdl.Input) : Sdl.Field :=
    ⟨name, .named typeName, arguments, none, ⟨2, 3⟩⟩
  [(some "kennel.graphql",
      [.type ⟨"Query", none, ⟨1, 1⟩, .object [] [field "guest" "Guest" []]⟩,
        .type ⟨"Animal", none, ⟨1, 1⟩, .interface [] [field "name" "String" []]⟩,
        .type ⟨"Dog", none, ⟨1, 1⟩, .object ["Animal"] [field "name" "String" []]⟩,
        .type ⟨"Guest", none, ⟨1, 1⟩, .union ["Dog"]⟩]),
    (some "cats.graphql",
      [.extension ⟨"Guest", ⟨1, 1⟩, .union ["Cat"]⟩,
        .extension ⟨"Dog", ⟨1, 1⟩, .object [] [field "fits" "Boolean" [⟨"size", .named "Size"⟩]]⟩,
        .type ⟨"Cat", none, ⟨1, 1⟩, .object ["Animal"] [field "name" "String" []]⟩,
        .type ⟨"Size", none, ⟨1, 1⟩, .input [⟨"width", .required (.named "Int")⟩]⟩])]

theorem isSome_kennelDraft : (Draft.ofDocuments kennelDocuments).toOption.isSome = true := by
  decide

def kennelDraft : Draft := (Draft.ofDocuments kennelDocuments).toOption.get isSome_kennelDraft

theorem isSome_kennel : (ofDraft kennelDraft).toOption.isSome = true := by
  decide

def kennel : Schema := (ofDraft kennelDraft).toOption.get isSome_kennel

theorem ofDraft_integral_of_kennel :
    Draft.ofDocuments kennelDocuments = .ok kennelDraft ∧
      (kennelDraft.extensions.foldlM TypeTable.extend kennelDraft.types = .ok kennel.types ∧
        kennel.types.root? kennelDraft.roots .query = .ok (some kennel.query) ∧
        kennel.types.root? kennelDraft.roots .mutation = .ok kennel.mutation? ∧
        kennel.types.root? kennelDraft.roots .subscription = .ok kennel.subscription? ∧
        ((∃ schema, ofDraft kennelDraft = .ok schema) ↔ kennel.types.Resolves)) ∧
      ofDraft kennelDraft = .ok kennel ∧ kennel.Integral := by
  have collected : Draft.ofDocuments kennelDocuments = .ok kennelDraft :=
    eq_ok_of_isSome isSome_kennelDraft
  have made : ofDraft kennelDraft = .ok kennel := eq_ok_of_isSome isSome_kennel
  obtain ⟨extended, queried, mutated, subscribed⟩ := ofDraft_eq_ok.mp made
  obtain ⟨makes, integral⟩ := ofDraft_integral collected
  exact ⟨collected, ⟨extended, queried, mutated, subscribed,
    makes _ _ _ _ extended queried mutated subscribed⟩, made, integral kennel made⟩

end FieldLookahead.Schema
