import FieldLookahead.Proofs.Schema.Built
import Mathlib.Data.List.Basic

namespace FieldLookahead.Schema

/-! What building does to the names of types and fields: a schema lists the built-in types and
then the types that its documents define, and each field stands under its own name. -/

def definedName? : Sdl.Definition → Option String
  | .type definition => some definition.name
  | .roots _ | .extension _ | .directive => none

def definedNames (documents : List (Option String × Sdl.Document)) : List String :=
  documents.flatMap fun (_, document) => document.filterMap definedName?

namespace NamedType

variable {file? : Option String} {location : Syntax.Location} {body : Sdl.TypeBody}
  {before after : NamedType}

theorem name_blank (heading : Heading) (body : Sdl.TypeBody) :
    (blank heading body).name = heading.name := by
  cases body <;> rfl

theorem grow_eq_ok (grown : grow file? location body before = .ok after) :
    after.heading? = before.heading? ∧ after.kind = before.kind ∧
      before.heading?.isSome = true := by
  rw [grow.eq_def] at grown
  split at grown
  · cases grown
    exact ⟨rfl, rfl, rfl⟩
  · obtain ⟨_, _, rfl⟩ := map_eq_ok.mp grown
    exact ⟨rfl, rfl, rfl⟩
  · obtain ⟨_, _, rfl⟩ := map_eq_ok.mp grown
    exact ⟨rfl, rfl, rfl⟩
  · obtain ⟨_, _, rfl⟩ := map_eq_ok.mp grown
    exact ⟨rfl, rfl, rfl⟩
  · obtain ⟨_, _, rfl⟩ := map_eq_ok.mp grown
    exact ⟨rfl, rfl, rfl⟩
  · cases grown
    exact ⟨rfl, rfl, rfl⟩
  · cases grown

theorem name_grow (grown : grow file? location body before = .ok after) :
    after.name = before.name := by
  obtain ⟨heading, _, defined⟩ := grow_eq_ok grown
  cases before <;> cases after <;> simp_all [heading?, name]

theorem name_ofDefinition {definition : Sdl.TypeDefinition}
    (made : ofDefinition file? definition = .ok after) : after.name = definition.name := by
  rw [name_grow made, name_blank]

theorem addMember_eq_ok {heading : Heading} {members members' : List String} {member : String} :
    addMember heading location members member = .ok members' ↔
      member ∉ members ∧ members ++ [member] = members' := by
  rw [addMember]
  split <;> simp [*]

theorem addValue_eq_ok {heading : Heading} {values values' : List String} {value : Sdl.EnumValue} :
    addValue file? heading values value = .ok values' ↔
      value.name ∉ values ∧ values ++ [value.name] = values' := by
  rw [addValue]
  split <;> simp [*]

end NamedType

namespace TypeTable

variable {table : TypeTable} {type : NamedType}

theorem get?_insert_self : (table.insert type).get? type.name = some type :=
  OrderedMap.get?_insert_self _ _ _

theorem get?_insert_of_ne {name : String} (differs : type.name ≠ name) :
    (table.insert type).get? name = table.get? name :=
  OrderedMap.get?_insert_of_ne _ differs _

theorem keys_insert_fresh (fresh : table.get? type.name = none) :
    (table.insert type).byName.keys = table.byName.keys ++ [type.name] :=
  (Assoc.keys_insert _ _ _).trans (if_neg (Assoc.get?_eq_none.mp fresh))

theorem keys_insert_known {name : String} (known : table.get? name = some type)
    {grown : NamedType} (same : grown.name = type.name) :
    (table.insert grown).byName.keys = table.byName.keys := by
  refine (Assoc.keys_insert _ _ _).trans (if_pos ((Assoc.get?_isSome _ _).mp ?_))
  rw [same, name_of_get? known]
  exact Option.isSome_of_eq_some known

end TypeTable

theorem Draft.keys_addDefinition {file? : Option String} {before after : Draft}
    {definition : Sdl.Definition} (added : addDefinition file? before definition = .ok after) :
    after.types.byName.keys = before.types.byName.keys ++ (definedName? definition).toList := by
  cases definition with
  | roots named => rw [addRoots_types added, definedName?, Option.toList_none, List.append_nil]
  | type definition =>
      obtain ⟨type, made, fresh, rfl⟩ := addType_eq_ok.mp added
      rw [TypeTable.keys_insert_fresh fresh, NamedType.name_ofDefinition made]
      rfl
  | extension extension =>
      cases added
      exact (List.append_nil _).symm
  | directive =>
      cases added
      exact (List.append_nil _).symm

theorem Draft.keys_ofDocuments {documents : List (Option String × Sdl.Document)} {draft : Draft}
    (collected : ofDocuments documents = .ok draft) :
    draft.types.byName.keys = Builtin.all.map Builtin.name ++ definedNames documents := by
  refine foldlM_appends (fun draft => draft.types.byName.keys) ?_ collected
  intro (file?, document) before after added
  change _ = _ ++ document.filterMap definedName?
  rw [List.filterMap_eq_flatMap_toList]
  exact foldlM_appends (fun draft => draft.types.byName.keys)
    (fun _ _ _ added => keys_addDefinition added) added

/-- The types of a schema are the built-in types and those that its documents define, in the
order of their definition. -/
theorem MadeOf.keys {schema : Schema} {documents : List (Option String × Sdl.Document)}
    (made : schema.MadeOf documents) :
    schema.types.byName.keys = Builtin.all.map Builtin.name ++ definedNames documents := by
  obtain ⟨draft, collected, made⟩ := made
  rw [← Draft.keys_ofDocuments collected]
  refine foldlM_invariant (fun table => table.byName.keys = draft.types.byName.keys) ?_ rfl
    (ofDraft_eq_ok.mp made).1
  intro source _ before after same extended
  obtain ⟨type, grown, known, grows, rfl⟩ := TypeTable.extend_eq_ok.mp extended
  rw [TypeTable.keys_insert_known known (NamedType.name_grow grows), same]

theorem Built.get?_builtin {schema : Schema} (built : schema.Built) (which : Builtin) :
    schema.get? which.name = some (.builtin which) := by
  have kept : KeptByBuilding fun table => table.get? which.name = some (.builtin which) := by
    refine ⟨by cases which <;> rfl, fun holds fresh _ => ?_, fun holds known grows => ?_⟩
    · refine (OrderedMap.get?_insert_of_ne _ (fun same => ?_) _).trans holds
      rw [same, holds] at fresh
      cases fresh
    · refine (OrderedMap.get?_insert_of_ne _ (fun same => ?_) _).trans holds
      rw [NamedType.name_grow grows, TypeTable.name_of_get? known] at same
      rw [same, holds] at known
      cases known
      cases (NamedType.grow_eq_ok grows).2.2
  exact kept.ofBuilt built

namespace Shape

variable {file? : Option String} {heading : Heading} {before after : Shape}

theorem addInterface_eq_ok {interface : String} :
    addInterface heading before interface = .ok after ↔
      interface ∉ before.interfaces ∧
        after = ⟨before.interfaces ++ [interface], before.fields⟩ := by
  rw [addInterface]
  split <;> simp [*, eq_comm]

theorem addField_eq_ok {declared : Sdl.Field} :
    addField file? heading before declared = .ok after ↔
      before.fields.get? declared.name = none ∧
        after = ⟨before.interfaces,
          before.fields.insert declared.name (fieldOf heading.name file? declared)⟩ := by
  rw [addField]
  dsimp only [fieldOf]
  cases before.fields.get? declared.name <;> simp [eq_comm]

end Shape

/-- Each field stands under its own name, and names the type that declares it. -/
def Shape.FiledBy (owner : String) (shape : Shape) : Prop :=
  ∀ entry ∈ shape.fields.entries, entry.2.name = entry.1 ∧ entry.2.owner = owner

theorem Shape.filedBy_grow {file? : Option String} {heading : Heading} {interfaces : List String}
    {fields : List Sdl.Field} {before after : Shape} (filed : before.FiledBy heading.name)
    (grown : before.grow file? heading interfaces fields = .ok after) :
    after.FiledBy heading.name := by
  obtain ⟨middle, implementing, declaring⟩ := bind_eq_ok.mp grown
  refine foldlM_invariant (FiledBy heading.name) ?_ ?_ declaring
  · intro declared _ shape next filed added
    rw [addField] at added
    split at added
    · cases added
    · cases added
      intro entry member
      rcases Assoc.mem_insert member with rfl | member
      · exact ⟨rfl, rfl⟩
      · exact filed entry member
  · refine foldlM_invariant (FiledBy heading.name) ?_ filed implementing
    intro interface _ shape next filed added
    rw [addInterface] at added
    split at added
    · cases added
    · cases added
      exact filed

def NamedType.FilesFields (type : NamedType) : Prop :=
  ∀ shape, type.shape? = some shape → shape.FiledBy type.name

theorem NamedType.filesFields_of_shape?_eq_none {type : NamedType} (bare : type.shape? = none) :
    type.FilesFields := by
  intro shape shaped
  rw [bare] at shaped
  cases shaped

theorem NamedType.filesFields_grow {file? : Option String} {location : Syntax.Location}
    {body : Sdl.TypeBody} {before after : NamedType} (files : before.FilesFields)
    (grown : grow file? location body before = .ok after) : after.FilesFields := by
  rw [grow.eq_def] at grown
  split at grown
  · cases grown
    exact files
  · obtain ⟨shape, grows, rfl⟩ := map_eq_ok.mp grown
    rintro _ ⟨⟩
    exact Shape.filedBy_grow (files _ rfl) grows
  · obtain ⟨shape, grows, rfl⟩ := map_eq_ok.mp grown
    rintro _ ⟨⟩
    exact Shape.filedBy_grow (files _ rfl) grows
  · obtain ⟨_, _, rfl⟩ := map_eq_ok.mp grown
    exact filesFields_of_shape?_eq_none rfl
  · obtain ⟨_, _, rfl⟩ := map_eq_ok.mp grown
    exact filesFields_of_shape?_eq_none rfl
  · cases grown
    exact filesFields_of_shape?_eq_none rfl
  · cases grown

theorem Built.filesFields {schema : Schema} (built : schema.Built) {name : String}
    {type : NamedType} (found : schema.get? name = some type) : type.FilesFields := by
  have kept : KeptByGrowth NamedType.FilesFields := by
    refine ⟨fun _ => NamedType.filesFields_of_shape?_eq_none rfl, fun heading body => ?_,
      NamedType.filesFields_grow⟩
    cases body with
    | object _ _ | interface _ _ =>
        rintro _ ⟨⟩ _ member
        cases member
    | scalar | union _ | enum _ | input _ => exact NamedType.filesFields_of_shape?_eq_none rfl
  exact kept.ofBuilt built _ (OrderedMap.get?_eq_some.mp found)

end FieldLookahead.Schema
