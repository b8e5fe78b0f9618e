import FieldLookahead.Proofs.OrderedMap
import FieldLookahead.Proofs.Schema.Loading

namespace FieldLookahead.Schema

/-! What documents declare against what their schema lists. A name that is declared again stops
the building, but among parameters and input fields, where it takes the place of the first. -/

/-- Where a type lists names. -/
inductive Slot where
  | interfaces | members | values | fields | inputs
  | parameters (field : String)
  deriving DecidableEq

/-- Whether a name must not be declared again. -/
def Slot.guarded : Slot → Bool
  | interfaces | members | values | fields => true
  | inputs | parameters _ => false

abbrev Declared := String × Option TypeReference

def Slot.listing (slot place : Slot) (names : List String) : List Declared :=
  if slot = place then names.map (·, none) else []

def declaredInputs (inputs : List Sdl.Input) : List Declared :=
  inputs.map fun input => (input.name, some (.ofForm input.form))

def declaredByField (slot : Slot) (field : Sdl.Field) : List Declared :=
  match slot with
  | .fields => [(field.name, some (.ofForm field.form))]
  | .parameters owner => if field.name = owner then declaredInputs field.arguments else []
  | .interfaces | .members | .values | .inputs => []

def declaredByBody (slot : Slot) : Sdl.TypeBody → List Declared
  | .scalar => []
  | .object interfaces fields | .interface interfaces fields =>
    slot.listing .interfaces interfaces ++ fields.flatMap (declaredByField slot)
  | .union members => slot.listing .members members
  | .enum values => slot.listing .values (values.map (·.name))
  | .input fields => if slot = .inputs then declaredInputs fields else []

def declaredByDefinition (typeName : String) (slot : Slot) (entry : Filed) : List Declared :=
  match entry.2 with
  | .type definition =>
    if definition.name = typeName then declaredByBody slot definition.body else []
  | .roots _ | .extension _ | .directive => []

def declaredByExtension (typeName : String) (slot : Slot)
    (source : Option String × Sdl.TypeExtension) : List Declared :=
  if source.2.name = typeName then declaredByBody slot source.2.body else []

/-- What documents declare in a slot of a type, by its definition and then by its extensions. -/
def declared (documents : List (Option String × Sdl.Document)) (typeName : String) (slot : Slot) :
    List Declared :=
  (filed documents).flatMap (declaredByDefinition typeName slot) ++
    (extensionsAmong (filed documents)).flatMap (declaredByExtension typeName slot)

def listedInputs (inputs : OrderedMap String TypeReference) : List Declared :=
  inputs.entries.map fun entry => (entry.1, some entry.2)

def Shape.contents (slot : Slot) (shape : Shape) : List Declared :=
  match slot with
  | .interfaces => shape.interfaces.map (·, none)
  | .fields => shape.fields.entries.map fun entry => (entry.1, some entry.2.type)
  | .parameters field =>
    (shape.fields.get? field).elim [] fun found => listedInputs found.parameters
  | .members | .values | .inputs => []

def NamedType.contents (slot : Slot) : NamedType → List Declared
  | .builtin _ | .scalar _ => []
  | .object _ shape | .interface _ shape => shape.contents slot
  | .union _ members => slot.listing .members members
  | .enum _ values => slot.listing .values values
  | .input _ fields => if slot = .inputs then listedInputs fields else []

def TypeTable.contents (table : TypeTable) (typeName : String) (slot : Slot) : List Declared :=
  (table.get? typeName).elim [] (NamedType.contents slot)

/-- A list takes declarations, of which none comes again if the list is guarded. -/
inductive Takes (guarded : Bool) : List Declared → List Declared → List Declared → Prop
  | nil {known : List Declared} : Takes guarded known [] known
  | cons {known rest final : List Declared} {first : Declared}
      (fresh : guarded = true → first.1 ∉ Assoc.keys known)
      (others : Takes guarded (Assoc.insert first.1 first.2 known) rest final) :
      Takes guarded known (first :: rest) final

namespace Takes

variable {guarded : Bool} {known middle final given more : List Declared}

theorem append (first : Takes guarded known given middle)
    (second : Takes guarded middle more final) : Takes guarded known (given ++ more) final := by
  induction first with
  | nil => exact second
  | cons fresh _ ih => exact .cons fresh (ih second)

theorem final_eq (takes : Takes guarded known given final) :
    final = given.foldl (fun known entry => Assoc.insert entry.1 entry.2 known) known := by
  induction takes with
  | nil => rfl
  | cons _ _ ih => exact ih

theorem eq_append (takes : Takes true known given final) : final = known ++ given := by
  induction takes with
  | nil => exact (List.append_nil _).symm
  | cons fresh _ ih =>
      rw [ih, Assoc.insert_of_missing (Assoc.get?_eq_none.mpr (fresh rfl)), List.append_assoc]
      rfl

theorem nodup (takes : Takes guarded known given final) (distinct : (Assoc.keys known).Nodup) :
    (Assoc.keys final).Nodup := by
  induction takes with
  | nil => exact distinct
  | cons _ _ ih => exact ih (Assoc.nodup_keys_insert distinct)

theorem foldlM {ε α β : Type} {step : β → α → Except ε β} (contents : β → List Declared)
    {gives : α → List Declared} {items : List α} {start finish : β}
    (run : items.foldlM step start = .ok finish)
    (each : ∀ item before after, step before item = .ok after →
      Takes guarded (contents before) (gives item) (contents after)) :
    Takes guarded (contents start) (items.flatMap gives) (contents finish) := by
  induction items generalizing start with
  | nil =>
      cases run
      exact .nil
  | cons item rest ih =>
      rw [List.foldlM_cons] at run
      obtain ⟨next, stepped, run⟩ := bind_eq_ok.mp run
      exact (each item start next stepped).append (ih run)

end Takes

theorem Slot.listing_flatMap {α : Type} (slot place : Slot) (label : α → String)
    (items : List α) :
    items.flatMap (fun item => slot.listing place [label item]) =
      slot.listing place (items.map label) := by
  by_cases same : slot = place
  · simp [listing, same, ← List.map_eq_flatMap, Function.comp_def]
  · simp [listing, same]

theorem takes_name (slot place : Slot) {names : List String} {name : String}
    (absent : name ∉ names) :
    Takes slot.guarded (slot.listing place names) (slot.listing place [name])
      (slot.listing place (names ++ [name])) := by
  by_cases same : slot = place
  · have fresh : name ∉ Assoc.keys (names.map (·, (none : Option TypeReference))) := by
      simpa [Assoc.keys, Function.comp_def] using absent
    have taken : Assoc.insert name none (names.map (·, (none : Option TypeReference))) =
        (names ++ [name]).map (·, none) := by
      rw [Assoc.insert_of_missing (Assoc.get?_eq_none.mpr fresh), List.map_append]
      rfl
    simp only [Slot.listing, same, if_true]
    exact taken ▸ .cons (fun _ => fresh) .nil
  · simp only [Slot.listing, same, if_false]
    exact .nil

theorem takes_names {α : Type} {add : List String → α → Except Fault (List String)}
    (slot place : Slot) (label : α → String) {items : List α} {names names' : List String}
    (run : items.foldlM add names = .ok names')
    (adds : ∀ names item names', add names item = .ok names' →
      label item ∉ names ∧ names ++ [label item] = names') :
    Takes slot.guarded (slot.listing place names) (slot.listing place (items.map label))
      (slot.listing place names') := by
  rw [← Slot.listing_flatMap]
  refine Takes.foldlM (slot.listing place) run fun item before after added => ?_
  obtain ⟨absent, rfl⟩ := adds before item after added
  exact takes_name slot place absent

theorem takes_inputs (fields : OrderedMap String TypeReference) (inputs : List Sdl.Input) :
    Takes false (listedInputs fields) (declaredInputs inputs)
      (listedInputs (inputs.foldl NamedType.addInput fields)) := by
  induction inputs generalizing fields with
  | nil => exact .nil
  | cons input rest ih =>
      have taken : listedInputs (NamedType.addInput fields input) =
          Assoc.insert input.name (some (.ofForm input.form)) (listedInputs fields) :=
        (Assoc.insert_map some _ _ _).symm
      exact .cons nofun (taken ▸ ih (NamedType.addInput fields input))

namespace Shape

variable {file? : Option String} {heading : Heading} {before after : Shape}

theorem takes_addInterface {interface : String}
    (added : addInterface heading before interface = .ok after) (slot : Slot) :
    Takes slot.guarded (before.contents slot) (slot.listing .interfaces [interface])
      (after.contents slot) := by
  obtain ⟨absent, rfl⟩ := addInterface_eq_ok.mp added
  cases slot with
  | interfaces => exact takes_name .interfaces .interfaces absent
  | members | values | fields | inputs | parameters field => exact .nil

theorem contents_fields_insert (interfaces : List String) (fields : OrderedMap String Field)
    (name : String) (field : Field) :
    contents .fields ⟨interfaces, fields.insert name field⟩ =
      Assoc.insert name (some field.type) (contents .fields ⟨interfaces, fields⟩) :=
  (Assoc.insert_map (fun field : Field => some field.type) _ _ _).symm

theorem contents_parameters_insert (interfaces : List String) (fields : OrderedMap String Field)
    (name : String) (field : Field) :
    contents (.parameters name) ⟨interfaces, fields.insert name field⟩ =
      listedInputs field.parameters := by
  rw [contents, OrderedMap.get?_insert_self]
  rfl

theorem parameters_fieldOf (owner : String) (file? : Option String) (declared : Sdl.Field) :
    (fieldOf owner file? declared).parameters =
      declared.arguments.foldl NamedType.addInput ∅ :=
  List.foldl_map

theorem takes_addField {declared : Sdl.Field}
    (added : addField file? heading before declared = .ok after) (slot : Slot) :
    Takes slot.guarded (before.contents slot) (declaredByField slot declared)
      (after.contents slot) := by
  obtain ⟨fresh, rfl⟩ := addField_eq_ok.mp added
  cases slot with
  | interfaces | members | values | inputs => exact .nil
  | fields =>
      have absent : declared.name ∉ Assoc.keys (before.contents .fields) := by
        simpa [Assoc.keys, contents, Function.comp_def] using Assoc.get?_eq_none.mp fresh
      rw [contents_fields_insert]
      exact .cons (fun _ => absent) .nil
  | parameters owner =>
      by_cases same : declared.name = owner
      · subst same
        have none : before.contents (.parameters declared.name) = [] := by
          rw [contents, fresh]
          rfl
        rw [none, contents_parameters_insert, parameters_fieldOf, declaredByField, if_pos rfl]
        exact takes_inputs ∅ declared.arguments
      · rw [contents, contents, OrderedMap.get?_insert_of_ne _ same, declaredByField, if_neg same]
        exact .nil

theorem takes_grow {interfaces : List String} {fields : List Sdl.Field}
    (grown : before.grow file? heading interfaces fields = .ok after) (slot : Slot) :
    Takes slot.guarded (before.contents slot)
      (slot.listing .interfaces interfaces ++ fields.flatMap (declaredByField slot))
      (after.contents slot) := by
  obtain ⟨middle, implementing, declaring⟩ := bind_eq_ok.mp grown
  have named := Slot.listing_flatMap slot .interfaces id interfaces
  rw [List.map_id] at named
  rw [← named]
  have implemented := Takes.foldlM (contents slot) implementing
    fun _ _ _ added => takes_addInterface added slot
  have declared := Takes.foldlM (contents slot) declaring
    fun _ _ _ added => takes_addField added slot
  exact implemented.append declared

end Shape

namespace NamedType

variable {file? : Option String} {location : Syntax.Location} {before after : NamedType}

theorem contents_blank (slot : Slot) (heading : Heading) (body : Sdl.TypeBody) :
    (blank heading body).contents slot = [] := by
  cases body with
  | scalar => rfl
  | object _ _ | interface _ _ => cases slot <;> rfl
  | union _ | enum _ => cases slot <;> rfl
  | input _ => cases slot <;> rfl

theorem takes_grow {body : Sdl.TypeBody} (grown : grow file? location body before = .ok after)
    (slot : Slot) :
    Takes slot.guarded (before.contents slot) (declaredByBody slot body) (after.contents slot) := by
  rw [grow.eq_def] at grown
  split at grown
  · cases grown
    exact .nil
  · obtain ⟨_, grows, rfl⟩ := map_eq_ok.mp grown
    exact Shape.takes_grow grows slot
  · obtain ⟨_, grows, rfl⟩ := map_eq_ok.mp grown
    exact Shape.takes_grow grows slot
  · obtain ⟨_, listed, rfl⟩ := map_eq_ok.mp grown
    have taken := takes_names slot .members id listed fun _ _ _ => addMember_eq_ok.mp
    rwa [List.map_id] at taken
  · obtain ⟨_, listed, rfl⟩ := map_eq_ok.mp grown
    exact takes_names slot .values (·.name) listed fun _ _ _ => addValue_eq_ok.mp
  · cases grown
    cases slot with
    | inputs => exact takes_inputs _ _
    | interfaces | members | values | fields | parameters field => exact .nil
  · cases grown

end NamedType

variable {documents : List (Option String × Sdl.Document)} {schema : Schema}

namespace TypeTable

variable {table : TypeTable} {type : NamedType} {typeName : String}

theorem contents_of_get? (found : table.get? typeName = some type) (slot : Slot) :
    table.contents typeName slot = type.contents slot := by
  rw [contents, found]
  rfl

theorem contents_insert_self (slot : Slot) :
    (table.insert type).contents type.name slot = type.contents slot :=
  contents_of_get? get?_insert_self slot

theorem contents_insert_of_ne (differs : type.name ≠ typeName) (slot : Slot) :
    (table.insert type).contents typeName slot = table.contents typeName slot := by
  rw [contents, contents, get?_insert_of_ne differs]

theorem contents_builtins (typeName : String) (slot : Slot) :
    builtins.contents typeName slot = [] := by
  have none : empty.All fun type => type.contents slot = [] := fun _ member => nomatch member
  have all : builtins.All fun type => type.contents slot = [] :=
    List.foldlRecOn Builtin.all _ none fun table all which _ => KeptByGrowth.insert all rfl
  cases found : builtins.get? typeName with
  | none =>
      rw [contents, found]
      rfl
  | some type =>
      rw [contents_of_get? found]
      exact all _ (OrderedMap.get?_eq_some.mp found)

theorem takes_extend {source : Option String × Sdl.TypeExtension} {before after : TypeTable}
    (extended : before.extend source = .ok after) (typeName : String) (slot : Slot) :
    Takes slot.guarded (before.contents typeName slot) (declaredByExtension typeName slot source)
      (after.contents typeName slot) := by
  obtain ⟨type, grown, known, grows, rfl⟩ := extend_eq_ok.mp extended
  have named : grown.name = source.2.name := (NamedType.name_grow grows).trans (name_of_get? known)
  rw [declaredByExtension]
  by_cases same : source.2.name = typeName
  · subst same
    rw [if_pos rfl, contents_of_get? known, ← named, contents_insert_self]
    exact NamedType.takes_grow grows slot
  · rw [if_neg same, contents_insert_of_ne (named.trans_ne same)]
    exact .nil

end TypeTable

namespace Draft

theorem takes_add {entry : Filed} {before after : Draft} (added : before.add entry = .ok after)
    (typeName : String) (slot : Slot) :
    Takes slot.guarded (before.types.contents typeName slot)
      (declaredByDefinition typeName slot entry) (after.types.contents typeName slot) := by
  obtain ⟨file?, definition⟩ := entry
  cases definition with
  | roots named =>
      rw [addRoots_types added]
      exact .nil
  | extension extension =>
      cases added
      exact .nil
  | directive =>
      cases added
      exact .nil
  | type definition =>
      obtain ⟨type, made, fresh, rfl⟩ := addType_eq_ok.mp added
      have named := NamedType.name_ofDefinition made
      rw [declaredByDefinition]
      dsimp only
      by_cases same : definition.name = typeName
      · subst same
        have none : before.types.contents definition.name slot = [] := by
          rw [TypeTable.contents, ← named, fresh]
          rfl
        have taken := NamedType.takes_grow made slot
        rw [NamedType.contents_blank] at taken
        rw [if_pos rfl, none, ← named, TypeTable.contents_insert_self]
        exact taken
      · rw [if_neg same, TypeTable.contents_insert_of_ne (named.trans_ne same)]
        exact .nil

end Draft

theorem MadeOf.takes (made : schema.MadeOf documents) (typeName : String) (slot : Slot) :
    Takes slot.guarded [] (declared documents typeName slot)
      (schema.types.contents typeName slot) := by
  obtain ⟨draft, collected, made⟩ := made
  have waiting := Draft.extensions_ofDocuments collected
  rw [Draft.ofDocuments, Draft.addDocuments_eq] at collected
  rw [← TypeTable.contents_builtins typeName slot, declared, ← waiting]
  have defined := Takes.foldlM (fun draft : Draft => draft.types.contents typeName slot) collected
    fun _ _ _ added => Draft.takes_add added typeName slot
  have extended := Takes.foldlM (fun table : TypeTable => table.contents typeName slot)
    (ofDraft_eq_ok.mp made).1 fun _ _ _ extended => TypeTable.takes_extend extended typeName slot
  exact defined.append extended

def declaredNames (documents : List (Option String × Sdl.Document)) (typeName : String)
    (slot : Slot) : List String :=
  Assoc.keys (declared documents typeName slot)

/-- Of the declarations of one name, a schema lists the last. There is just one but among parameters
and input fields, so a schema lists all that its documents declare, each name once, exactly if they
declare no parameter and no input field again. -/
theorem MadeOf.declarations (made : schema.MadeOf documents) :
    (∀ typeName slot,
      schema.types.contents typeName slot = Assoc.ofList (declared documents typeName slot)) ∧
    (∀ typeName slot, slot.guarded = true → (declaredNames documents typeName slot).Nodup) ∧
    ((∀ typeName slot, (declaredNames documents typeName slot).Nodup ∧
        declared documents typeName slot ⊆ schema.types.contents typeName slot) ↔
      ∀ typeName slot, slot.guarded = false → (declaredNames documents typeName slot).Nodup) := by
  have listed (typeName : String) (slot : Slot) :
      schema.types.contents typeName slot = Assoc.ofList (declared documents typeName slot) :=
    (made.takes typeName slot).final_eq
  have distinct (typeName : String) (slot : Slot) (guarded : slot.guarded = true) :
      (declaredNames documents typeName slot).Nodup := by
    have takes := made.takes typeName slot
    rw [guarded] at takes
    have kept : schema.types.contents typeName slot = declared documents typeName slot :=
      takes.eq_append
    rw [declaredNames, ← kept]
    exact takes.nodup List.nodup_nil
  refine ⟨listed, distinct, fun all typeName slot _ => (all typeName slot).1, ?_⟩
  intro unguarded typeName slot
  have once : (declaredNames documents typeName slot).Nodup := by
    cases guarded : slot.guarded with
    | true => exact distinct typeName slot guarded
    | false => exact unguarded typeName slot guarded
  refine ⟨once, ?_⟩
  rw [listed, Assoc.ofList_of_nodup once]
  exact List.Subset.refl _

theorem declarations_of_kennel :
    kennel.MadeOf kennelDocuments ∧
      kennel.types.contents "Guest" .members = [("Dog", none), ("Cat", none)] ∧
      (declaredNames kennelDocuments "Dog" .fields).Nodup ∧
      ((∀ typeName slot, (declaredNames kennelDocuments typeName slot).Nodup ∧
          declared kennelDocuments typeName slot ⊆ kennel.types.contents typeName slot) ↔
        ∀ typeName slot, slot.guarded = false →
          (declaredNames kennelDocuments typeName slot).Nodup) := by
  have made : kennel.MadeOf kennelDocuments := ofDocuments_eq_ok.mp ofDocuments_kennel
  obtain ⟨listed, distinct, all⟩ := made.declarations
  exact ⟨made, (listed _ _).trans (by decide), distinct _ _ rfl, all⟩

def twofoldDocuments : List (Option String × Sdl.Document) :=
  [(none,
    [.type ⟨"Query", none, ⟨1, 1⟩, .object [] [⟨"a", .named "Int", [], none, ⟨1, 14⟩⟩]⟩,
      .type ⟨"Size", none, ⟨2, 1⟩,
        .input [⟨"width", .named "Int"⟩, ⟨"width", .named "String"⟩]⟩])]

theorem isSome_twofold : (ofDocuments twofoldDocuments).toOption.isSome = true := by
  decide

def twofold : Schema := (ofDocuments twofoldDocuments).toOption.get isSome_twofold

theorem not_all_declarations_listed :
    ¬ ∀ (documents : List (Option String × Sdl.Document)) (schema : Schema),
      schema.MadeOf documents → ∀ typeName slot, (declaredNames documents typeName slot).Nodup ∧
        declared documents typeName slot ⊆ schema.types.contents typeName slot := by
  intro all
  have made : twofold.MadeOf twofoldDocuments :=
    ofDocuments_eq_ok.mp (eq_ok_of_isSome isSome_twofold)
  have member : ("width", some (.named "Int" true)) ∈ declared twofoldDocuments "Size" .inputs := by
    decide
  have lost : ("width", some (.named "Int" true)) ∉ twofold.types.contents "Size" .inputs := by
    decide +kernel
  exact lost ((all twofoldDocuments twofold made "Size" .inputs).2 member)

end FieldLookahead.Schema
