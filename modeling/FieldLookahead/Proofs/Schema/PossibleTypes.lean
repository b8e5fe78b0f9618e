import FieldLookahead.Proofs.Schema.References
import FieldLookahead.Schema.Lookup

namespace FieldLookahead.Schema

/-! The types that a value may turn out to have: object types and interfaces only, each once, and
with an interface all object types that implement it. -/

variable {schema : Schema} {name : String} {types : List String}

theorem exists_interface_of_declared {type : NamedType} {shape : Shape} {interface : String}
    (found : schema.get? name = some type) (shaped : type.shape? = some shape)
    (member : interface ∈ shape.interfaces) :
    ∃ heading shape, schema.get? interface = some (.interface heading shape) := by
  refine schema.resolves.interfaces type (TypeTable.mem_types_of_get? found) interface ?_
  rwa [NamedType.interfaces, shaped]

theorem exists_object_of_member {heading : Heading} {members : List String} {member : String}
    (found : schema.get? name = some (.union heading members)) (inside : member ∈ members) :
    ∃ heading shape, schema.get? member = some (.object heading shape) :=
  schema.resolves.members _ (TypeTable.mem_types_of_get? found) member inside

theorem exists_interface_of_implements {object interface : String}
    (implements : schema.types.Implements object interface) :
    ∃ heading shape, schema.get? interface = some (.interface heading shape) := by
  induction implements with
  | declared found member => exact exists_interface_of_declared found rfl member
  | inherited _ member ih =>
      obtain ⟨heading, shape, found⟩ := ih
      rw [TypeTable.superInterfaces, ← Schema.get?, found] at member
      exact exists_interface_of_declared found rfl member

/-- The implementers of an interface are the object types that implement it, in the order of all
types; a name of another kind has none. -/
theorem implementers_eq_filter (schema : Schema) (interface : String) :
    schema.implementers interface =
      schema.types.byName.keys.filter fun object => schema.types.Implements object interface := by
  rw [implementers, schema.implementations_eq]
  by_cases known : interface ∈ schema.types.interfaceNames
  · rw [TypeTable.get?_implementations known, Option.getD_some,
      TypeTable.implementersAmong_ancestries]
  · have missing := known
    rw [← TypeTable.keys_implementations] at missing
    rw [Assoc.get?_eq_none.mpr missing, Option.getD_none, eq_comm, List.filter_eq_nil_iff]
    intro object _ implements
    have found := exists_interface_of_implements (of_decide_eq_true implements)
    exact known (TypeTable.mem_interfaceNames_iff.mpr found)

theorem mem_implementers_iff {object interface : String} :
    object ∈ schema.implementers interface ↔ schema.types.Implements object interface := by
  rw [implementers_eq_filter, List.mem_filter, decide_eq_true_iff, and_iff_right_iff_imp]
  intro implements
  obtain ⟨heading, shape, found⟩ := implements.exists_object
  exact TypeTable.mem_keys_of_get? found

theorem nodup_implementers (schema : Schema) (interface : String) :
    (schema.implementers interface).Nodup := by
  rw [implementers_eq_filter]
  exact schema.types.byName.nodup_keys.filter _

inductive Stands (schema : Schema) (name : String) : List String → Prop
  | object {heading : Heading} {shape : Shape}
      (found : schema.get? name = some (.object heading shape)) : Stands schema name [name]
  | interface {heading : Heading} {shape : Shape}
      (found : schema.get? name = some (.interface heading shape)) :
      Stands schema name (name :: schema.implementers name)
  | union {heading : Heading} {members : List String}
      (found : schema.get? name = some (.union heading members)) : Stands schema name members

theorem type_eq_ok {type : NamedType} :
    schema.type name = .ok type ↔ schema.get? name = some type := by
  rw [Schema.type]
  cases schema.get? name <;> simp

theorem possibleTypes_eq_ok : schema.possibleTypes name = .ok types ↔ Stands schema name types := by
  rw [possibleTypes, bind_eq_ok]
  constructor
  · rintro ⟨type, known, listed⟩
    have found := type_eq_ok.mp known
    have named := TypeTable.name_of_get? found
    cases type with
    | object heading shape =>
        cases listed
        cases named
        exact .object found
    | interface heading shape =>
        cases listed
        cases named
        exact .interface found
    | union heading members =>
        cases listed
        exact .union found
    | builtin _ | scalar _ | enum _ _ | input _ _ => cases listed
  · intro stands
    cases stands with
    | object found =>
        refine ⟨_, type_eq_ok.mpr found, ?_⟩
        exact congrArg (fun name => Except.ok [name]) (TypeTable.name_of_get? found)
    | interface found =>
        refine ⟨_, type_eq_ok.mpr found, ?_⟩
        exact congrArg (fun other => Except.ok (other :: schema.implementers name))
          (TypeTable.name_of_get? found)
    | union found => exact ⟨_, type_eq_ok.mpr found, rfl⟩

theorem isComposite_of_possibleTypes (possible : schema.possibleTypes name = .ok types) :
    ∃ kind, schema.kind name = .ok kind ∧ kind.isComposite = true := by
  cases possibleTypes_eq_ok.mp possible with
  | object found | interface found | union found =>
      exact ⟨_, map_eq_ok.mpr ⟨_, type_eq_ok.mpr found, rfl⟩, rfl⟩

/-- All names are those of object types and interfaces, and no implementer is left out. -/
structure Complete (schema : Schema) (typeNames : List String) : Prop where
  kinds : ∀ name ∈ typeNames, ∃ type, schema.get? name = some type ∧
    (type.isObject = true ∨ type.isInterface = true)
  implementers : ∀ interface ∈ typeNames, ∀ object, schema.types.Implements object interface →
    object ∈ typeNames

theorem Complete.of_objects {typeNames : List String}
    (objects : ∀ name ∈ typeNames, ∃ heading shape,
      schema.get? name = some (.object heading shape)) : Complete schema typeNames where
  kinds name member := by
    obtain ⟨heading, shape, found⟩ := objects name member
    exact ⟨_, found, .inl rfl⟩
  implementers interface member object implements := by
    obtain ⟨heading, shape, found⟩ := objects interface member
    obtain ⟨_, _, again⟩ := exists_interface_of_implements implements
    rw [found] at again
    cases again

theorem Complete.append {first second : List String} (left : Complete schema first)
    (right : Complete schema second) : Complete schema (first ++ second) where
  kinds name member := by
    rcases List.mem_append.mp member with member | member
    · exact left.kinds name member
    · exact right.kinds name member
  implementers interface member object implements := by
    rcases List.mem_append.mp member with member | member
    · exact List.mem_append_left _ (left.implementers interface member object implements)
    · exact List.mem_append_right _ (right.implementers interface member object implements)

theorem possibleTypes_complete (possible : schema.possibleTypes name = .ok types) :
    Complete schema types := by
  cases possibleTypes_eq_ok.mp possible with
  | object found =>
      refine .of_objects fun other member => ?_
      rw [List.mem_singleton.mp member]
      exact ⟨_, _, found⟩
  | union found => exact .of_objects fun _ member => exists_object_of_member found member
  | interface found =>
      have objects : ∀ other ∈ schema.implementers name, ∃ heading shape,
          schema.get? other = some (.object heading shape) := by
        intro other member
        exact (mem_implementers_iff.mp member).exists_object
      have rest := Complete.of_objects objects
      refine ⟨List.forall_mem_cons.mpr ⟨⟨_, found, .inr rfl⟩, rest.kinds⟩, ?_⟩
      intro interface member object implements
      apply List.mem_cons_of_mem
      rcases List.mem_cons.mp member with rfl | member
      · exact mem_implementers_iff.mpr implements
      · exact rest.implementers interface member object implements

theorem possibleTypes_nodup (built : schema.Built)
    (possible : schema.possibleTypes name = .ok types) : types.Nodup := by
  cases possibleTypes_eq_ok.mp possible with
  | object _ => simp
  | union found => exact built.nodup_members found
  | interface found =>
      refine List.nodup_cons.mpr ⟨?_, schema.nodup_implementers name⟩
      intro member
      obtain ⟨_, _, again⟩ := (mem_implementers_iff.mp member).exists_object
      rw [← Schema.get?, found] at again
      cases again

/-- A condition covers an object type if it names the type itself, an interface that the type
implements, or a union that the type is a member of. -/
inductive Covers (schema : Schema) (object : String) : String → Prop
  | itself : Covers schema object object
  | interface {condition : String} {heading : Heading} {shape : Shape}
      (found : schema.get? condition = some (.interface heading shape))
      (implements : schema.types.Implements object condition) : Covers schema object condition
  | union {condition : String} {heading : Heading} {members : List String}
      (found : schema.get? condition = some (.union heading members))
      (member : object ∈ members) : Covers schema object condition

theorem mem_possibleTypes_iff_covers {object : String} {heading : Heading} {shape : Shape}
    (known : schema.get? object = some (.object heading shape))
    (possible : schema.possibleTypes name = .ok types) :
    object ∈ types ↔ schema.Covers object name := by
  constructor
  · intro member
    cases possibleTypes_eq_ok.mp possible with
    | object _ => exact List.mem_singleton.mp member ▸ .itself
    | interface found =>
        rcases List.mem_cons.mp member with rfl | member
        · rw [known] at found
          cases found
        · exact .interface found (mem_implementers_iff.mp member)
    | union found => exact .union found member
  · intro covers
    cases covers with
    | itself =>
        rw [possibleTypes_eq_ok.mpr (.object known)] at possible
        cases possible
        exact List.mem_singleton_self _
    | interface found implements =>
        rw [possibleTypes_eq_ok.mpr (.interface found)] at possible
        cases possible
        exact List.mem_cons_of_mem _ (mem_implementers_iff.mpr implements)
    | union found member =>
        rw [possibleTypes_eq_ok.mpr (.union found)] at possible
        cases possible
        exact member

end FieldLookahead.Schema
