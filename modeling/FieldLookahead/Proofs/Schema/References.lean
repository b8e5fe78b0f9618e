import FieldLookahead.Proofs.Schema.Ancestry
import FieldLookahead.Proofs.Schema.Built

namespace FieldLookahead.Schema

/-! References between types. There are no faults to report exactly if whatever the types refer
to is there and of the right kind; the types of parameters are not looked at. -/

namespace NamedType

def interfaces (type : NamedType) : List String :=
  type.shape?.elim [] Shape.interfaces

def fields (type : NamedType) : List Field :=
  type.shape?.elim [] (·.fields.values)

def inputs : NamedType → List TypeReference
  | input _ fields => fields.values
  | _ => []

end NamedType

namespace TypeTable

/-- Everything that the types of a table refer to, parameters apart, is in the table. -/
structure Resolves (table : TypeTable) : Prop where
  interfaces : ∀ type ∈ table.types, ∀ name ∈ type.interfaces,
    ∃ heading shape, table.get? name = some (.interface heading shape)
  members : ∀ type ∈ table.types, ∀ name ∈ type.members,
    ∃ heading shape, table.get? name = some (.object heading shape)
  fields : ∀ type ∈ table.types, ∀ field ∈ type.fields,
    field.type.typeName ∈ table.byName.keys
  inputs : ∀ type ∈ table.types, ∀ reference ∈ type.inputs,
    reference.typeName ∈ table.byName.keys

variable {table : TypeTable} {heading : Heading} {name : String}

theorem contains_iff_mem_keys : table.contains name = true ↔ name ∈ table.byName.keys :=
  OrderedMap.contains_iff

theorem mem_keys_of_get? {type : NamedType} (found : table.get? name = some type) :
    name ∈ table.byName.keys :=
  contains_iff_mem_keys.mp (Option.isSome_of_eq_some found)

theorem isObject_iff :
    table.isObject name = true ↔
      ∃ heading shape, table.get? name = some (.object heading shape) := by
  rw [isObject]
  cases table.get? name with
  | none => simp
  | some type => cases type <;> simp [NamedType.isObject]

theorem interfaceFault?_eq_none :
    table.interfaceFault? heading name = none ↔
      ∃ heading shape, table.get? name = some (.interface heading shape) := by
  rw [interfaceFault?]
  cases table.get? name with
  | none => simp
  | some type => cases type <;> simp [NamedType.isInterface]

theorem memberFault?_eq_none :
    table.memberFault? heading name = none ↔
      ∃ heading shape, table.get? name = some (.object heading shape) := by
  rw [memberFault?]
  cases table.get? name with
  | none => simp
  | some type => cases type <;> simp [NamedType.isObject]

theorem referenceFault?_eq_none {location : Syntax.Location} {reference : TypeReference} :
    table.referenceFault? location reference = none ↔
      reference.typeName ∈ table.byName.keys := by
  rw [referenceFault?, ← contains_iff_mem_keys]
  split <;> simp_all

theorem faultsOf_eq_nil_iff {type : NamedType} :
    table.faultsOf type = [] ↔
      (∀ name ∈ type.interfaces,
        ∃ heading shape, table.get? name = some (.interface heading shape)) ∧
      (∀ name ∈ type.members, ∃ heading shape, table.get? name = some (.object heading shape)) ∧
      (∀ field ∈ type.fields, field.type.typeName ∈ table.byName.keys) ∧
      ∀ reference ∈ type.inputs, reference.typeName ∈ table.byName.keys := by
  cases type with
  | object _ _ | interface _ _ =>
      simp [faultsOf, List.filterMap_eq_nil_iff, interfaceFault?_eq_none,
        referenceFault?_eq_none, NamedType.interfaces, NamedType.fields, NamedType.members,
        NamedType.inputs, NamedType.shape?]
  | union _ _ | input _ _ =>
      simp [faultsOf, List.filterMap_eq_nil_iff, memberFault?_eq_none, referenceFault?_eq_none,
        NamedType.interfaces, NamedType.fields, NamedType.members, NamedType.inputs,
        NamedType.shape?]
  | builtin _ | scalar _ | enum _ _ =>
      simp [faultsOf, NamedType.interfaces, NamedType.fields, NamedType.members,
        NamedType.inputs, NamedType.shape?]

theorem referenceFaults_eq_nil_iff : table.referenceFaults = [] ↔ table.Resolves := by
  simp only [referenceFaults, List.flatMap_eq_nil_iff, faultsOf_eq_nil_iff]
  constructor
  · intro each
    exact ⟨fun type member => (each type member).1, fun type member => (each type member).2.1,
      fun type member => (each type member).2.2.1, fun type member => (each type member).2.2.2⟩
  · intro resolves type member
    exact ⟨resolves.interfaces type member, resolves.members type member,
      resolves.fields type member, resolves.inputs type member⟩

end TypeTable

theorem resolves (schema : Schema) : schema.types.Resolves :=
  TypeTable.referenceFaults_eq_nil_iff.mp schema.resolved

theorem exists_object_of_root? {schema : Schema} {operation : Query.OperationKind} {root : String}
    (rooted : schema.root? operation = some root) :
    ∃ heading shape, schema.get? root = some (.object heading shape) := by
  apply TypeTable.isObject_iff.mp
  cases operation with
  | query =>
      cases rooted
      exact schema.query.property
  | mutation =>
      obtain ⟨name, _, rfl⟩ := Option.map_eq_some_iff.mp rooted
      exact name.property
  | subscription =>
      obtain ⟨name, _, rfl⟩ := Option.map_eq_some_iff.mp rooted
      exact name.property

end FieldLookahead.Schema
