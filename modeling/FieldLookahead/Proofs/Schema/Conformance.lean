import FieldLookahead.Proofs.Schema.PossibleTypes

namespace FieldLookahead.Schema

/-! Fields of composite types. If object types declare the fields of their interfaces, a field has
one type name wherever a value may turn out to have it. -/

variable {schema : Schema} {name : String}

/-- The name of an object, interface or union type. -/
def IsComposite (schema : Schema) (name : String) : Prop :=
  ∃ kind, schema.kind name = .ok kind ∧ kind.isComposite = true

theorem possibleTypes_of_isComposite {kind : Kind} (known : schema.kind name = .ok kind)
    (composite : kind.isComposite = true) : ∃ types, schema.possibleTypes name = .ok types := by
  obtain ⟨type, found, rfl⟩ := map_eq_ok.mp known
  have found := type_eq_ok.mp found
  cases type with
  | object _ _ => exact ⟨_, possibleTypes_eq_ok.mpr (.object found)⟩
  | interface _ _ => exact ⟨_, possibleTypes_eq_ok.mpr (.interface found)⟩
  | union _ _ => exact ⟨_, possibleTypes_eq_ok.mpr (.union found)⟩
  | builtin _ | scalar _ | enum _ _ | input _ _ => cases composite

theorem IsComposite.possibleTypes (composite : schema.IsComposite name) :
    ∃ types, schema.possibleTypes name = .ok types := by
  obtain ⟨kind, known, composite⟩ := composite
  exact possibleTypes_of_isComposite known composite

theorem field_eq_ok {field : String} {declared : Field} :
    schema.field name field = .ok declared ↔
      ∃ type shape, schema.get? name = some type ∧ type.shape? = some shape ∧
        shape.fields.get? field = some declared := by
  rw [Schema.field, bind_eq_ok]
  constructor
  · rintro ⟨type, known, found⟩
    cases shaped : type.shape? with
    | none =>
        rw [shaped] at found
        cases found
    | some shape =>
        rw [shaped] at found
        dsimp only at found
        split at found
        · next filed =>
          cases found
          exact ⟨type, shape, type_eq_ok.mp known, shaped, filed⟩
        · cases found
  · rintro ⟨type, shape, known, shaped, filed⟩
    refine ⟨type, type_eq_ok.mpr known, ?_⟩
    simp only [shaped, filed]

theorem possibleTypes_of_field {field : String} {declared : Field}
    (found : schema.field name field = .ok declared) :
    ∃ others, schema.possibleTypes name = .ok (name :: others) := by
  obtain ⟨type, shape, known, shaped, _⟩ := field_eq_ok.mp found
  cases type with
  | object _ _ => exact ⟨_, possibleTypes_eq_ok.mpr (.object known)⟩
  | interface _ _ => exact ⟨_, possibleTypes_eq_ok.mpr (.interface known)⟩
  | builtin _ | scalar _ | union _ _ | enum _ _ | input _ _ => cases shaped

theorem fieldType_eq_ok {field typeName : String} :
    schema.fieldType name field = .ok typeName ↔
      ∃ declared kind, schema.field name field = .ok declared ∧
        schema.kind declared.type.typeName = .ok kind ∧ declared.type.typeName = typeName := by
  rw [fieldType, bind_eq_ok]
  constructor
  · rintro ⟨declared, found, referenced⟩
    obtain ⟨type, known, same⟩ := map_eq_ok.mp referenced
    exact ⟨declared, _, found, map_eq_ok.mpr ⟨type, known, rfl⟩, same⟩
  · rintro ⟨declared, _, found, known, rfl⟩
    obtain ⟨type, known, _⟩ := map_eq_ok.mp known
    exact ⟨declared, found, map_eq_ok.mpr ⟨type, known, rfl⟩⟩

/-- Object types declare every field of the interfaces that they implement, directly or through
other interfaces, with the same type name. -/
def Conforming (schema : Schema) : Prop :=
  ∀ object interface, schema.types.Implements object interface →
    ∀ field declared, schema.field interface field = .ok declared →
      ∃ own, schema.field object field = .ok own ∧
        own.type.typeName = declared.type.typeName

theorem Conforming.field (conforming : schema.Conforming) {types : List String}
    (possible : schema.possibleTypes name = .ok types) {field : String} {declared : Field}
    (found : schema.field name field = .ok declared) {object : String} (member : object ∈ types) :
    ∃ own, schema.field object field = .ok own ∧
      own.type.typeName = declared.type.typeName := by
  cases possibleTypes_eq_ok.mp possible with
  | object _ =>
      rw [List.mem_singleton.mp member]
      exact ⟨declared, found, rfl⟩
  | interface _ =>
      rcases List.mem_cons.mp member with rfl | member
      · exact ⟨declared, found, rfl⟩
      · exact conforming object name (mem_implementers_iff.mp member) field declared found
  | union known =>
      obtain ⟨type, shape, again, shaped, _⟩ := field_eq_ok.mp found
      rw [known] at again
      cases again
      cases shaped

def fieldNames (schema : Schema) (name : String) : List String :=
  ((schema.get? name).bind NamedType.shape?).elim [] (·.fields.keys)

theorem mem_fieldNames {field : String} :
    field ∈ schema.fieldNames name ↔ ∃ declared, schema.field name field = .ok declared := by
  simp only [field_eq_ok, fieldNames]
  cases known : schema.get? name with
  | none => simp
  | some type =>
      cases shaped : type.shape? with
      | none => simp [shaped]
      | some shape =>
          simp [shaped, OrderedMap.keys, ← Assoc.get?_isSome, Option.isSome_iff_exists,
            OrderedMap.get?]

def declaredTypeName? (schema : Schema) (name field : String) : Option String :=
  (schema.field name field).toOption.map (·.type.typeName)

theorem declaredTypeName?_eq_some {field typeName : String} :
    schema.declaredTypeName? name field = some typeName ↔
      ∃ declared, schema.field name field = .ok declared ∧
        declared.type.typeName = typeName := by
  rw [declaredTypeName?]
  cases schema.field name field <;> simp [Except.toOption]

/-- It is enough to look at the interfaces of a schema and the fields that they declare. -/
theorem conforming_iff :
    schema.Conforming ↔
      ∀ interface ∈ schema.types.interfaceNames, ∀ object ∈ schema.implementers interface,
        ∀ field ∈ schema.fieldNames interface,
          schema.declaredTypeName? object field = schema.declaredTypeName? interface field := by
  constructor
  · intro conforming interface _ object member field inside
    obtain ⟨declared, found⟩ := mem_fieldNames.mp inside
    have implements := mem_implementers_iff.mp member
    rw [declaredTypeName?_eq_some.mpr (conforming object interface implements field declared found),
      declaredTypeName?_eq_some.mpr ⟨declared, found, rfl⟩]
  · intro same object interface implements field declared found
    have named :=
      TypeTable.mem_interfaceNames_iff.mpr (exists_interface_of_implements implements)
    have equal := same interface named object (mem_implementers_iff.mpr implements) field
      (mem_fieldNames.mpr ⟨declared, found⟩)
    rw [declaredTypeName?_eq_some.mpr ⟨declared, found, rfl⟩] at equal
    exact declaredTypeName?_eq_some.mp equal

instance : DecidablePred Conforming := fun _ => decidable_of_iff _ conforming_iff.symm

end FieldLookahead.Schema
