import FieldLookahead.Proofs.Schema.Lengthening
import FieldLookahead.Proofs.Schema.PossibleTypes

namespace FieldLookahead.Schema

/-! Type definitions in another order. They make a schema if they do in the first order, with the
same types under the same names and the same root types. Object types may be listed in another
order where they implement an interface, but no question about a type has another answer. -/

def type? : Filed → Option (Option String × Sdl.TypeDefinition)
  | (file?, .type definition) => some (file?, definition)
  | (_, .roots _) | (_, .extension _) | (_, .directive) => none

def typesAmong (entries : List Filed) : List (Option String × Sdl.TypeDefinition) :=
  entries.filterMap type?

def othersAmong (entries : List Filed) : List Filed :=
  entries.filter fun entry => (type? entry).isNone

/-- The definitions of documents, of which those of types come in another order. -/
structure Reordered (documents others : List (Option String × Sdl.Document)) : Prop where
  types : (typesAmong (filed documents)).Perm (typesAmong (filed others))
  rest : othersAmong (filed documents) = othersAmong (filed others)

theorem Reordered.symm {documents others : List (Option String × Sdl.Document)}
    (reordered : Reordered documents others) : Reordered others documents :=
  ⟨reordered.types.symm, reordered.rest.symm⟩

namespace TypeTable

variable {table other : TypeTable}

def SameTypes (table other : TypeTable) : Prop :=
  ∀ name, table.get? name = other.get? name

namespace SameTypes

theorem symm (same : table.SameTypes other) : other.SameTypes table :=
  fun name => (same name).symm

theorem insert (same : table.SameTypes other) (type : NamedType) :
    (table.insert type).SameTypes (other.insert type) := by
  intro name
  by_cases filed : type.name = name
  · rw [← filed, get?_insert_self, get?_insert_self]
  · rw [get?_insert_of_ne filed, get?_insert_of_ne filed, same name]

theorem mem_keys_iff (same : table.SameTypes other) {name : String} :
    name ∈ table.byName.keys ↔ name ∈ other.byName.keys := by
  rw [← contains_iff_mem_keys, ← contains_iff_mem_keys, contains, contains, same name]

theorem mem_types (same : table.SameTypes other) {type : NamedType}
    (member : type ∈ table.types) : type ∈ other.types := by
  have found := get?_of_mem_types member
  rw [same] at found
  exact mem_types_of_get? found

theorem isObject (same : table.SameTypes other) (name : String) :
    table.isObject name = other.isObject name := by
  rw [TypeTable.isObject, TypeTable.isObject, same name]

theorem extend (same : table.SameTypes other) (source : Option String × Sdl.TypeExtension) :
    Alike SameTypes (table.extend source) (other.extend source) := by
  rw [TypeTable.extend, TypeTable.extend, same]
  cases other.get? source.2.name with
  | none => exact .error
  | some type =>
      dsimp only
      cases NamedType.grow source.1 ⟨source.1, source.2.position⟩ source.2.body type with
      | error fault => exact .error
      | ok grown => exact .ok (same.insert grown)

theorem root? (same : table.SameTypes other)
    (roots : OrderedMap Query.OperationKind (String × Syntax.Location))
    (operation : Query.OperationKind) :
    Alike (fun one two => one.map (·.val) = two.map (·.val)) (table.root? roots operation)
      (other.root? roots operation) := by
  rw [TypeTable.root?, TypeTable.root?]
  cases roots.get? operation with
  | none =>
      by_cases object : table.isObject operation.title = true
      · simpa only [object, same.isObject _ ▸ object, dif_pos] using .ok rfl
      · simpa only [object, same.isObject _ ▸ object, dif_neg] using .ok rfl
  | some named =>
      obtain ⟨typeName, location⟩ := named
      by_cases object : table.isObject typeName = true
      · simpa only [object, same.isObject _ ▸ object, dif_pos] using .ok rfl
      · simpa only [object, same.isObject _ ▸ object, dif_neg] using .error

theorem resolves (same : table.SameTypes other) (resolves : table.Resolves) : other.Resolves := by
  refine ⟨fun type known name declared => ?_, fun type known name declared => ?_,
    fun type known field declared => ?_, fun type known reference declared => ?_⟩
  · rw [← same]
    exact resolves.interfaces type (same.symm.mem_types known) name declared
  · rw [← same]
    exact resolves.members type (same.symm.mem_types known) name declared
  · rw [← same.mem_keys_iff]
    exact resolves.fields type (same.symm.mem_types known) field declared
  · rw [← same.mem_keys_iff]
    exact resolves.inputs type (same.symm.mem_types known) reference declared

end SameTypes

def file (table : TypeTable) (source : Option String × Sdl.TypeDefinition) :
    Except Fault TypeTable := do
  let type ← NamedType.ofDefinition source.1 source.2
  match table.get? type.name with
  | some first =>
    .error (.repeatedType type.name first.location? ⟨source.1, source.2.position⟩)
  | none => .ok (table.insert type)

theorem file_eq_ok {source : Option String × Sdl.TypeDefinition} {after : TypeTable} :
    table.file source = .ok after ↔
      ∃ type, NamedType.ofDefinition source.1 source.2 = .ok type ∧
        table.get? type.name = none ∧ table.insert type = after := by
  rw [file, bind_eq_ok]
  refine exists_congr fun type => and_congr_right fun _ => ?_
  cases table.get? type.name <;> simp

theorem entries_insert_fresh {type : NamedType} (fresh : table.get? type.name = none) :
    (table.insert type).byName.entries = table.byName.entries ++ [(type.name, type)] :=
  Assoc.insert_of_missing fresh

/-- Definitions are filed exactly if what they make can stand after what is there. -/
theorem foldlM_file_eq_ok {sources : List (Option String × Sdl.TypeDefinition)}
    {after : TypeTable} :
    sources.foldlM file table = .ok after ↔
      ∃ made, sources.mapM (fun source => NamedType.ofDefinition source.1 source.2) = .ok made ∧
        after.byName.entries =
          table.byName.entries ++ made.map fun type => (type.name, type) := by
  induction sources generalizing table with
  | nil =>
      constructor
      · rintro ⟨⟩
        exact ⟨[], rfl, (List.append_nil _).symm⟩
      · rintro ⟨_, ⟨⟩, same⟩
        have same : table.byName.entries = after.byName.entries := by simpa using same.symm
        exact congrArg Except.ok (eq_of_byName (OrderedMap.eq_of_entries same))
  | cons source rest ih =>
      simp only [List.foldlM_cons, List.mapM_cons, bind_eq_ok, file_eq_ok, ih]
      constructor
      · rintro ⟨_, ⟨type, makes, fresh, rfl⟩, made, makesRest, entries⟩
        refine ⟨type :: made, ⟨type, makes, made, makesRest, rfl⟩, ?_⟩
        rw [entries, entries_insert_fresh fresh, List.append_assoc]
        rfl
      · rintro ⟨_, ⟨type, makes, made, makesRest, ⟨⟩⟩, entries⟩
        have distinct := after.byName.distinct
        rw [entries, Assoc.keys, List.map_append, List.nodup_append'] at distinct
        have fresh : table.get? type.name = none :=
          Assoc.get?_eq_none.mpr fun member => distinct.2.2 member (by simp)
        refine ⟨_, ⟨type, makes, fresh, rfl⟩, made, makesRest, ?_⟩
        rw [entries, entries_insert_fresh fresh, List.append_assoc]
        rfl

theorem sameTypes_of_perm (perm : table.byName.entries.Perm other.byName.entries) :
    table.SameTypes other := by
  intro name
  refine Option.ext fun type => ?_
  simp only [get?, OrderedMap.get?_eq_some, perm.mem_iff]

theorem exists_of_perm {entries : List (String × NamedType)}
    (perm : entries.Perm table.byName.entries) :
    ∃ other : TypeTable, other.byName.entries = entries :=
  ⟨⟨⟨entries, (perm.map Prod.fst).nodup_iff.mpr table.byName.distinct⟩,
    fun entry member => table.named entry (perm.mem_iff.mp member)⟩, rfl⟩

theorem foldlM_file_perm {sources others : List (Option String × Sdl.TypeDefinition)}
    (perm : sources.Perm others) {after : TypeTable} (run : sources.foldlM file table = .ok after) :
    ∃ again, others.foldlM file table = .ok again ∧ after.SameTypes again := by
  obtain ⟨made, makes, entries⟩ := foldlM_file_eq_ok.mp run
  obtain ⟨answers, makesOthers, permuted⟩ := exists_mapM_of_perm perm makes
  have moved : (table.byName.entries ++ answers.map fun type => (type.name, type)).Perm
      after.byName.entries := by
    rw [entries]
    exact (permuted.map _).append_left _
  obtain ⟨again, listed⟩ := exists_of_perm moved
  refine ⟨again, foldlM_file_eq_ok.mpr ⟨answers, makesOthers, listed⟩, ?_⟩
  exact (sameTypes_of_perm (listed.symm ▸ moved)).symm

end TypeTable

namespace Draft

variable {draft before after : Draft}

theorem addType_eq (draft : Draft) (file? : Option String) (definition : Sdl.TypeDefinition) :
    draft.addType file? definition =
      (draft.types.file (file?, definition)).map fun types => { draft with types } := by
  rw [addType, TypeTable.file]
  cases NamedType.ofDefinition file? definition with
  | error fault => rfl
  | ok type =>
      dsimp only [bind, Except.bind]
      cases draft.types.get? type.name <;> rfl

theorem add_withTypes {entry : Filed} (plain : type? entry = none) (types : TypeTable)
    (draft : Draft) :
    ({ draft with types } : Draft).add entry =
      (draft.add entry).map fun draft => { draft with types } := by
  obtain ⟨file?, definition⟩ := entry
  cases definition with
  | type definition => cases plain
  | extension extension => rfl
  | directive => rfl
  | roots named =>
      exact addRoots_convert (fun draft => { draft with types }) (fun _ => rfl) (fun _ _ => rfl)
        draft file? named

theorem types_add {entry : Filed} (plain : type? entry = none)
    (added : before.add entry = .ok after) : after.types = before.types := by
  have kept : before.add entry =
      (before.add entry).map fun draft => { draft with types := before.types } :=
    add_withTypes plain before.types before
  rw [added] at kept
  rw [Except.ok.inj kept]

theorem foldlM_add_withTypes {entries : List Filed} (plain : ∀ entry ∈ entries, type? entry = none)
    (types : TypeTable) (draft : Draft) :
    entries.foldlM add { draft with types } =
      (entries.foldlM add draft).map fun draft => { draft with types } := by
  let convert (draft : Draft) : Draft := { draft with types }
  show entries.foldlM add (convert draft) = (entries.foldlM add draft).map convert
  exact foldlM_convert (fun entry member => add_withTypes (plain entry member) types) draft

theorem type?_othersAmong (entries : List Filed) :
    ∀ entry ∈ othersAmong entries, type? entry = none :=
  fun _ member => Option.isNone_iff_eq_none.mp (List.mem_filter.mp member).2

/-- Types may be filed before everything else is read. -/
theorem foldlM_add_eq_ok {entries : List Filed} :
    entries.foldlM add before = .ok after ↔
      ∃ types, (typesAmong entries).foldlM TypeTable.file before.types = .ok types ∧
        ∃ read, (othersAmong entries).foldlM add before = .ok read ∧
          { read with types } = after := by
  induction entries generalizing before with
  | nil =>
      constructor
      · rintro ⟨⟩
        exact ⟨_, rfl, _, rfl, rfl⟩
      · rintro ⟨_, ⟨⟩, _, ⟨⟩, rfl⟩
        rfl
  | cons entry rest ih =>
      rw [List.foldlM_cons, bind_eq_ok]
      cases defined : type? entry with
      | none =>
          have others : othersAmong (entry :: rest) = entry :: othersAmong rest :=
            List.filter_cons_of_pos (by rw [defined, Option.isNone_none])
          rw [others, typesAmong, List.filterMap_cons_none defined, List.foldlM_cons]
          constructor
          · rintro ⟨next, added, run⟩
            obtain ⟨types, filed, read, reads, rfl⟩ := ih.mp run
            rw [types_add defined added] at filed
            exact ⟨types, filed, read, bind_eq_ok.mpr ⟨next, added, reads⟩, rfl⟩
          · rintro ⟨types, filed, read, reads, rfl⟩
            obtain ⟨next, added, reads⟩ := bind_eq_ok.mp reads
            rw [← types_add defined added] at filed
            exact ⟨next, added, ih.mpr ⟨types, filed, read, reads, rfl⟩⟩
      | some source =>
          have others : othersAmong (entry :: rest) = othersAmong rest :=
            List.filter_cons_of_neg (by simp [defined])
          have adds : before.add entry =
              (before.types.file source).map fun types => { before with types } := by
            obtain ⟨file?, definition⟩ := entry
            cases definition with
            | type definition =>
                cases defined
                exact addType_eq before file? definition
            | roots _ | extension _ | directive => cases defined
          have later := foldlM_add_withTypes (type?_othersAmong rest)
          rw [others, typesAmong, List.filterMap_cons_some defined, List.foldlM_cons, adds]
          constructor
          · rintro ⟨_, added, run⟩
            obtain ⟨types, filed, rfl⟩ := map_eq_ok.mp added
            obtain ⟨final, filedRest, _, reads, rfl⟩ := ih.mp run
            obtain ⟨read, sooner, rfl⟩ := map_eq_ok.mp ((later types before).symm.trans reads)
            exact ⟨final, bind_eq_ok.mpr ⟨types, filed, filedRest⟩, read, sooner, rfl⟩
          · rintro ⟨final, filed, read, reads, rfl⟩
            obtain ⟨types, filed, filedRest⟩ := bind_eq_ok.mp filed
            refine ⟨_, map_eq_ok.mpr ⟨types, filed, rfl⟩,
              ih.mpr ⟨final, filedRest, { read with types }, ?_, rfl⟩⟩
            exact (later types before).trans (map_eq_ok.mpr ⟨read, reads, rfl⟩)

theorem ofDocuments_of_reordered {documents others : List (Option String × Sdl.Document)}
    (reordered : Reordered documents others) (collected : ofDocuments documents = .ok draft) :
    ∃ types, ofDocuments others = .ok { draft with types } ∧ draft.types.SameTypes types := by
  rw [ofDocuments, addDocuments_eq] at collected
  obtain ⟨types, filed, read, reads, rfl⟩ := foldlM_add_eq_ok.mp collected
  obtain ⟨again, filedAgain, same⟩ := TypeTable.foldlM_file_perm reordered.types filed
  refine ⟨again, ?_, same⟩
  rw [ofDocuments, addDocuments_eq]
  exact foldlM_add_eq_ok.mpr ⟨again, filedAgain, read, reordered.rest ▸ reads, rfl⟩

end Draft

/-- Schemas that have the same types under the same names and the same root types, but may list
the types in another order. -/
structure SameTypes (schema other : Schema) : Prop where
  types : schema.types.SameTypes other.types
  roots : ∀ operation, schema.root? operation = other.root? operation

/-- Types in another order, of which the first stays the first. -/
structure SameCandidates (types others : List String) : Prop where
  first : types.head? = others.head?
  perm : types.Perm others

namespace SameTypes

variable {schema other : Schema}

theorem symm (same : schema.SameTypes other) : other.SameTypes schema :=
  ⟨same.types.symm, fun operation => (same.roots operation).symm⟩

theorem type_eq (same : schema.SameTypes other) (name : String) :
    schema.type name = other.type name := by
  rw [Schema.type, Schema.type, Schema.get?, Schema.get?, same.types]

theorem isLeaf_eq (same : schema.SameTypes other) (name : String) :
    schema.isLeaf name = other.isLeaf name := by
  rw [Schema.isLeaf, Schema.isLeaf, Schema.kind, Schema.kind, same.type_eq]

theorem field_eq (same : schema.SameTypes other) (name field : String) :
    schema.field name field = other.field name field := by
  rw [Schema.field, Schema.field, same.type_eq]

theorem referenced_eq (same : schema.SameTypes other) (reference : TypeReference) :
    schema.referenced reference = other.referenced reference := by
  rw [Schema.referenced, Schema.referenced, same.type_eq]

theorem fieldType_eq (same : schema.SameTypes other) (name field : String) :
    schema.fieldType name field = other.fieldType name field := by
  simp only [Schema.fieldType, same.field_eq, same.referenced_eq]

theorem implements (same : schema.SameTypes other) {object interface : String}
    (implements : schema.types.Implements object interface) :
    other.types.Implements object interface := by
  induction implements with
  | declared found member => exact .declared ((same.types _).symm.trans found) member
  | inherited _ member ih =>
      rw [TypeTable.superInterfaces, same.types] at member
      exact .inherited ih member

theorem implementers_perm (same : schema.SameTypes other) (interface : String) :
    (schema.implementers interface).Perm (other.implementers interface) := by
  refine (List.perm_ext_iff_of_nodup (schema.nodup_implementers interface)
    (other.nodup_implementers interface)).mpr fun object => ?_
  rw [mem_implementers_iff, mem_implementers_iff]
  exact ⟨same.implements, same.symm.implements⟩

theorem possibleTypes (same : schema.SameTypes other) (name : String) :
    Alike SameCandidates (schema.possibleTypes name) (other.possibleTypes name) := by
  rw [Schema.possibleTypes, Schema.possibleTypes, same.type_eq]
  refine Alike.bind_same fun type _ => ?_
  cases type with
  | object heading shape => exact .ok ⟨rfl, .refl _⟩
  | interface heading shape => exact .ok ⟨rfl, (same.implementers_perm name).cons _⟩
  | union heading members => exact .ok ⟨rfl, .refl _⟩
  | builtin _ | scalar _ | enum _ _ | input _ _ => exact .error

end SameTypes

theorem ofDraft_of_sameTypes {draft : Draft} {types : TypeTable} {schema : Schema}
    (same : draft.types.SameTypes types) (made : ofDraft draft = .ok schema) :
    ∃ other, ofDraft { draft with types } = .ok other ∧ schema.SameTypes other := by
  obtain ⟨extended, queried, mutated, subscribed⟩ := ofDraft_eq_ok.mp made
  have alike : Alike TypeTable.SameTypes (draft.extensions.foldlM TypeTable.extend draft.types)
      (draft.extensions.foldlM TypeTable.extend types) :=
    Alike.foldlM (fun source _ _ _ same => same.extend source) same
  obtain ⟨final, extendedAgain, same⟩ := alike.exists_right extended
  have rooted := same.root? draft.roots
  obtain ⟨query?, queriedAgain, query⟩ := (rooted .query).exists_right queried
  obtain ⟨mutation?, mutatedAgain, mutation⟩ := (rooted .mutation).exists_right mutated
  obtain ⟨subscription?, subscribedAgain, subscription⟩ :=
    (rooted .subscription).exists_right subscribed
  cases query? with
  | none => cases query
  | some root =>
      have resolved := TypeTable.referenceFaults_eq_nil_iff.mpr (same.resolves schema.resolves)
      let other : Schema :=
        ⟨final, resolved, final.implementations, rfl, root, mutation?, subscription?⟩
      refine ⟨other, ofDraft_eq_ok.mpr ⟨extendedAgain, queriedAgain, mutatedAgain, subscribedAgain⟩,
        same, fun operation => ?_⟩
      cases operation with
      | query => exact query
      | mutation => exact mutation
      | subscription => exact subscription

theorem ofDocuments_of_reordered {documents others : List (Option String × Sdl.Document)}
    {schema : Schema} (reordered : Reordered documents others)
    (made : ofDocuments documents = .ok schema) :
    ∃ other, ofDocuments others = .ok other ∧ schema.SameTypes other := by
  obtain ⟨draft, collected, made⟩ := bind_eq_ok.mp made
  obtain ⟨types, collectedAgain, same⟩ := Draft.ofDocuments_of_reordered reordered collected
  obtain ⟨other, madeAgain, same⟩ := ofDraft_of_sameTypes same made
  exact ⟨other, bind_eq_ok.mpr ⟨_, collectedAgain, madeAgain⟩, same⟩

end FieldLookahead.Schema
