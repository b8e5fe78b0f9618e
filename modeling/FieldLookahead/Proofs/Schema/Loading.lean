import FieldLookahead.Proofs.Schema.Integrity

namespace FieldLookahead.Schema

/-! Documents that are read one after another. Extensions wait until all documents are there, so
it does not matter where they stand among the other definitions, nor how the definitions of a file
are divided into documents. -/

abbrev Filed := Option String × Sdl.Definition

def filed (documents : List (Option String × Sdl.Document)) : List Filed :=
  documents.flatMap fun (file?, document) => document.map (file?, ·)

def extension? : Filed → Option (Option String × Sdl.TypeExtension)
  | (file?, .extension extension) => some (file?, extension)
  | (_, .roots _) | (_, .type _) | (_, .directive) => none

def definitionsAmong (entries : List Filed) : List Filed :=
  entries.filter fun entry => (extension? entry).isNone

def extensionsAmong (entries : List Filed) : List (Option String × Sdl.TypeExtension) :=
  entries.filterMap extension?

@[simp] theorem definitionsAmong_append (first second : List Filed) :
    definitionsAmong (first ++ second) = definitionsAmong first ++ definitionsAmong second :=
  List.filter_append _ _

@[simp] theorem extensionsAmong_append (first second : List Filed) :
    extensionsAmong (first ++ second) = extensionsAmong first ++ extensionsAmong second :=
  List.filterMap_append

@[simp] theorem definitionsAmong_extension (file? : Option String)
    (extension : Sdl.TypeExtension) (rest : List Filed) :
    definitionsAmong ((file?, .extension extension) :: rest) = definitionsAmong rest := rfl

@[simp] theorem extensionsAmong_extension (file? : Option String)
    (extension : Sdl.TypeExtension) (rest : List Filed) :
    extensionsAmong ((file?, .extension extension) :: rest) =
      (file?, extension) :: extensionsAmong rest := rfl

@[simp] theorem definitionsAmong_type (file? : Option String) (definition : Sdl.TypeDefinition)
    (rest : List Filed) : definitionsAmong ((file?, .type definition) :: rest) =
      (file?, .type definition) :: definitionsAmong rest := rfl

@[simp] theorem extensionsAmong_type (file? : Option String) (definition : Sdl.TypeDefinition)
    (rest : List Filed) :
    extensionsAmong ((file?, .type definition) :: rest) = extensionsAmong rest := rfl

theorem extension?_definitionsAmong (entries : List Filed) :
    ∀ entry ∈ definitionsAmong entries, extension? entry = none :=
  fun _ member => Option.isNone_iff_eq_none.mp (List.mem_filter.mp member).2

theorem filed_append (documents more : List (Option String × Sdl.Document)) :
    filed (documents ++ more) = filed documents ++ filed more :=
  List.flatMap_append

theorem filed_cons (file? : Option String) (document : Sdl.Document)
    (documents : List (Option String × Sdl.Document)) :
    filed ((file?, document) :: documents) = document.map (file?, ·) ++ filed documents :=
  List.flatMap_cons

def ofDocuments (documents : List (Option String × Sdl.Document)) : Except Fault Schema :=
  Draft.ofDocuments documents >>= ofDraft

theorem ofDocuments_eq_ok {documents : List (Option String × Sdl.Document)} {schema : Schema} :
    ofDocuments documents = .ok schema ↔ schema.MadeOf documents :=
  bind_eq_ok

namespace Draft

def add (draft : Draft) (entry : Filed) : Except Fault Draft :=
  draft.addDefinition entry.1 entry.2

def mapExtensions (change : List (Option String × Sdl.TypeExtension) →
    List (Option String × Sdl.TypeExtension)) (draft : Draft) : Draft :=
  { draft with extensions := change draft.extensions }

/-- The draft with more extensions waiting. -/
def queue (draft : Draft) (more : List (Option String × Sdl.TypeExtension)) : Draft :=
  draft.mapExtensions (· ++ more)

theorem queue_nil (draft : Draft) : draft.queue [] = draft := by
  rw [queue, mapExtensions, List.append_nil]

theorem queue_queue (draft : Draft) (first second : List (Option String × Sdl.TypeExtension)) :
    (draft.queue first).queue second = draft.queue (first ++ second) := by
  simp only [queue, mapExtensions, List.append_assoc]

theorem addDocuments_eq (draft : Draft) (documents : List (Option String × Sdl.Document)) :
    documents.foldlM (fun draft (file?, document) => draft.addDocument file? document) draft =
      (filed documents).foldlM add draft := by
  induction documents generalizing draft with
  | nil => rfl
  | cons first rest ih =>
      rw [filed_cons, List.foldlM_append, List.foldlM_map, List.foldlM_cons]
      exact bind_congr ih

theorem addRoots_convert (convert : Draft → Draft)
    (kept : ∀ draft, (convert draft).roots = draft.roots)
    (noted : ∀ draft roots, convert { draft with roots } = { convert draft with roots })
    (draft : Draft) (file? : Option String) (named : Sdl.Roots) :
    (convert draft).addRoots file? named = (draft.addRoots file? named).map convert := by
  refine foldlM_convert (fun operation _ draft => ?_) draft
  rw [addRoot, addRoot, kept]
  cases named.get? operation with
  | none => rfl
  | some typeName =>
      cases draft.roots.get? operation with
      | none => exact congrArg Except.ok (noted _ _).symm
      | some first => rfl

theorem add_mapExtensions {entry : Filed} (plain : extension? entry = none)
    (change : List (Option String × Sdl.TypeExtension) →
      List (Option String × Sdl.TypeExtension)) (draft : Draft) :
    (draft.mapExtensions change).add entry = (draft.add entry).map (·.mapExtensions change) := by
  obtain ⟨file?, definition⟩ := entry
  cases definition with
  | extension extension => cases plain
  | directive => rfl
  | roots named =>
      exact addRoots_convert (·.mapExtensions change) (fun _ => rfl) (fun _ _ => rfl) draft file?
        named
  | type definition =>
      change addType _ file? definition = (addType _ file? definition).map _
      rw [addType, addType]
      cases NamedType.ofDefinition file? definition with
      | error fault => rfl
      | ok type =>
          dsimp only [mapExtensions, bind, Except.bind]
          cases draft.types.get? type.name <;> rfl

theorem extensions_add {entry : Filed} (plain : extension? entry = none) {before after : Draft}
    (added : before.add entry = .ok after) : after.extensions = before.extensions := by
  have kept : before.add entry =
      (before.add entry).map (·.mapExtensions fun _ => before.extensions) :=
    add_mapExtensions plain (fun _ => before.extensions) before
  rw [added] at kept
  have same : after = after.mapExtensions fun _ => before.extensions := Except.ok.inj kept
  rw [same, mapExtensions]

theorem foldlM_add_queue {entries : List Filed}
    (plain : ∀ entry ∈ entries, extension? entry = none) (draft : Draft)
    (more : List (Option String × Sdl.TypeExtension)) :
    entries.foldlM add (draft.queue more) = (entries.foldlM add draft).map (·.queue more) :=
  foldlM_convert (fun entry member => add_mapExtensions (plain entry member) (· ++ more)) draft

theorem extensions_foldlM_add {entries : List Filed}
    (plain : ∀ entry ∈ entries, extension? entry = none) {before after : Draft}
    (added : entries.foldlM add before = .ok after) : after.extensions = before.extensions :=
  foldlM_invariant (fun draft => draft.extensions = before.extensions)
    (fun entry member _ _ same added => (extensions_add (plain entry member) added).trans same)
    rfl added

theorem add_extension {entry : Filed} {source : Option String × Sdl.TypeExtension}
    (waits : extension? entry = some source) (draft : Draft) :
    draft.add entry = .ok (draft.queue [source]) := by
  obtain ⟨file?, definition⟩ := entry
  cases definition with
  | extension extension =>
      cases waits
      rfl
  | roots _ | type _ | directive => cases waits

/-- Definitions are read as if there were no extensions, which are all waiting in the end. -/
theorem foldlM_add_eq (entries : List Filed) (draft : Draft) :
    entries.foldlM add draft =
      ((definitionsAmong entries).foldlM add draft).map (·.queue (extensionsAmong entries)) := by
  induction entries generalizing draft with
  | nil => exact congrArg Except.ok draft.queue_nil.symm
  | cons entry rest ih =>
      rw [List.foldlM_cons]
      cases waits : extension? entry with
      | none =>
          have defines : definitionsAmong (entry :: rest) = entry :: definitionsAmong rest :=
            List.filter_cons_of_pos (by rw [waits, Option.isNone_none])
          rw [defines, extensionsAmong, List.filterMap_cons_none waits, List.foldlM_cons]
          cases draft.add entry with
          | error fault => rfl
          | ok next => exact ih next
      | some source =>
          have others : definitionsAmong (entry :: rest) = definitionsAmong rest :=
            List.filter_cons_of_neg (by simp [waits])
          rw [others, extensionsAmong, List.filterMap_cons_some waits, add_extension waits]
          refine (ih _).trans ?_
          rw [foldlM_add_queue (extension?_definitionsAmong rest)]
          cases (definitionsAmong rest).foldlM add draft with
          | error fault => rfl
          | ok next => exact congrArg Except.ok (next.queue_queue [source] _)

theorem extensions_ofDocuments {documents : List (Option String × Sdl.Document)} {draft : Draft}
    (collected : ofDocuments documents = .ok draft) :
    draft.extensions = extensionsAmong (filed documents) := by
  rw [ofDocuments, addDocuments_eq, foldlM_add_eq] at collected
  obtain ⟨defined, read, rfl⟩ := map_eq_ok.mp collected
  have none := extensions_foldlM_add (extension?_definitionsAmong _) read
  rw [queue, mapExtensions, none]
  rfl

end Draft

theorem ofDocuments_eq (documents : List (Option String × Sdl.Document)) :
    ofDocuments documents =
      (definitionsAmong (filed documents)).foldlM Draft.add .empty >>= fun draft =>
        ofDraft (draft.queue (extensionsAmong (filed documents))) := by
  rw [ofDocuments, Draft.ofDocuments, Draft.addDocuments_eq, Draft.foldlM_add_eq]
  cases (definitionsAmong (filed documents)).foldlM Draft.add .empty <;> rfl

variable {documents others : List (Option String × Sdl.Document)}

theorem ofDocuments_congr
    (definitions : definitionsAmong (filed documents) = definitionsAmong (filed others))
    (extensions : extensionsAmong (filed documents) = extensionsAmong (filed others)) :
    ofDocuments documents = ofDocuments others := by
  rw [ofDocuments_eq, ofDocuments_eq, definitions, extensions]

theorem ofDocuments_move {before between after : List Filed} {entry : Filed}
    (waits : (extension? entry).isSome = true) (passed : extensionsAmong between = [])
    (sooner : filed documents = before ++ entry :: between ++ after)
    (later : filed others = before ++ between ++ entry :: after) :
    ofDocuments documents = ofDocuments others := by
  obtain ⟨source, waits⟩ := Option.isSome_iff_exists.mp waits
  apply ofDocuments_congr
  · rw [sooner, later]
    simp [definitionsAmong, waits]
  · rw [sooner, later]
    simp only [extensionsAmong] at passed
    simp [extensionsAmong, waits, passed]

/-- What documents make, or the fault that stops them, depends on their definitions and on their
extensions, each in their order. Extensions may move before or after other definitions, and the
definitions of a file may be divided into documents in any way. -/
theorem ofDocuments_rearranged :
    (∀ documents others, definitionsAmong (filed documents) = definitionsAmong (filed others) →
      extensionsAmong (filed documents) = extensionsAmong (filed others) →
      ofDocuments documents = ofDocuments others) ∧
    (∀ documents others before between after entry, (extension? entry).isSome = true →
      extensionsAmong between = [] → filed documents = before ++ entry :: between ++ after →
      filed others = before ++ between ++ entry :: after →
      ofDocuments documents = ofDocuments others) ∧
    ∀ before after (file? : Option String) (parts : List Sdl.Document),
      ofDocuments (before ++ (file?, parts.flatten) :: after) =
        ofDocuments (before ++ parts.map (file?, ·) ++ after) := by
  refine ⟨fun _ _ => ofDocuments_congr, fun _ _ _ _ _ _ => ofDocuments_move, ?_⟩
  intro before after file? parts
  have same : filed (before ++ (file?, parts.flatten) :: after) =
      filed (before ++ parts.map (file?, ·) ++ after) := by
    rw [filed_append, filed_append, filed_append, filed_cons, List.append_assoc]
    simp [filed, List.map_flatten, List.flatMap_def, Function.comp_def]
  exact ofDocuments_congr (congrArg definitionsAmong same) (congrArg extensionsAmong same)

theorem ofDocuments_kennel : ofDocuments kennelDocuments = .ok kennel :=
  ofDocuments_eq_ok.mpr
    ⟨kennelDraft, eq_ok_of_isSome isSome_kennelDraft, eq_ok_of_isSome isSome_kennel⟩

def scattered (entries : List Filed) : List (Option String × Sdl.Document) :=
  entries.map fun (file?, definition) => (file?, [definition])

def hastyKennelDocuments : List (Option String × Sdl.Document) :=
  let entries := filed kennelDocuments
  scattered (entries.filter (fun entry => (extension? entry).isSome) ++ definitionsAmong entries)

def lateKennelDocuments : List (Option String × Sdl.Document) :=
  let entries := filed kennelDocuments
  scattered (entries.eraseIdx 5 ++ entries[5]?.toList)

theorem ofDocuments_rearranged_of_kennel :
    definitionsAmong (filed kennelDocuments) = definitionsAmong (filed hastyKennelDocuments) ∧
      extensionsAmong (filed kennelDocuments) = extensionsAmong (filed hastyKennelDocuments) ∧
      ofDocuments hastyKennelDocuments = .ok kennel ∧
      (∃ before between after entry, (extension? entry).isSome = true ∧
        between ≠ [] ∧ extensionsAmong between = [] ∧
        filed kennelDocuments = before ++ entry :: between ++ after ∧
        filed lateKennelDocuments = before ++ between ++ entry :: after) ∧
      ofDocuments lateKennelDocuments = .ok kennel := by
  obtain ⟨congruent, moves, _⟩ := ofDocuments_rearranged
  have definitions :
      definitionsAmong (filed kennelDocuments) = definitionsAmong (filed hastyKennelDocuments) :=
    rfl
  have extensions :
      extensionsAmong (filed kennelDocuments) = extensionsAmong (filed hastyKennelDocuments) :=
    rfl
  have waits : (extension? (filed kennelDocuments)[5]).isSome = true := rfl
  have passed : extensionsAmong ((filed kennelDocuments).drop 6) = [] := rfl
  have sooner : filed kennelDocuments = (filed kennelDocuments).take 5 ++
      (filed kennelDocuments)[5] :: (filed kennelDocuments).drop 6 ++ [] := rfl
  have later : filed lateKennelDocuments = (filed kennelDocuments).take 5 ++
      (filed kennelDocuments).drop 6 ++ (filed kennelDocuments)[5] :: [] := rfl
  refine ⟨definitions, extensions, ?_, ⟨_, _, _, _, waits, ?_, passed, sooner, later⟩, ?_⟩
  · rw [← congruent _ _ definitions extensions, ofDocuments_kennel]
  · exact List.cons_ne_nil _ _
  · rw [← moves _ _ _ _ _ _ waits passed sooner later, ofDocuments_kennel]

end FieldLookahead.Schema
