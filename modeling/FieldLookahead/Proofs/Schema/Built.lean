import FieldLookahead.Proofs.Outcome
import FieldLookahead.Schema.Basic

namespace FieldLookahead.Schema

/-! Schemas that are built from documents. What holds of the types that list nothing yet, and is
kept when a type grows, holds of all their types. -/

def Draft.ofDocuments (documents : List (Option String × Sdl.Document)) : Except Fault Draft :=
  documents.foldlM (fun draft (file?, document) => draft.addDocument file? document) .empty

def Built (schema : Schema) : Prop :=
  ∃ documents draft, Draft.ofDocuments documents = .ok draft ∧ ofDraft draft = .ok schema

/-- The schema is what some documents make. -/
def MadeOf (schema : Schema) (documents : List (Option String × Sdl.Document)) : Prop :=
  ∃ draft, Draft.ofDocuments documents = .ok draft ∧ ofDraft draft = .ok schema

theorem ofDraft_eq_ok {draft : Draft} {schema : Schema} :
    ofDraft draft = .ok schema ↔
      draft.extensions.foldlM TypeTable.extend draft.types = .ok schema.types ∧
      schema.types.root? draft.roots .query = .ok (some schema.query) ∧
      schema.types.root? draft.roots .mutation = .ok schema.mutation? ∧
      schema.types.root? draft.roots .subscription = .ok schema.subscription? := by
  rw [ofDraft, bind_eq_ok]
  constructor
  · rintro ⟨types, extended, made⟩
    obtain ⟨query?, query, made⟩ := bind_eq_ok.mp made
    cases query? with
    | none => cases made
    | some root =>
        obtain ⟨mutation?, mutation, made⟩ := bind_eq_ok.mp made
        obtain ⟨subscription?, subscription, made⟩ := bind_eq_ok.mp made
        split at made
        · cases made
          exact ⟨extended, query, mutation, subscription⟩
        · cases made
  · rintro ⟨extended, query, mutation, subscription⟩
    refine ⟨schema.types, extended, bind_eq_ok.mpr ⟨_, query, ?_⟩⟩
    refine bind_eq_ok.mpr ⟨_, mutation, bind_eq_ok.mpr ⟨_, subscription, ?_⟩⟩
    rw [dif_pos schema.resolved]
    simp only [← schema.implementations_eq]

theorem TypeTable.extend_eq_ok {source : Option String × Sdl.TypeExtension}
    {before after : TypeTable} :
    before.extend source = .ok after ↔
      ∃ type grown, before.get? source.2.name = some type ∧
        NamedType.grow source.1 ⟨source.1, source.2.position⟩ source.2.body type = .ok grown ∧
        before.insert grown = after := by
  rw [TypeTable.extend]
  cases before.get? source.2.name with
  | none => simp
  | some type => simp [map_eq_ok]

/-- A property that the table of built-in types has, and that a table keeps when a definition is
filed under a new name or a type that is there grows. -/
structure KeptByBuilding (Holds : TypeTable → Prop) : Prop where
  builtins : Holds .builtins
  files : ∀ {table : TypeTable} {type file? definition}, Holds table →
    table.get? type.name = none → NamedType.ofDefinition file? definition = .ok type →
    Holds (table.insert type)
  grows : ∀ {table : TypeTable} {file? location name body before after}, Holds table →
    table.get? name = some before → NamedType.grow file? location body before = .ok after →
    Holds (table.insert after)

theorem Draft.addRoots_types {before after : Draft} {file? : Option String} {named : Sdl.Roots}
    (added : before.addRoots file? named = .ok after) : after.types = before.types := by
  refine foldlM_invariant (fun draft => draft.types = before.types) ?_ rfl added
  intro operation _ draft next same noted
  rw [addRoot] at noted
  split at noted
  · cases noted
    exact same
  · split at noted
    · cases noted
    · cases noted
      exact same

theorem Draft.addType_eq_ok {before after : Draft} {file? : Option String}
    {definition : Sdl.TypeDefinition} :
    before.addType file? definition = .ok after ↔
      ∃ type, NamedType.ofDefinition file? definition = .ok type ∧
        before.types.get? type.name = none ∧
        after = { before with types := before.types.insert type } := by
  rw [addType, bind_eq_ok]
  refine exists_congr fun type => and_congr_right fun _ => ?_
  cases before.types.get? type.name <;> simp [eq_comm]

namespace KeptByBuilding

variable {Holds : TypeTable → Prop}

theorem addDefinition (kept : KeptByBuilding Holds) {file? : Option String} {before after : Draft}
    {definition : Sdl.Definition} (holds : Holds before.types)
    (added : Draft.addDefinition file? before definition = .ok after) : Holds after.types := by
  cases definition with
  | roots named => rwa [Draft.addRoots_types added]
  | type definition =>
      obtain ⟨type, made, fresh, rfl⟩ := Draft.addType_eq_ok.mp added
      exact kept.files holds fresh made
  | extension extension =>
      cases added
      exact holds
  | directive =>
      cases added
      exact holds

theorem ofDocuments (kept : KeptByBuilding Holds)
    {documents : List (Option String × Sdl.Document)} {draft : Draft}
    (made : Draft.ofDocuments documents = .ok draft) : Holds draft.types := by
  refine foldlM_invariant (fun draft => Holds draft.types) ?_ kept.builtins made
  intro (file?, document) _ before after holds added
  exact foldlM_invariant (fun draft => Holds draft.types)
    (fun _ _ _ _ holds added => kept.addDefinition holds added) holds added

theorem ofBuilt (kept : KeptByBuilding Holds) {schema : Schema} (built : schema.Built) :
    Holds schema.types := by
  obtain ⟨documents, draft, collected, made⟩ := built
  refine foldlM_invariant Holds ?_ (kept.ofDocuments collected) (ofDraft_eq_ok.mp made).1
  intro source _ before after holds extended
  obtain ⟨type, grown, found, grows, rfl⟩ := TypeTable.extend_eq_ok.mp extended
  exact kept.grows holds found grows

end KeptByBuilding

def TypeTable.All (Holds : NamedType → Prop) (table : TypeTable) : Prop :=
  ∀ entry ∈ table.byName.entries, Holds entry.2

/-- A property that types have when they list nothing, and keep when they grow. -/
structure KeptByGrowth (Holds : NamedType → Prop) : Prop where
  builtin : ∀ which, Holds (.builtin which)
  blank : ∀ heading body, Holds (.blank heading body)
  grows : ∀ {file? location body before after}, Holds before →
    NamedType.grow file? location body before = .ok after → Holds after

namespace KeptByGrowth

variable {Holds : NamedType → Prop}

theorem insert {table : TypeTable} (all : table.All Holds) {type : NamedType}
    (holds : Holds type) : (table.insert type).All Holds := by
  intro entry member
  rcases Assoc.mem_insert member with rfl | member
  · exact holds
  · exact all entry member

theorem ofBuilt (kept : KeptByGrowth Holds) {schema : Schema} (built : schema.Built) :
    schema.types.All Holds := by
  have keptByAll : KeptByBuilding (TypeTable.All Holds) := by
    refine ⟨?_, fun all _ made => ?_, fun all found grows => ?_⟩
    · have none : TypeTable.empty.All Holds := fun _ member => nomatch member
      exact List.foldlRecOn Builtin.all _ none fun table all which _ =>
        insert all (kept.builtin which)
    · exact insert all (kept.grows (kept.blank _ _) made)
    · exact insert all (kept.grows (all _ (OrderedMap.get?_eq_some.mp found)) grows)
  exact keptByAll.ofBuilt built

end KeptByGrowth

def NamedType.members : NamedType → List String
  | union _ members => members
  | _ => []

theorem NamedType.members_blank (heading : Heading) (body : Sdl.TypeBody) :
    (blank heading body).members = [] := by
  cases body <;> rfl

theorem NamedType.nodup_members_grow {file? : Option String} {location : Syntax.Location}
    {body : Sdl.TypeBody} {before after : NamedType} (distinct : before.members.Nodup)
    (grown : grow file? location body before = .ok after) : after.members.Nodup := by
  rw [grow.eq_def] at grown
  split at grown
  · cases grown
    exact List.nodup_nil
  · obtain ⟨_, _, rfl⟩ := map_eq_ok.mp grown
    exact List.nodup_nil
  · obtain ⟨_, _, rfl⟩ := map_eq_ok.mp grown
    exact List.nodup_nil
  · obtain ⟨members, added, rfl⟩ := map_eq_ok.mp grown
    refine foldlM_invariant List.Nodup ?_ distinct added
    intro member _ known larger distinct added
    rw [addMember] at added
    split at added
    · cases added
    · next absent =>
      cases added
      refine List.nodup_append.mpr ⟨distinct, by simp, ?_⟩
      intro other inside again same equal
      rw [List.mem_singleton.mp same] at equal
      exact absent (equal ▸ inside)
  · obtain ⟨_, _, rfl⟩ := map_eq_ok.mp grown
    exact List.nodup_nil
  · cases grown
    exact List.nodup_nil
  · cases grown

theorem Built.nodup_members {schema : Schema} (built : schema.Built) {name : String}
    {type : NamedType} (found : schema.get? name = some type) : type.members.Nodup := by
  have kept : KeptByGrowth (·.members.Nodup) :=
    ⟨fun _ => List.nodup_nil,
      fun heading body => (NamedType.members_blank heading body).symm ▸ List.nodup_nil,
      NamedType.nodup_members_grow⟩
  exact kept.ofBuilt built _ (OrderedMap.get?_eq_some.mp found)

end FieldLookahead.Schema
