import FieldLookahead.Proofs.Fragment.Documents
import FieldLookahead.Proofs.Plan.Inlining

namespace FieldLookahead

/-! A plan depends on one operation of its document and on the fragments that it reaches. -/

/-- A document has one operation of a name, or, if none is named, one operation at all. -/
inductive Query.Document.Selects (document : Document) : Option String → Operation → Prop
  | named {name : String} {operation : Operation}
      (unique : (document.operations.filter fun other => other.name? = some name) = [operation]) :
      Selects document (some name) operation
  | alone {operation : Operation} (only : document.operations = [operation]) :
      Selects document none operation

namespace Plan

open Fragment (Table)

theorem chooseOperation_of_selects {document : Query.Document} {name? : Option String}
    {operation : Query.Operation} (selects : document.Selects name? operation) :
    chooseOperation document name? = .ok operation := by
  rw [chooseOperation.eq_def]
  cases selects with
  | alone only => rw [only]
  | @named name _ unique =>
      have found : (document.operations.find? fun other => other.name? = some name) =
          some operation := by
        rw [← List.head?_filter, unique, List.head?_cons]
      cases operations : document.operations with
      | nil =>
          rw [operations] at found
          cases found
      | cons first rest =>
          rw [operations] at found
          simp only [found]

/-- Plans that differ at most in the fragments that they have at hand. -/
structure Coincide (plan other : Plan) : Prop where
  operation : other.operation = plan.operation
  root : other.root = plan.root
  visits : other.visits = plan.visits
  entries : other.entries = plan.entries

/-- Documents that select the same operation and define the fragments that it reaches alike have
the same plan or the same fault; and documents that hold the same definitions in whatever order
make a table of fragments together or not at all. -/
theorem ofDocument_local (schema : Schema) {document other : Query.Document}
    {name? otherName? : Option String} {operation : Query.Operation} {table otherTable : Table}
    (selects : document.Selects name? operation) (otherSelects : other.Selects otherName? operation)
    (built : Table.ofDocument document = .ok table)
    (otherBuilt : Table.ofDocument other = .ok otherTable)
    (agree : ∀ name, Query.Reaches document.fragment? operation.selections name →
      other.fragment? name = document.fragment? name) :
    Alike Coincide (ofDocument schema document name?) (ofDocument schema other otherName?) ∧
      ∀ definitions rearranged : Query.Document, definitions.Perm rearranged →
        ((∃ table, Table.ofDocument definitions = .ok table) ↔
          ∃ table, Table.ofDocument rearranged = .ok table) := by
  refine ⟨?_, fun _ _ => Table.ofDocument_perm⟩
  have unfolded : otherTable.unfold operation.selections = table.unfold operation.selections := by
    refine Table.unfold_congr fun name reaches => ?_
    rw [Table.get?_of_ofDocument built] at reaches ⊢
    rw [Table.get?_of_ofDocument otherBuilt]
    exact agree name reaches
  rw [ofDocument_eq schema (chooseOperation_of_selects selects) built,
    ofDocument_eq schema (chooseOperation_of_selects otherSelects) otherBuilt, unfolded]
  cases schema.root? operation.kind with
  | none => exact .error
  | some root => exact Alike.bind_same fun visits _ => .ok ⟨rfl, rfl, rfl, rfl⟩

def namedOperation : Query.Operation := { friendlyOperation with name? := some "Friends" }

def friendlyFragment : Query.Fragment :=
  ⟨"friendly", "Dog", ⟨1, 1⟩,
    [.field ⟨none, "friend", ⟨1, 1⟩⟩ [.field ⟨none, "name", ⟨1, 1⟩⟩ []]]⟩

def plainDocument : Query.Document := [.operation namedOperation, .fragment friendlyFragment]

def crowdedDocument : Query.Document :=
  [.fragment ⟨"stray", "Cat", ⟨1, 1⟩, [.spread "friendly" ⟨1, 1⟩]⟩,
    .operation ⟨.query, some "Strays", [.field ⟨none, "pet", ⟨1, 1⟩⟩ [.spread "stray" ⟨1, 1⟩]]⟩,
    .fragment friendlyFragment, .operation namedOperation]

theorem isSome_crowdedTable : (Table.ofDocument crowdedDocument).toOption.isSome = true := by
  decide

def crowdedTable : Table := (Table.ofDocument crowdedDocument).toOption.get isSome_crowdedTable

theorem eq_friendly_of_reaches {name : String}
    (reaches : Query.Reaches plainDocument.fragment? namedOperation.selections name) :
    name = "friendly" := by
  induction reaches with
  | spread stands =>
      have member := Query.mem_spreadsOfAll_iff.mpr ⟨_, stands⟩
      have spreads : Query.spreadsOfAll namedOperation.selections =
          [("friendly", ⟨1, 1⟩), ("friendly", ⟨2, 1⟩)] := rfl
      rw [spreads] at member
      simp only [List.mem_cons, Prod.mk.injEq, List.not_mem_nil, or_false] at member
      exact member.elim And.left And.left
  | through _ found stands ih =>
      subst ih
      cases found
      exact nomatch Query.mem_spreadsOfAll_iff.mpr ⟨_, stands⟩

theorem ofDocument_local_of_pets :
    plainDocument.Selects none namedOperation ∧
      crowdedDocument.Selects (some "Friends") namedOperation ∧
      Table.ofDocument plainDocument = .ok .friendly ∧
      Table.ofDocument crowdedDocument = .ok crowdedTable ∧
      (∀ name, Query.Reaches plainDocument.fragment? namedOperation.selections name →
        crowdedDocument.fragment? name = plainDocument.fragment? name) ∧
      (ofDocument .pets plainDocument none).toOption.isSome = true ∧
      Alike Coincide (ofDocument .pets plainDocument none)
        (ofDocument .pets crowdedDocument (some "Friends")) ∧
      crowdedDocument.Perm crowdedDocument.reverse ∧
      ((∃ table, Table.ofDocument crowdedDocument = .ok table) ↔
        ∃ table, Table.ofDocument crowdedDocument.reverse = .ok table) := by
  have selects : plainDocument.Selects none namedOperation := .alone rfl
  have otherSelects : crowdedDocument.Selects (some "Friends") namedOperation := .named rfl
  have built : Table.ofDocument plainDocument = .ok .friendly := rfl
  have otherBuilt : Table.ofDocument crowdedDocument = .ok crowdedTable :=
    eq_ok_of_isSome isSome_crowdedTable
  have agree : ∀ name, Query.Reaches plainDocument.fragment? namedOperation.selections name →
      crowdedDocument.fragment? name = plainDocument.fragment? name := by
    intro name reaches
    cases eq_friendly_of_reaches reaches
    rfl
  obtain ⟨alike, rearranged⟩ :=
    ofDocument_local .pets selects otherSelects built otherBuilt agree
  have perm := (List.reverse_perm crowdedDocument).symm
  exact ⟨selects, otherSelects, built, otherBuilt, agree, by decide +kernel, alike, perm,
    rearranged _ _ perm⟩

end Plan
end FieldLookahead
