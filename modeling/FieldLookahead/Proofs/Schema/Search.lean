import FieldLookahead.Proofs.Schema.Definitions
import FieldLookahead.Proofs.Schema.PossibleTypes
import Mathlib.Data.List.Chain
import Mathlib.Data.List.Perm.Subperm
import Mathlib.Logic.Relation

namespace FieldLookahead.Schema

/-! Two ways to tell whether an object type implements an interface: the list of implementers,
and a depth-first search without a memory of what it met, which ends unless it runs round a
cycle. Where the search ends, the two agree. -/

namespace TypeTable

/-- The search without a limit to its depth: what it answers if it ends. -/
inductive Finds (next : String → List String) (target : String) : List String → Bool → Prop
  | none : Finds next target [] false
  | here {rest : List String} : Finds next target (target :: rest) true
  | above {name : String} {rest : List String} (other : name ≠ target)
      (found : Finds next target (next name) true) : Finds next target (name :: rest) true
  | past {name : String} {rest : List String} {answer : Bool} (other : name ≠ target)
      (missed : Finds next target (next name) false) (found : Finds next target rest answer) :
      Finds next target (name :: rest) answer

def Declares (table : TypeTable) (lower upper : String) : Prop :=
  upper ∈ table.superInterfaces lower

def Acyclic (table : TypeTable) : Prop :=
  ∀ name, ¬ Relation.TransGen table.Declares name name

section Search

variable {next : String → List String} {target name : String} {names rest : List String}
  {answer : Bool} {depth more : Nat}

theorem Finds.eq_true_iff (finds : Finds next target names answer) :
    answer = true ↔
      ∃ name ∈ names,
        Relation.ReflTransGen (fun lower upper => upper ∈ next lower) name target := by
  induction finds with
  | none => simp
  | here => exact iff_of_true rfl ⟨target, List.mem_cons_self, .refl⟩
  | above _ _ ih =>
      obtain ⟨upper, member, leads⟩ := ih.mp rfl
      exact iff_of_true rfl ⟨_, List.mem_cons_self, .head member leads⟩
  | past other _ _ missed ih =>
      rw [ih, List.exists_mem_cons_iff, or_iff_right]
      intro leads
      rcases leads.cases_head with same | ⟨upper, member, leads⟩
      · exact other same
      · exact absurd (missed.mpr ⟨upper, member, leads⟩) Bool.false_ne_true

theorem search?_cons (next : String → List String) (target : String) (depth : Nat) (name : String)
    (rest : List String) :
    search? next target (depth + 1) (name :: rest) =
      if name = target then some true
      else match search? next target depth (next name) with
        | none => none
        | some true => some true
        | some false => search? next target (depth + 1) rest := by
  rw [search?, anyAnswers?]
  by_cases same : name = target
  · rw [if_pos same, if_pos same]
  · rw [if_neg same, if_neg same]
    rfl

theorem finds_of_search? (found : search? next target depth names = some answer) :
    Finds next target names answer := by
  induction depth generalizing names answer with
  | zero => cases found
  | succ depth deeper =>
      induction names with
      | nil =>
          cases found
          exact .none
      | cons name rest ih =>
          rw [search?_cons] at found
          split at found
          · next same =>
            cases found
            exact same ▸ .here
          · next other =>
            split at found
            · cases found
            · next above =>
              cases found
              exact .above other (deeper above)
            · next above => exact .past other (deeper above) (ih found)

theorem search?_mono (found : search? next target depth names = some answer)
    (deep : depth ≤ more) : search? next target more names = some answer := by
  induction depth generalizing names answer more with
  | zero => cases found
  | succ depth deeper =>
      obtain ⟨more, rfl⟩ := Nat.exists_eq_add_of_le' (Nat.zero_lt_of_lt deep)
      have deep : depth ≤ more := Nat.le_of_succ_le_succ deep
      induction names with
      | nil => exact found
      | cons name rest ih =>
          rw [search?_cons] at found ⊢
          split
          · next same => rwa [if_pos same] at found
          · next other =>
            rw [if_neg other] at found
            split at found
            · cases found
            · next above =>
              rw [deeper above deep]
              exact found
            · next above =>
              rw [deeper above deep]
              exact ih found

theorem exists_search? (finds : Finds next target names answer) :
    ∃ depth, search? next target depth names = some answer := by
  induction finds with
  | none => exact ⟨1, rfl⟩
  | here => exact ⟨1, by rw [search?_cons, if_pos rfl]⟩
  | above other _ ih =>
      obtain ⟨depth, above⟩ := ih
      exact ⟨depth + 1, by rw [search?_cons, if_neg other, above]⟩
  | past other _ _ ihAbove ihRest =>
      obtain ⟨depth, above⟩ := ihAbove
      obtain ⟨more, found⟩ := ihRest
      refine ⟨max depth more + 1, ?_⟩
      rw [search?_cons, if_neg other, search?_mono above (Nat.le_max_left _ _)]
      exact search?_mono found (Nat.le_succ_of_le (Nat.le_max_right _ _))

theorem search?_agree {other : Bool} (found : search? next target depth names = some answer)
    (again : search? next target more names = some other) : answer = other := by
  rcases Nat.le_total depth more with deep | deep
  · exact Option.some.inj ((search?_mono found deep).symm.trans again)
  · exact Option.some.inj (found.symm.trans (search?_mono again deep))

theorem exists_deeper (short : search? next target (depth + 1) names = none) :
    ∃ name ∈ names, search? next target depth (next name) = none ∧
      ∀ more, (search? next target (more + 1) names).isSome = true →
        (search? next target more (next name)).isSome = true := by
  induction names with
  | nil => cases short
  | cons name rest ih =>
      rw [search?_cons] at short
      split at short
      · cases short
      · next other =>
        split at short
        · next above =>
          refine ⟨name, List.mem_cons_self, above, fun more ends => ?_⟩
          rw [search?_cons, if_neg other] at ends
          split at ends
          · cases ends
          · next deeper => exact Option.isSome_of_eq_some deeper
          · next deeper => exact Option.isSome_of_eq_some deeper
        · cases short
        · next above =>
          obtain ⟨later, member, below, carried⟩ := ih short
          refine ⟨later, List.mem_cons_of_mem _ member, below, fun more ends => carried more ?_⟩
          rw [search?_cons, if_neg other] at ends
          split at ends
          · cases ends
          · next deeper => exact absurd (search?_agree above deeper) Bool.false_ne_true
          · exact ends

/-- A search that goes too deep goes down a chain of names as long as its limit. -/
theorem exists_chain {keys : List String} (closed : ∀ name, next name ⊆ keys)
    (inside : names ⊆ keys) (short : search? next target depth names = none) :
    ∃ chain : List String, chain.length = depth ∧ chain ⊆ keys ∧
      (∀ name ∈ chain.head?, name ∈ names) ∧
      chain.IsChain fun lower upper => upper ∈ next lower := by
  induction depth generalizing names with
  | zero => exact ⟨[], rfl, List.nil_subset _, nofun, .nil⟩
  | succ depth ih =>
      obtain ⟨name, member, below, _⟩ := exists_deeper short
      obtain ⟨chain, length, known, start, chained⟩ := ih (closed name) below
      refine ⟨name :: chain, by rw [List.length_cons, length],
        List.cons_subset.mpr ⟨inside member, known⟩, ?_, List.isChain_cons.mpr ⟨start, chained⟩⟩
      rintro _ ⟨⟩
      exact member

/-- The search comes to its end with one more level than it may go down, and not before. -/
def Exceeds (next : String → List String) (target : String) (depth : Nat)
    (names : List String) : Prop :=
  search? next target depth names = none ∧ (search? next target (depth + 1) names).isSome = true

theorem Exceeds.unique (exceeds : Exceeds next target depth names)
    (again : Exceeds next target more names) : depth = more := by
  have least : ∀ {lower upper : Nat}, Exceeds next target lower names →
      Exceeds next target upper names → upper ≤ lower := by
    intro lower upper ends short
    obtain ⟨answer, found⟩ := Option.isSome_iff_exists.mp ends.2
    refine Nat.le_of_not_lt fun deep => ?_
    exact Option.some_ne_none answer ((search?_mono found deep).symm.trans short.1)
  exact Nat.le_antisymm (least again exceeds) (least exceeds again)

theorem Exceeds.exists_path {keys : List String} (closed : ∀ name, next name ⊆ keys)
    (inside : names ⊆ keys) (exceeds : Exceeds next target depth names) :
    ∃ path, path.length = depth ∧ path ⊆ keys ∧ path.Nodup ∧
      ∀ name ∈ path, ∃ level < depth, Exceeds next target level (next name) := by
  induction depth generalizing names with
  | zero => exact ⟨[], rfl, List.nil_subset _, .nil, fun _ member => nomatch member⟩
  | succ depth ih =>
      obtain ⟨name, member, below, carried⟩ := exists_deeper exceeds.1
      have here : Exceeds next target depth (next name) := ⟨below, carried _ exceeds.2⟩
      obtain ⟨path, length, known, distinct, levels⟩ := ih (closed name) here
      refine ⟨name :: path, by rw [List.length_cons, length],
        List.cons_subset.mpr ⟨inside member, known⟩, List.nodup_cons.mpr ⟨?_, distinct⟩, ?_⟩
      · intro again
        obtain ⟨level, lower, exceeds⟩ := levels name again
        exact Nat.lt_irrefl level (here.unique exceeds ▸ lower)
      · refine List.forall_mem_cons.mpr ⟨⟨depth, Nat.lt_succ_self _, here⟩, ?_⟩
        intro other member
        obtain ⟨level, lower, exceeds⟩ := levels other member
        exact ⟨level, Nat.lt_succ_of_lt lower, exceeds⟩

theorem search?_eq_some_iff {keys : List String} (closed : ∀ name, next name ⊆ keys)
    (inside : names ⊆ keys) :
    search? next target (keys.length + 1) names = some answer ↔ Finds next target names answer := by
  refine ⟨finds_of_search?, fun finds => ?_⟩
  obtain ⟨depth, found⟩ := exists_search? finds
  induction depth with
  | zero => cases found
  | succ depth ih =>
      cases short : search? next target depth names with
      | some other => exact ih (short.trans (congrArg some (search?_agree short found)))
      | none =>
          have exceeds : Exceeds next target depth names := ⟨short, Option.isSome_of_eq_some found⟩
          obtain ⟨path, length, known, distinct, _⟩ := exceeds.exists_path closed inside
          have bounded : depth ≤ keys.length := length ▸ (distinct.subperm known).length_le
          exact search?_mono found (Nat.succ_le_succ bounded)

end Search

/-- Where no cycle leads back to a name, the search comes to its end: a chain that is longer than
the list of all names would repeat one. -/
theorem Acyclic.exists_finds {table : TypeTable} (acyclic : table.Acyclic) {keys : List String}
    (closed : ∀ name, table.superInterfaces name ⊆ keys) (target : String) {names : List String}
    (inside : names ⊆ keys) : ∃ answer, Finds table.superInterfaces target names answer := by
  cases found : search? table.superInterfaces target (keys.length + 1) names with
  | some answer => exact ⟨answer, finds_of_search? found⟩
  | none =>
      obtain ⟨chain, length, known, _, chained⟩ := exists_chain closed inside found
      have below : chain.Pairwise (Relation.TransGen table.Declares) :=
        List.isChain_iff_pairwise.mp (chained.imp fun _ _ => Relation.TransGen.single)
      have distinct : chain.Nodup := by
        refine below.imp ?_
        rintro name _ leads rfl
        exact acyclic name leads
      have bounded := (distinct.subperm known).length_le
      omega

theorem implements_iff {table : TypeTable} {object interface : String} {heading : Heading}
    {shape : Shape} (found : table.get? object = some (.object heading shape)) :
    table.Implements object interface ↔
      ∃ lower ∈ shape.interfaces, Relation.ReflTransGen table.Declares lower interface := by
  constructor
  · intro implements
    induction implements with
    | declared again member =>
        rw [found] at again
        cases again
        exact ⟨_, member, .refl⟩
    | inherited _ member ih =>
        obtain ⟨lower, declared, leads⟩ := ih
        exact ⟨lower, declared, leads.tail member⟩
  · rintro ⟨lower, member, leads⟩
    induction leads with
    | refl => exact .declared found member
    | tail _ above ih => exact .inherited ih above

end TypeTable

variable {schema : Schema}

theorem superInterfaces_subset (schema : Schema) (name : String) :
    schema.types.superInterfaces name ⊆ schema.types.byName.keys := by
  intro upper member
  rw [TypeTable.superInterfaces] at member
  cases found : schema.types.get? name with
  | none => exact absurd (found ▸ member) List.not_mem_nil
  | some type =>
      rw [found] at member
      cases type with
      | interface heading shape =>
          obtain ⟨_, _, present⟩ := exists_interface_of_declared found rfl member
          exact TypeTable.mem_keys_of_get? present
      | builtin _ | scalar _ | object _ _ | union _ _ | enum _ _ | input _ _ => cases member

theorem implementers_eq_filter_definedNames {documents : List (Option String × Sdl.Document)}
    (made : schema.MadeOf documents) (interface : String) :
    schema.implementers interface =
      (definedNames documents).filter fun object => schema.types.Implements object interface := by
  have builtins : (Builtin.all.map Builtin.name).filter
      (fun object => schema.types.Implements object interface) = [] := by
    refine List.filter_eq_nil_iff.mpr fun name member implements => ?_
    obtain ⟨builtin, _, rfl⟩ := List.mem_map.mp member
    obtain ⟨_, _, found⟩ := (of_decide_eq_true implements).exists_object
    cases (Built.get?_builtin ⟨documents, made⟩ builtin).symm.trans found
  rw [implementers_eq_filter, made.keys, List.filter_append, builtins, List.nil_append]

/-- The implementers of an interface of a schema that documents make are the object types that
lead to it through declarations, each once and in the order of their definition. To find them
out takes as many steps as the closure needs, also on cycles. A search from an object type that
comes to its end answers yes if it is an implementer and no if it is not, and without a cycle
every search comes to its end. -/
theorem implementers_agree_with_search {documents : List (Option String × Sdl.Document)}
    (made : schema.MadeOf documents) :
    (∀ interface, (schema.implementers interface).Nodup ∧
      schema.implementers interface =
        (definedNames documents).filter fun object => schema.types.Implements object interface) ∧
    (∀ interfaces, TypeTable.Gathers schema.types.superInterfaces [] interfaces
      (schema.types.closure interfaces).list) ∧
    ∀ object heading shape, schema.get? object = some (.object heading shape) → ∀ name,
      (∀ answer, schema.types.implements? shape name = some answer ↔
        TypeTable.Finds schema.types.superInterfaces name shape.interfaces answer) ∧
      (∀ answer, TypeTable.Finds schema.types.superInterfaces name shape.interfaces answer →
        (answer = true ↔ object ∈ schema.implementers name)) ∧
      (schema.types.Acyclic →
        ∃ answer, TypeTable.Finds schema.types.superInterfaces name shape.interfaces answer) := by
  refine ⟨fun interface => ⟨schema.nodup_implementers interface,
    implementers_eq_filter_definedNames made interface⟩, schema.types.closure_gathers, ?_⟩
  intro object heading shape found name
  have closed := schema.superInterfaces_subset
  have inside : shape.interfaces ⊆ schema.types.byName.keys := by
    intro interface member
    obtain ⟨_, _, present⟩ := exists_interface_of_declared found rfl member
    exact TypeTable.mem_keys_of_get? present
  refine ⟨fun answer => ?_, fun answer finds => ?_, fun acyclic => acyclic.exists_finds closed name
    inside⟩
  · have many : schema.types.types.length = schema.types.byName.keys.length := by
      rw [← TypeTable.names_types, List.length_map]
    rw [TypeTable.implements?_eq, many]
    exact TypeTable.search?_eq_some_iff closed inside
  · rw [mem_implementers_iff, TypeTable.implements_iff found]
    exact finds.eq_true_iff

/-- Two interfaces that implement each other, and object types of which one comes to implement
another interface by an extension. -/
def mailDocuments : List (Option String × Sdl.Document) :=
  let sender : Sdl.Field := ⟨"sender", .named "String", [], none, ⟨2, 3⟩⟩
  [(none,
      [.type ⟨"Query", none, ⟨1, 1⟩, .object [] [sender]⟩,
        .type ⟨"Item", none, ⟨1, 1⟩, .interface ["Parcel"] [sender]⟩,
        .type ⟨"Parcel", none, ⟨1, 1⟩, .interface ["Item"] [sender]⟩,
        .type ⟨"Insured", none, ⟨1, 1⟩, .interface [] [sender]⟩,
        .type ⟨"Letter", none, ⟨1, 1⟩, .object ["Item"] [sender]⟩,
        .type ⟨"Box", none, ⟨1, 1⟩, .object ["Parcel"] [sender]⟩,
        .extension ⟨"Box", ⟨1, 1⟩, .object ["Insured"] []⟩])]

theorem isSome_mail :
    (Draft.ofDocuments mailDocuments >>= ofDraft).toOption.isSome = true := by
  decide

def mail : Schema := (Draft.ofDocuments mailDocuments >>= ofDraft).toOption.get isSome_mail

theorem implementers_agree_with_search_of_mail :
    mail.MadeOf mailDocuments ∧ mail.implementers "Parcel" = ["Letter", "Box"] ∧
      TypeTable.Gathers mail.types.superInterfaces [] ["Item"]
        (mail.types.closure ["Item"]).list ∧
      ∃ heading shape, mail.get? "Letter" = some (.object heading shape) ∧
        TypeTable.Finds mail.types.superInterfaces "Parcel" shape.interfaces true ∧
        "Letter" ∈ mail.implementers "Parcel" ∧
        ¬ ∃ answer, TypeTable.Finds mail.types.superInterfaces "Insured" shape.interfaces
          answer := by
  have made : mail.MadeOf mailDocuments := bind_eq_ok.mp (eq_ok_of_isSome isSome_mail)
  obtain ⟨lists, gathers, searches⟩ := implementers_agree_with_search made
  have found : mail.get? "Letter" = some (.object ⟨"Letter", none, ⟨none, ⟨1, 1⟩⟩⟩
      ⟨["Item"], OrderedMap.empty.insert "sender"
        ((mail.field "Letter" "sender").toOption.get (by decide +kernel))⟩) := by
    decide +kernel
  refine ⟨made, (lists "Parcel").2.trans (by decide +kernel), gathers ["Item"], _, _, found, ?_⟩
  have finds := ((searches _ _ _ found "Parcel").1 true).mp (by decide +kernel)
  refine ⟨finds, ((searches _ _ _ found "Parcel").2.1 true finds).mp rfl, ?_⟩
  rintro ⟨answer, finds⟩
  refine absurd (((searches _ _ _ found "Insured").1 answer).mpr finds) ?_
  cases answer <;> decide +kernel

end FieldLookahead.Schema
