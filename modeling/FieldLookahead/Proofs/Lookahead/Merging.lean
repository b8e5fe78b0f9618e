import FieldLookahead.Proofs.Fragment.Reached
import FieldLookahead.Proofs.Lookahead.Containment

namespace FieldLookahead

/-! Fields of one response key are merged. Requests that come from selections whose fields agree
on having sub-fields, at every depth, can be added to each other. -/

namespace Fragment.Unfolded

def merged (key : String) (selections : List Unfolded) : List Unfolded :=
  ((reachedAll [] selections).filter (·.node.label.key = key)).flatMap (·.node.below)

/-- Any two reached fields of one response key agree, here and in what is merged below each
key. -/
inductive Unanimous (Agree : Occurrence → Occurrence → Prop) : List Unfolded → Prop
  | intro {selections : List Unfolded}
      (here : ∀ left ∈ reachedAll [] selections, ∀ right ∈ reachedAll [] selections,
        left.node.label.key = right.node.label.key → Agree left right)
      (below : ∀ occurrence ∈ reachedAll [] selections,
        Unanimous Agree (merged occurrence.node.label.key selections)) :
      Unanimous Agree selections

variable {selections : List Unfolded} {occurrence : Occurrence}
  {Agree : Occurrence → Occurrence → Prop}

theorem mem_merged {key : String} {selection : Unfolded} :
    selection ∈ merged key selections ↔
      ∃ occurrence ∈ reachedAll [] selections, occurrence.node.label.key = key ∧
        selection ∈ occurrence.node.below := by
  simp [merged, and_assoc]

theorem below_subset_merged (reached : occurrence ∈ reachedAll [] selections) :
    occurrence.node.below ⊆ merged occurrence.node.label.key selections :=
  fun _ member => mem_merged.mpr ⟨occurrence, reached, rfl, member⟩

theorem reachedAll_subset {crossed : List String} {more : List Unfolded}
    (within : selections ⊆ more) : reachedAll crossed selections ⊆ reachedAll crossed more := by
  intro occurrence reached
  obtain ⟨selection, member, reached⟩ := mem_reachedAll.mp reached
  exact mem_reachedAll.mpr ⟨selection, within member, reached⟩

theorem Unanimous.agree (unanimous : Unanimous Agree selections) {left right : Occurrence}
    (leftReached : left ∈ reachedAll [] selections)
    (rightReached : right ∈ reachedAll [] selections)
    (same : left.node.label.key = right.node.label.key) : Agree left right := by
  cases unanimous with
  | intro here _ => exact here left leftReached right rightReached same

theorem Unanimous.merged (unanimous : Unanimous Agree selections)
    (reached : occurrence ∈ reachedAll [] selections) :
    Unanimous Agree (merged occurrence.node.label.key selections) := by
  cases unanimous with
  | intro _ below => exact below occurrence reached

theorem Unanimous.imp {Weaker : Occurrence → Occurrence → Prop}
    (weaken : ∀ left right, Agree left right → Weaker left right)
    (unanimous : Unanimous Agree selections) : Unanimous Weaker selections := by
  induction unanimous with
  | intro here _ ih =>
      refine ⟨fun left leftReached right rightReached same => ?_, ih⟩
      exact weaken left right (here left leftReached right rightReached same)

def SameShape (left right : Occurrence) : Prop :=
  left.node.below = [] ↔ right.node.below = []

theorem Unanimous.merged_eq_nil_iff (unanimous : Unanimous SameShape selections)
    (reached : occurrence ∈ reachedAll [] selections) :
    Unfolded.merged occurrence.node.label.key selections = [] ↔ occurrence.node.below = [] := by
  constructor
  · intro none
    exact List.eq_nil_of_subset_nil (none ▸ below_subset_merged reached)
  · intro bare
    rw [List.eq_nil_iff_forall_not_mem]
    intro selection member
    obtain ⟨other, otherReached, same, member⟩ := mem_merged.mp member
    rw [(unanimous.agree otherReached reached same).mpr bare] at member
    cases member

instance (left right : Occurrence) : Decidable (SameShape left right) :=
  inferInstanceAs (Decidable (left.node.below = [] ↔ right.node.below = []))

/-- Agreement at no more than a number of depths, below which nothing is selected. -/
def UnanimousTo (Agree : Occurrence → Occurrence → Prop) : Nat → List Unfolded → Prop
  | 0, selections => reachedAll [] selections = []
  | depth + 1, selections =>
    (∀ left ∈ reachedAll [] selections, ∀ right ∈ reachedAll [] selections,
      left.node.label.key = right.node.label.key → Agree left right) ∧
    ∀ occurrence ∈ reachedAll [] selections,
      UnanimousTo Agree depth (Unfolded.merged occurrence.node.label.key selections)

instance UnanimousTo.decidable [DecidableRel Agree] :
    ∀ (depth : Nat) (selections : List Unfolded), Decidable (UnanimousTo Agree depth selections)
  | 0, selections => inferInstanceAs (Decidable (reachedAll [] selections = []))
  | depth + 1, selections =>
    have := UnanimousTo.decidable depth
    inferInstanceAs (Decidable (
      (∀ left ∈ reachedAll [] selections, ∀ right ∈ reachedAll [] selections,
        left.node.label.key = right.node.label.key → Agree left right) ∧
      ∀ occurrence ∈ reachedAll [] selections,
        UnanimousTo Agree depth (Unfolded.merged occurrence.node.label.key selections)))

theorem heightOfAll_merged_le {depth : Nat} (low : heightOfAll selections ≤ depth + 1)
    (key : String) : heightOfAll (Unfolded.merged key selections) ≤ depth := by
  refine heightOfAll_le_iff.mpr fun selection member => ?_
  obtain ⟨occurrence, reached, _, member⟩ := mem_merged.mp member
  have lower := height_below_lt_of_mem_reachedAll selections reached
  exact heightOfAll_le_iff.mp (Nat.le_of_lt_succ (Nat.lt_of_lt_of_le lower low)) selection member

theorem unanimousTo_iff {depth : Nat} (low : heightOfAll selections ≤ depth) :
    UnanimousTo Agree depth selections ↔ Unanimous Agree selections := by
  induction depth generalizing selections with
  | zero =>
      have none : reachedAll [] selections = [] := by
        refine List.eq_nil_iff_forall_not_mem.mpr fun occurrence reached => ?_
        have lower := height_below_lt_of_mem_reachedAll selections reached
        omega
      exact iff_of_true none (.intro (by simp [none]) (by simp [none]))
  | succ depth ih =>
      have each : ∀ key, UnanimousTo Agree depth (Unfolded.merged key selections) ↔
          Unanimous Agree (Unfolded.merged key selections) :=
        fun key => ih (heightOfAll_merged_le low key)
      simp only [UnanimousTo, each]
      constructor
      · exact fun ⟨here, below⟩ => .intro here below
      · rintro ⟨here, below⟩
        exact ⟨here, below⟩

instance [DecidableRel Agree] (selections : List Unfolded) :
    Decidable (Unanimous Agree selections) :=
  decidable_of_iff _ (unanimousTo_iff (Nat.le_refl (heightOfAll selections)))

end Fragment.Unfolded

open Fragment (Unfolded)
open Fragment.Unfolded (merged)

/-- A request of the shape that some selections merged under one key ask for: a leaf if there are
none, and requests that fit in turn under each further key. -/
inductive Request.Fits : List Unfolded → Request → Prop
  | leaf {selections : List Unfolded} (bare : selections = []) : Fits selections .leaf
  | nested {selections : List Unfolded} {below : Lookahead} (selects : selections ≠ [])
      (inside : ∀ entry ∈ below, ∀ inner ∈ entry.2, Fits (merged inner.1 selections) inner.2) :
      Fits selections (.nested below)

def Requests.Fit (selections : List Unfolded) : Requests → Prop :=
  Assoc.All fun key request => Request.Fits (merged key selections) request

def Lookahead.Fit (selections : List Unfolded) : Lookahead → Prop :=
  Assoc.All fun _ requests => Requests.Fit selections requests

theorem Requests.absorb_fit_of {selections : List Unfolded} {present more : Requests}
    (each : ∀ entry ∈ more, ∀ old, Request.Fits (merged entry.1 selections) old →
      ∃ sum, Request.absorb entry.1 old entry.2 = .done sum ∧
        Request.Fits (merged entry.1 selections) sum)
    (old : Requests.Fit selections present) (new : Requests.Fit selections more) :
    ∃ sum, Requests.absorb present more = .done sum ∧ Requests.Fit selections sum := by
  rw [Requests.absorb_eq]
  exact Assoc.each_join_succeeds each new old

theorem Request.absorb_fits {key : String} {selections : List Unfolded} {present request : Request}
    (old : Request.Fits selections present) (new : Request.Fits selections request) :
    ∃ sum, Request.absorb key present request = .done sum ∧ Request.Fits selections sum := by
  induction request using Request.induction generalizing key selections present with
  | leaf =>
      cases new with
      | leaf bare =>
          cases old with
          | leaf _ => exact ⟨.leaf, rfl, .leaf bare⟩
          | nested selects _ => exact absurd bare selects
  | nested more ih =>
      cases new with
      | nested selects inside =>
          cases old with
          | leaf bare => exact absurd bare selects
          | @nested _ below _ here =>
              have added : ∃ sum, Lookahead.absorb below more = .done sum ∧
                  Lookahead.Fit selections sum := by
                rw [Lookahead.absorb_eq]
                refine Assoc.each_join_succeeds (fun entry member old fits => ?_) inside here
                refine Requests.absorb_fit_of (fun next nextMember _ fits => ?_) fits
                  (inside entry member)
                exact ih entry member next nextMember fits (inside entry member next nextMember)
              obtain ⟨sum, absorbed, fit⟩ := added
              refine ⟨.nested sum, ?_, .nested selects fit⟩
              rw [Request.absorb, absorbed]
              rfl

theorem Requests.absorb_fit {selections : List Unfolded} {present more : Requests}
    (old : Requests.Fit selections present) (new : Requests.Fit selections more) :
    ∃ sum, Requests.absorb present more = .done sum ∧ Requests.Fit selections sum :=
  absorb_fit_of (fun entry member _ fits => Request.absorb_fits fits (new entry member)) old new

end FieldLookahead
