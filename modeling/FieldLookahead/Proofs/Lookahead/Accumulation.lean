import FieldLookahead.OrderedMap
import FieldLookahead.Proofs.Outcome
import Mathlib.Data.List.Nodup

namespace FieldLookahead.Assoc

/-! Association lists that grow entry by entry, where a value that comes again under its key is
added to the value that is there. Laws of adding values are laws of adding lists of entries. -/

variable {κ κ' α ε : Type} [DecidableEq κ]

def join (add : κ → α → α → Attempt ε α) (entry : κ × α) (present : List (κ × α)) :
    Attempt ε (List (κ × α)) :=
  match get? entry.1 present with
  | none => .done (insert entry.1 entry.2 present)
  | some old => (add entry.1 old entry.2).map (insert entry.1 · present)

/-- The values of the first list lie below those that the second has under the same keys. -/
def ContainedIn (Below : α → α → Prop) (small large : List (κ × α)) : Prop :=
  ∀ entry ∈ small, ∃ found, get? entry.1 large = some found ∧ Below entry.2 found

def Distinct (Good : α → Prop) (entries : List (κ × α)) : Prop :=
  (keys entries).Nodup ∧ ∀ entry ∈ entries, Good entry.2

theorem insert_of_get? {key : κ} {value : α} {entries : List (κ × α)}
    (found : get? key entries = some value) : insert key value entries = entries := by
  induction entries with
  | nil => cases found
  | cons entry rest ih =>
      obtain ⟨other, old⟩ := entry
      by_cases same : other = key
      · simp only [get?, same, if_true, Option.some.injEq] at found
        simp [insert, same, found]
      · simp only [get?, same, if_false] at found
        simp [insert, same, ih found]

theorem insert_of_missing {key : κ} {value : α} {entries : List (κ × α)}
    (missing : get? key entries = none) : insert key value entries = entries ++ [(key, value)] := by
  induction entries with
  | nil => rfl
  | cons entry rest ih =>
      obtain ⟨other, old⟩ := entry
      by_cases same : other = key
      · simp [get?, same] at missing
      · simp only [get?, same, if_false] at missing
        rw [insert, if_neg same, ih missing, List.cons_append]

theorem insert_map {β : Type} (convert : α → β) (key : κ) (value : α) (entries : List (κ × α)) :
    insert key (convert value) (entries.map fun entry => (entry.1, convert entry.2)) =
      (insert key value entries).map fun entry => (entry.1, convert entry.2) := by
  induction entries with
  | nil => rfl
  | cons entry rest ih =>
      rw [List.map_cons, insert, insert]
      split
      · rfl
      · rw [List.map_cons, ih]

theorem mem_keys_insert {key other : κ} {value : α} {entries : List (κ × α)} :
    other ∈ keys (insert key value entries) ↔ other ∈ keys entries ∨ other = key := by
  rw [keys_insert]
  split
  · next present =>
    constructor
    · exact .inl
    · rintro (member | rfl)
      · exact member
      · exact present
  · rw [List.mem_append, List.mem_singleton]

theorem get?_eq_some {key : κ} {value : α} {entries : List (κ × α)}
    (distinct : (keys entries).Nodup) :
    get? key entries = some value ↔ (key, value) ∈ entries :=
  ⟨mem_of_get?, get?_of_mem distinct⟩

theorem Distinct.get? {Good : α → Prop} {entries : List (κ × α)} (distinct : Distinct Good entries)
    {key : κ} {value : α} (found : get? key entries = some value) : Good value :=
  distinct.2 _ (mem_of_get? found)

theorem Distinct.insert {Good : α → Prop} {entries : List (κ × α)}
    (distinct : Distinct Good entries) (key : κ) {value : α} (good : Good value) :
    Distinct Good (insert key value entries) := by
  refine ⟨nodup_keys_insert distinct.1, ?_⟩
  intro entry member
  rcases mem_insert member with rfl | member
  · exact good
  · exact distinct.2 entry member

theorem join_eq_done {add : κ → α → α → Attempt ε α} {entry : κ × α}
    {before after : List (κ × α)} :
    join add entry before = .done after ↔
      ∃ value, after = insert entry.1 value before ∧
        (get? entry.1 before = none ∧ value = entry.2 ∨
          ∃ old, get? entry.1 before = some old ∧ add entry.1 old entry.2 = .done value) := by
  rw [join]
  cases found : get? entry.1 before with
  | none =>
      constructor
      · intro same
        cases same
        exact ⟨entry.2, rfl, .inl ⟨rfl, rfl⟩⟩
      · rintro ⟨value, rfl, ⟨_, rfl⟩ | ⟨old, impossible, _⟩⟩
        · rfl
        · cases impossible
  | some old =>
      rw [Attempt.map_eq_done]
      constructor
      · rintro ⟨value, added, rfl⟩
        exact ⟨value, rfl, .inr ⟨old, rfl, added⟩⟩
      · rintro ⟨value, rfl, ⟨impossible, _⟩ | ⟨other, same, added⟩⟩
        · cases impossible
        · cases same
          exact ⟨value, added, rfl⟩

/-- What adding a value does, in terms of an order: the sum is the least value above both. The
values that are good for the purpose lie below themselves. -/
structure Accumulates (add : κ → α → α → Attempt ε α) (Below : α → α → Prop)
    (Good : α → Prop) (value : α) : Prop where
  refl : Good value → Below value value
  good : ∀ {old new} key, Good old → Good value → add key old value = .done new → Good new
  takes : ∀ {old new} key, Good value → add key old value = .done new → Below value new
  keeps : ∀ {small old new} key,
    Below small old → add key old value = .done new → Below small new
  least : ∀ {old new large} key,
    Below old large → Below value large → add key old value = .done new → Below new large
  fixed : ∀ {old} key, Below value old → add key old value = .done old

variable {add : κ → α → α → Attempt ε α} {Below : α → α → Prop} {Good : α → Prop}

theorem join_good {entry : κ × α} {before after : List (κ × α)}
    (laws : Accumulates add Below Good entry.2) (good : Good entry.2)
    (distinct : Distinct Good before) (joined : join add entry before = .done after) :
    Distinct Good after := by
  obtain ⟨value, rfl, origin⟩ := join_eq_done.mp joined
  apply distinct.insert
  rcases origin with ⟨_, rfl⟩ | ⟨old, found, added⟩
  · exact good
  · exact laws.good _ (distinct.get? found) good added

theorem join_keeps {entry : κ × α} {small before after : List (κ × α)}
    (laws : Accumulates add Below Good entry.2) (contained : ContainedIn Below small before)
    (joined : join add entry before = .done after) : ContainedIn Below small after := by
  intro other member
  obtain ⟨found, present, below⟩ := contained other member
  obtain ⟨value, rfl, origin⟩ := join_eq_done.mp joined
  by_cases same : entry.1 = other.1
  · rw [← same] at present ⊢
    refine ⟨value, get?_insert_self _ _ _, ?_⟩
    rcases origin with ⟨absent, _⟩ | ⟨old, here, added⟩
    · rw [absent] at present
      cases present
    · rw [here] at present
      cases present
      exact laws.keeps _ below added
  · exact ⟨found, (get?_insert_of_ne same _ _).trans present, below⟩

theorem join_takes {entry : κ × α} {before after : List (κ × α)}
    (laws : Accumulates add Below Good entry.2) (good : Good entry.2)
    (joined : join add entry before = .done after) : ContainedIn Below [entry] after := by
  intro other member
  cases List.mem_singleton.mp member
  obtain ⟨value, rfl, origin⟩ := join_eq_done.mp joined
  refine ⟨value, get?_insert_self _ _ _, ?_⟩
  rcases origin with ⟨_, rfl⟩ | ⟨old, _, added⟩
  · exact laws.refl good
  · exact laws.takes _ good added

theorem join_least {entry : κ × α} {before after large : List (κ × α)}
    (laws : Accumulates add Below Good entry.2) (contained : ContainedIn Below before large)
    (also : ContainedIn Below [entry] large) (joined : join add entry before = .done after) :
    ContainedIn Below after large := by
  obtain ⟨found, present, below⟩ := also entry List.mem_cons_self
  obtain ⟨value, rfl, origin⟩ := join_eq_done.mp joined
  intro other member
  rcases mem_insert member with rfl | member
  · refine ⟨found, present, ?_⟩
    rcases origin with ⟨_, rfl⟩ | ⟨old, here, added⟩
    · exact below
    · obtain ⟨same, found', oldBelow⟩ := contained _ (mem_of_get? here)
      rw [present] at found'
      cases found'
      exact laws.least _ oldBelow below added
  · exact contained other member

theorem join_fixed {entry : κ × α} {present : List (κ × α)}
    (laws : Accumulates add Below Good entry.2) (contained : ContainedIn Below [entry] present) :
    join add entry present = .done present := by
  obtain ⟨found, here, below⟩ := contained entry List.mem_cons_self
  refine join_eq_done.mpr ⟨found, (insert_of_get? here).symm, .inr ⟨found, here, ?_⟩⟩
  exact laws.fixed _ below

theorem ContainedIn.single {small large : List (κ × α)} (contained : ContainedIn Below small large)
    {entry : κ × α} (member : entry ∈ small) : ContainedIn Below [entry] large := by
  intro other same
  cases List.mem_singleton.mp same
  exact contained entry member

theorem each_join_keeps {more small before after : List (κ × α)}
    (laws : ∀ entry ∈ more, Accumulates add Below Good entry.2)
    (contained : ContainedIn Below small before)
    (run : Attempt.each (join add) more before = .done after) : ContainedIn Below small after :=
  Attempt.each_invariant
    (fun entry member _ _ held stepped => join_keeps (laws entry member) held stepped)
    contained run

theorem mem_keys_of_each_join {more before after : List (κ × α)} {key : κ}
    (run : Attempt.each (join add) more before = .done after) :
    key ∈ keys after ↔ key ∈ keys before ∨ key ∈ keys more := by
  induction more generalizing before with
  | nil =>
      cases run
      simp [keys]
  | cons entry rest ih =>
      obtain ⟨middle, joined, others⟩ := Attempt.each_cons_eq_done.mp run
      obtain ⟨value, rfl, _⟩ := join_eq_done.mp joined
      rw [ih others, mem_keys_insert, or_assoc]
      simp [keys]

theorem each_join_takes {more before after : List (κ × α)}
    (laws : ∀ entry ∈ more, Accumulates add Below Good entry.2)
    (good : ∀ entry ∈ more, Good entry.2)
    (run : Attempt.each (join add) more before = .done after) :
    ContainedIn Below more after := by
  induction more generalizing before with
  | nil =>
      intro entry member
      cases member
  | cons first rest ih =>
      obtain ⟨middle, joined, others⟩ := Attempt.each_cons_eq_done.mp run
      have restLaws := fun entry member => laws entry (List.mem_cons_of_mem first member)
      have here := join_takes (laws first List.mem_cons_self) (good first List.mem_cons_self)
        joined
      intro entry member
      rcases List.mem_cons.mp member with rfl | member
      · exact each_join_keeps restLaws here others entry List.mem_cons_self
      · exact ih restLaws (fun other inRest => good other (List.mem_cons_of_mem _ inRest)) others
          entry member

theorem each_join_least {more before after large : List (κ × α)}
    (laws : ∀ entry ∈ more, Accumulates add Below Good entry.2)
    (contained : ContainedIn Below before large) (also : ContainedIn Below more large)
    (run : Attempt.each (join add) more before = .done after) :
    ContainedIn Below after large :=
  Attempt.each_invariant
    (fun entry member _ _ held stepped =>
      join_least (laws entry member) held (also.single member) stepped)
    contained run

theorem Accumulates.entries {more : List (κ × α)}
    (laws : ∀ entry ∈ more, Accumulates add Below Good entry.2) :
    Accumulates (fun (_ : κ') present more => Attempt.each (join add) more present)
      (ContainedIn Below) (Distinct Good) more where
  refl distinct := by
    intro entry member
    refine ⟨entry.2, get?_of_mem distinct.1 member, ?_⟩
    exact (laws entry member).refl (distinct.2 entry member)
  good _ distinct moreDistinct run :=
    Attempt.each_invariant
      (fun entry member _ _ held stepped =>
        join_good (laws entry member) (moreDistinct.2 entry member) held stepped)
      distinct run
  takes _ distinct run := each_join_takes laws distinct.2 run
  keeps _ contained run := each_join_keeps laws contained run
  least _ contained also run := each_join_least laws contained also run
  fixed _ contained :=
    Attempt.each_eq_self fun entry member =>
      join_fixed (laws entry member) (contained.single member)

theorem ContainedIn.trans {small middle large : List (κ × α)}
    (trans : ∀ entry ∈ small, ∀ between top,
      Below entry.2 between → Below between top → Below entry.2 top)
    (first : ContainedIn Below small middle) (second : ContainedIn Below middle large) :
    ContainedIn Below small large := by
  intro entry member
  obtain ⟨between, found, below⟩ := first entry member
  obtain ⟨top, foundAbove, above⟩ := second (entry.1, between) (mem_of_get? found)
  exact ⟨top, foundAbove, trans entry member between top below above⟩

/-! Properties of values that adding keeps, and under which it succeeds. -/

def All (Holds : κ → α → Prop) (entries : List (κ × α)) : Prop :=
  ∀ entry ∈ entries, Holds entry.1 entry.2

variable {Holds : κ → α → Prop}

omit [DecidableEq κ] in
theorem All.nil : All Holds [] := fun _ member => nomatch member

theorem All.insert {entries : List (κ × α)} (all : All Holds entries) {key : κ} {value : α}
    (holds : Holds key value) : All Holds (insert key value entries) := by
  intro entry member
  rcases mem_insert member with rfl | member
  · exact holds
  · exact all entry member

theorem join_all {entry : κ × α} {before after : List (κ × α)}
    (adds : ∀ old new, Holds entry.1 old → add entry.1 old entry.2 = .done new →
      Holds entry.1 new)
    (here : Holds entry.1 entry.2) (all : All Holds before)
    (joined : join add entry before = .done after) : All Holds after := by
  obtain ⟨value, rfl, origin⟩ := join_eq_done.mp joined
  apply all.insert
  rcases origin with ⟨_, rfl⟩ | ⟨old, found, added⟩
  · exact here
  · exact adds old value (all _ (mem_of_get? found)) added

theorem join_succeeds {entry : κ × α} {before : List (κ × α)}
    (adds : ∀ old, Holds entry.1 old →
      ∃ new, add entry.1 old entry.2 = .done new ∧ Holds entry.1 new)
    (here : Holds entry.1 entry.2) (all : All Holds before) :
    ∃ after, join add entry before = .done after ∧ All Holds after := by
  cases found : get? entry.1 before with
  | none =>
      refine ⟨_, join_eq_done.mpr ⟨entry.2, rfl, .inl ⟨found, rfl⟩⟩, all.insert here⟩
  | some old =>
      obtain ⟨new, added, holds⟩ := adds old (all _ (mem_of_get? found))
      refine ⟨_, join_eq_done.mpr ⟨new, rfl, .inr ⟨old, found, added⟩⟩, all.insert holds⟩

theorem each_join_all {more before after : List (κ × α)}
    (adds : ∀ entry ∈ more, ∀ old new,
      Holds entry.1 old → add entry.1 old entry.2 = .done new → Holds entry.1 new)
    (also : All Holds more) (all : All Holds before)
    (run : Attempt.each (join add) more before = .done after) : All Holds after :=
  Attempt.each_invariant
    (fun entry member _ _ held joined =>
      join_all (adds entry member) (also entry member) held joined)
    all run

theorem each_join_succeeds {more before : List (κ × α)}
    (adds : ∀ entry ∈ more, ∀ old, Holds entry.1 old →
      ∃ new, add entry.1 old entry.2 = .done new ∧ Holds entry.1 new)
    (also : All Holds more) (all : All Holds before) :
    ∃ after, Attempt.each (join add) more before = .done after ∧ All Holds after :=
  Attempt.each_succeeds
    (fun entry member _ held => join_succeeds (adds entry member) (also entry member) held) all

theorem each_join_bounded {more before large : List (κ × α)}
    (adds : ∀ entry ∈ more, ∀ old top, Below old top → Below entry.2 top →
      ∃ new, add entry.1 old entry.2 = .done new ∧ Below new top)
    (contained : ContainedIn Below before large) (also : ContainedIn Below more large) :
    ∃ after, Attempt.each (join add) more before = .done after ∧
      ContainedIn Below after large := by
  let Bounded (key : κ) (value : α) : Prop := ∃ top, get? key large = some top ∧ Below value top
  have moreBounded : All Bounded more := also
  have bounded : All Bounded before := contained
  refine each_join_succeeds ?_ moreBounded bounded
  rintro entry member old ⟨top, found, oldBelow⟩
  obtain ⟨_, again, below⟩ := also entry member
  rw [found] at again
  cases again
  obtain ⟨new, added, newBelow⟩ := adds entry member old top oldBelow below
  exact ⟨new, added, top, found, newBelow⟩

omit [DecidableEq κ] in
theorem length_keys (entries : List (κ × α)) : (keys entries).length = entries.length :=
  List.length_map _

theorem ContainedIn.keys_subset {small large : List (κ × α)}
    (contained : ContainedIn Below small large) : keys small ⊆ keys large := by
  intro key member
  obtain ⟨entry, inside, rfl⟩ := List.mem_map.mp member
  obtain ⟨found, present, _⟩ := contained entry inside
  exact (get?_isSome _ _).mp (Option.isSome_of_eq_some present)

theorem ContainedIn.length_eq {left right : List (κ × α)} (distinct : Distinct Good left)
    (alsoDistinct : Distinct Good right) (forth : ContainedIn Below left right)
    (back : ContainedIn Below right left) : left.length = right.length := by
  rw [← length_keys left, ← length_keys right]
  exact Nat.le_antisymm (distinct.1.length_le_of_subset forth.keys_subset)
    (alsoDistinct.1.length_le_of_subset back.keys_subset)

theorem ContainedIn.twin {left right : List (κ × α)} (distinct : Distinct Good left)
    (forth : ContainedIn Below left right) (back : ContainedIn Below right left)
    {entry : κ × α} (member : entry ∈ left) :
    ∃ found, get? entry.1 right = some found ∧ Below entry.2 found ∧ Below found entry.2 := by
  obtain ⟨found, present, below⟩ := forth entry member
  obtain ⟨again, same, above⟩ := back (entry.1, found) (mem_of_get? present)
  rw [get?_of_mem distinct.1 member] at same
  cases same
  exact ⟨found, present, below, above⟩

end FieldLookahead.Assoc
