import FieldLookahead.Proofs.Lookahead.Union
import Mathlib.Data.List.Perm.Subperm

namespace FieldLookahead

/-! Merging is the join of a partial semilattice. Whether it succeeds, and with what up to order,
depends only on what contains both sides. Merging in turn gives the same entries in the same
order, however it is nested. -/

namespace Assoc

variable {κ α ε : Type}

theorem sums_none_left {Adds : α → α → α → Prop} {value new : Option α} :
    Sums Adds none value new ↔ new = value := by
  constructor
  · intro sums
    cases sums <;> rfl
  · rintro rfl
    exact .right _

theorem sums_none_right {Adds : α → α → α → Prop} {old new : Option α} :
    Sums Adds old none new ↔ new = old := by
  constructor
  · exact Sums.eq_of_none
  · rintro rfl
    exact .left _

theorem sums_some {Adds : α → α → α → Prop} {old value : α} {new : Option α} :
    Sums Adds (some old) (some value) new ↔ ∃ sum, new = some sum ∧ Adds old value sum := by
  constructor
  · intro sums
    cases sums with
    | both adds => exact ⟨_, rfl, adds⟩
  · intro ⟨sum, same, adds⟩
    exact same ▸ .both adds

theorem Sums.unique {Adds : α → α → α → Prop} {old value new other : Option α}
    (functional : ∀ one two sum sum', Adds one two sum → Adds one two sum' → sum = sum')
    (sums : Sums Adds old value new) (also : Sums Adds old value other) : new = other := by
  cases sums with
  | left old => exact (sums_none_right.mp also).symm
  | right value => exact (sums_none_left.mp also).symm
  | both adds =>
      obtain ⟨sum, rfl, added⟩ := sums_some.mp also
      rw [functional _ _ _ _ adds added]

/-- A value is added last with the same result, whether to a sum or to the second summand. -/
def Associates (Good : α → Prop) (Adds : α → α → α → Prop) (last : α) : Prop :=
  ∀ first second sum, Good first → Good second →
    ((∃ both, Adds first second both ∧ Adds both last sum) ↔
      ∃ both, Adds second last both ∧ Adds first both sum)

theorem Sums.associates {Good : α → Prop} {Adds : α → α → α → Prop}
    {first second last sum : Option α}
    (laws : ∀ value, last = some value → Associates Good Adds value)
    (good : ∀ value, first = some value → Good value)
    (alsoGood : ∀ value, second = some value → Good value) :
    (∃ both, Sums Adds first second both ∧ Sums Adds both last sum) ↔
      ∃ both, Sums Adds second last both ∧ Sums Adds first both sum := by
  cases first with
  | none => simp [sums_none_left]
  | some first =>
      cases second with
      | none => simp [sums_none_left, sums_none_right]
      | some second =>
          cases last with
          | none => simp [sums_none_right]
          | some last =>
              have law := fun sum =>
                laws last rfl first second sum (good first rfl) (alsoGood second rfl)
              constructor
              · rintro ⟨_, adds, added⟩
                cases adds with
                | both adds =>
                  cases added with
                  | both added =>
                    obtain ⟨both, adds, added⟩ := (law _).mp ⟨_, adds, added⟩
                    exact ⟨some both, .both adds, .both added⟩
              · rintro ⟨_, adds, added⟩
                cases adds with
                | both adds =>
                  cases added with
                  | both added =>
                    obtain ⟨both, adds, added⟩ := (law _).mpr ⟨_, adds, added⟩
                    exact ⟨some both, .both adds, .both added⟩

theorem filter_append_filter [DecidableEq κ] (first second last : List κ) :
    (first ++ second.filter (· ∉ first)) ++
        last.filter (· ∉ first ++ second.filter (· ∉ first)) =
      first ++ (second ++ last.filter (· ∉ second)).filter (· ∉ first) := by
  rw [List.append_assoc, List.filter_append, List.filter_filter]
  congr 2
  refine List.filter_congr fun key _ => ?_
  by_cases inFirst : key ∈ first <;> simp [inFirst]

variable [DecidableEq κ]

theorem eq_of_get? {left right : List (κ × α)} (distinct : (keys left).Nodup)
    (same : keys left = keys right) (each : ∀ key, get? key left = get? key right) :
    left = right := by
  have alsoDistinct : (keys right).Nodup := same ▸ distinct
  induction left generalizing right with
  | nil => exact (List.map_eq_nil_iff.mp same.symm).symm
  | cons entry rest ih =>
      cases right with
      | nil => cases same
      | cons other others =>
          obtain ⟨key, value⟩ := entry
          obtain ⟨_, value'⟩ := other
          simp only [keys, List.map_cons, List.nodup_cons] at distinct alsoDistinct
          simp only [keys, List.map_cons, List.cons.injEq] at same
          obtain ⟨rfl, same⟩ := same
          have here : value = value' := by simpa [get?] using each key
          rw [here, ih distinct.2 same ?_ alsoDistinct.2]
          intro next
          by_cases found : key = next
          · rw [← found, get?_eq_none.mpr distinct.1, get?_eq_none.mpr alsoDistinct.1]
          · simpa [get?, found] using each next

/-- Under each key is the sum of what two lists have there. The keys of the first come before the
new ones of the second. -/
structure Totals (Adds : α → α → α → Prop) (before more after : List (κ × α)) : Prop where
  order : keys after = keys before ++ (keys more).filter (· ∉ keys before)
  sums : ∀ key, Sums Adds (get? key before) (get? key more) (get? key after)

theorem totals_iff {Adds : α → α → α → Prop} {before more after : List (κ × α)} :
    Totals Adds before more after ↔
      keys after = keys before ++ (keys more).filter (· ∉ keys before) ∧
        ∀ key, Sums Adds (get? key before) (get? key more) (get? key after) :=
  ⟨fun totals => ⟨totals.order, totals.sums⟩, fun ⟨order, sums⟩ => ⟨order, sums⟩⟩

namespace Totals

variable {Adds : α → α → α → Prop} {before more after other : List (κ × α)}

theorem nodup (totals : Totals Adds before more after) (distinct : (keys before).Nodup)
    (moreDistinct : (keys more).Nodup) : (keys after).Nodup := by
  rw [totals.order]
  refine List.nodup_append'.mpr ⟨distinct, moreDistinct.filter _, fun key old new => ?_⟩
  simp [old] at new

theorem unique
    (functional : ∀ one two sum sum', Adds one two sum → Adds one two sum' → sum = sum')
    (distinct : (keys before).Nodup) (moreDistinct : (keys more).Nodup)
    (totals : Totals Adds before more after) (also : Totals Adds before more other) :
    after = other :=
  eq_of_get? (totals.nodup distinct moreDistinct) (totals.order.trans also.order.symm)
    fun key => (totals.sums key).unique functional (also.sums key)

end Totals

section Each

variable {add : κ → α → α → Attempt ε α} {Adds : α → α → α → Prop}
  (means : ∀ key {old value new}, add key old value = .done new ↔ Adds old value new)
  {before more after first second last sum : List (κ × α)}

include means

theorem totals_of_each_join (distinct : (keys more).Nodup)
    (run : Attempt.each (join add) more before = .done after) : Totals Adds before more after where
  order := keys_each_join distinct run
  sums key := (get?_each_join distinct run key).imp fun _ _ _ => (means key).mp

theorem exists_totals (distinct : (keys more).Nodup)
    (each : ∀ key, ∃ sum, Sums Adds (get? key before) (get? key more) sum) :
    ∃ after, Attempt.each (join add) more before = .done after ∧
      Totals Adds before more after := by
  have succeeds : ∃ after, Attempt.each (join add) more before = .done after := by
    rw [Attempt.exists_done_iff, error?_each_join distinct, List.findSome?_eq_none_iff]
    intro entry member
    obtain ⟨sum, sums⟩ := each entry.1
    rw [get?_of_mem distinct member] at sums
    cases found : get? entry.1 before with
    | none => rfl
    | some old =>
        obtain ⟨new, rfl, adds⟩ := sums_some.mp (found ▸ sums)
        rw [Option.bind_some, (means entry.1).mpr adds]
        rfl
  obtain ⟨after, run⟩ := succeeds
  exact ⟨after, run, totals_of_each_join means distinct run⟩

variable (functional : ∀ one two sum sum', Adds one two sum → Adds one two sum' → sum = sum')

include functional

theorem each_join_eq_done (distinct : (keys before).Nodup) (moreDistinct : (keys more).Nodup) :
    Attempt.each (join add) more before = .done after ↔ Totals Adds before more after := by
  constructor
  · exact totals_of_each_join means moreDistinct
  · intro totals
    obtain ⟨other, run, also⟩ := exists_totals means moreDistinct fun key => ⟨_, totals.sums key⟩
    rwa [totals.unique functional distinct moreDistinct also]

theorem exists_totals_iff (Order : List κ → Prop) (Value : κ → Option α → Prop)
    (moreDistinct : (keys more).Nodup) :
    (∃ after, Totals Adds before more after ∧ Order (keys after) ∧
        ∀ key, Value key (get? key after)) ↔
      Order (keys before ++ (keys more).filter (· ∉ keys before)) ∧
        ∀ key, ∃ new, Sums Adds (get? key before) (get? key more) new ∧ Value key new := by
  constructor
  · rintro ⟨after, totals, order, values⟩
    exact ⟨totals.order ▸ order, fun key => ⟨_, totals.sums key, values key⟩⟩
  · rintro ⟨order, each⟩
    obtain ⟨after, _, totals⟩ := exists_totals means moreDistinct fun key =>
      (each key).imp fun _ sums => sums.1
    refine ⟨after, totals, totals.order ▸ order, fun key => ?_⟩
    obtain ⟨_, sums, value⟩ := each key
    exact sums.unique functional (totals.sums key) ▸ value

theorem each_join_associates {Good : α → Prop} (distinct : (keys last).Nodup)
    (laws : ∀ entry ∈ last, Associates Good Adds entry.2) :
    Associates (Distinct Good)
      (fun before more after => Attempt.each (join add) more before = .done after) last := by
  intro first second sum firstDistinct secondDistinct
  have left : (∃ both, Attempt.each (join add) second first = .done both ∧
        Attempt.each (join add) last both = .done sum) ↔
      ∃ both, Totals Adds first second both ∧
        keys sum = keys both ++ (keys last).filter (· ∉ keys both) ∧
          ∀ key, Sums Adds (get? key both) (get? key last) (get? key sum) := by
    refine exists_congr fun both => ?_
    rw [each_join_eq_done means functional firstDistinct.1 secondDistinct.1]
    refine and_congr_right fun totals => ?_
    rw [← totals_iff]
    exact each_join_eq_done means functional (totals.nodup firstDistinct.1 secondDistinct.1)
      distinct
  have right : (∃ both, Attempt.each (join add) last second = .done both ∧
        Attempt.each (join add) both first = .done sum) ↔
      ∃ both, Totals Adds second last both ∧
        keys sum = keys first ++ (keys both).filter (· ∉ keys first) ∧
          ∀ key, Sums Adds (get? key first) (get? key both) (get? key sum) := by
    refine exists_congr fun both => ?_
    rw [each_join_eq_done means functional secondDistinct.1 distinct]
    refine and_congr_right fun totals => ?_
    rw [← totals_iff]
    exact each_join_eq_done means functional firstDistinct.1
      (totals.nodup secondDistinct.1 distinct)
  rw [left, right,
    exists_totals_iff means functional
      (fun both => keys sum = both ++ (keys last).filter (· ∉ both))
      (fun key both => Sums Adds both (get? key last) (get? key sum)) secondDistinct.1,
    exists_totals_iff means functional
      (fun both => keys sum = keys first ++ both.filter (· ∉ keys first))
      (fun key both => Sums Adds (get? key first) both (get? key sum)) distinct,
    filter_append_filter]
  refine and_congr_right fun _ => forall_congr' fun key => ?_
  exact Sums.associates (fun value found => laws (key, value) (mem_of_get? found))
    (fun _ found => firstDistinct.get? found) (fun _ found => secondDistinct.get? found)

end Each
end Assoc

theorem Request.absorb_eq_done (key : String) {old value new : Request} :
    Request.absorb key old value = .done new ↔ Request.Adds old value new := by
  cases value with
  | leaf => simp [Request.Adds, Request.absorb_leaf_eq_done]
  | nested more => simp [Request.Adds, Request.absorb_nested_eq_done]

theorem Request.Adds.unique {old value new other : Request} (adds : Request.Adds old value new)
    (also : Request.Adds old value other) : new = other := by
  rw [← Request.absorb_eq_done ""] at adds also
  exact Attempt.done.inj (adds.symm.trans also)

theorem Requests.absorb_eq_done (_ : String) {old value new : Requests} :
    Requests.absorb old value = .done new ↔ Requests.Adds old value new := Iff.rfl

theorem Requests.Adds.unique {old value new other : Requests} (adds : Requests.Adds old value new)
    (also : Requests.Adds old value other) : new = other :=
  Attempt.done.inj (adds.symm.trans also)

theorem Requests.associates_of {requests : Requests} (distinct : Requests.Distinct requests)
    (laws : ∀ entry ∈ requests, Request.Distinct entry.2 →
      Assoc.Associates Request.Distinct Request.Adds entry.2) :
    Assoc.Associates Requests.Distinct Requests.Adds requests := by
  have adds : Requests.Adds = fun before more after =>
      Attempt.each (Assoc.join Request.absorb) more before = .done after := by
    funext before more after
    rw [Requests.Adds, Requests.absorb_eq]
  rw [Requests.distinct_eq] at distinct
  rw [adds, Requests.distinct_eq]
  apply Assoc.each_join_associates Request.absorb_eq_done _ distinct.1
  · exact fun entry member => laws entry member (distinct.2 entry member)
  · exact fun _ _ _ _ => Request.Adds.unique

theorem Lookahead.associates_of {lookahead : Lookahead} (distinct : Lookahead.Distinct lookahead)
    (laws : ∀ entry ∈ lookahead, ∀ inner ∈ entry.2, Request.Distinct inner.2 →
      Assoc.Associates Request.Distinct Request.Adds inner.2) :
    Assoc.Associates Lookahead.Distinct Lookahead.Adds lookahead := by
  have adds : Lookahead.Adds = fun before more after =>
      Attempt.each (Assoc.join fun _ => Requests.absorb) more before = .done after := by
    funext before more after
    rw [Lookahead.Adds, Lookahead.absorb_eq]
  rw [Lookahead.distinct_eq] at distinct
  rw [adds, Lookahead.distinct_eq]
  apply Assoc.each_join_associates Requests.absorb_eq_done _ distinct.1
  · exact fun entry member => Requests.associates_of (distinct.2 entry member) (laws entry member)
  · exact fun _ _ _ _ => Requests.Adds.unique

theorem Request.adds_leaf {old new : Request} :
    Request.Adds old .leaf new ↔ old = .leaf ∧ new = .leaf := by
  rw [← Request.absorb_eq_done "", Request.absorb_leaf_eq_done]

theorem Request.adds_nested {old new : Request} {more : Lookahead} :
    Request.Adds old (.nested more) new ↔
      ∃ below sum, old = .nested below ∧ new = .nested sum ∧ Lookahead.Adds below more sum := by
  rw [← Request.absorb_eq_done "", Request.absorb_nested_eq_done]
  rfl

theorem Request.associates_leaf : Assoc.Associates Request.Distinct Request.Adds .leaf := by
  intro first second sum _ _
  cases second with
  | leaf => simp [Request.adds_leaf, and_comm]
  | nested more => simp [Request.adds_leaf, Request.adds_nested]

theorem Request.associates_nested {last : Lookahead}
    (law : Assoc.Associates Lookahead.Distinct Lookahead.Adds last) :
    Assoc.Associates Request.Distinct Request.Adds (.nested last) := by
  intro first second sum distinct alsoDistinct
  cases second with
  | leaf => simp [Request.adds_leaf, Request.adds_nested]
  | nested more =>
      cases first with
      | leaf => simp [Request.adds_nested]
      | nested below =>
          cases sum with
          | leaf => simp [Request.adds_nested]
          | nested sum => simpa [Request.adds_nested] using law below more sum distinct alsoDistinct

theorem Request.associates {request : Request} (distinct : Request.Distinct request) :
    Assoc.Associates Request.Distinct Request.Adds request := by
  induction request using Request.induction with
  | leaf => exact Request.associates_leaf
  | nested below ih =>
      rw [Request.Distinct] at distinct
      exact Request.associates_nested (Lookahead.associates_of distinct ih)

theorem Lookahead.associates {lookahead : Lookahead} (distinct : Lookahead.Distinct lookahead) :
    Assoc.Associates Lookahead.Distinct Lookahead.Adds lookahead :=
  Lookahead.associates_of distinct fun _ _ _ _ => Request.associates

/-! What agrees contains each other. -/

theorem Assoc.ContainedIn.mutual {κ α : Type} [DecidableEq κ] {Below : α → α → Prop}
    {left right : List (κ × α)} (distinct : (keys left).Nodup) (alsoDistinct : (keys right).Nodup)
    (same : left.length = right.length)
    (contained : ContainedIn (fun one two => Below one two ∧ Below two one) left right) :
    ContainedIn Below left right ∧ ContainedIn Below right left := by
  constructor
  · intro entry member
    obtain ⟨found, present, below, _⟩ := contained entry member
    exact ⟨found, present, below⟩
  · have perm : (keys left).Perm (keys right) := by
      apply (List.subperm_of_subset distinct contained.keys_subset).perm_of_length_le
      simp [length_keys, same]
    intro entry member
    have present : entry.1 ∈ keys left := perm.mem_iff.mpr (List.mem_map_of_mem member)
    obtain ⟨found, here⟩ := Option.isSome_iff_exists.mp ((get?_isSome _ _).mpr present)
    obtain ⟨again, there, _, above⟩ := contained _ (mem_of_get? here)
    rw [get?_of_mem alsoDistinct member] at there
    cases there
    exact ⟨found, here, above⟩

theorem Request.containedIn_of_agrees {left right : Request} (distinct : Request.Distinct left)
    (alsoDistinct : Request.Distinct right) (agree : Request.agrees left right = true) :
    Request.ContainedIn left right ∧ Request.ContainedIn right left := by
  induction left using Request.induction generalizing right with
  | leaf =>
      cases right with
      | leaf => simp [Request.ContainedIn]
      | nested more => simp [Request.agrees] at agree
  | nested below ih =>
      cases right with
      | leaf => simp [Request.agrees] at agree
      | nested more =>
          rw [Request.agrees, Bool.and_eq_true, decide_eq_true_iff, Lookahead.within_iff] at agree
          rw [Request.Distinct, Lookahead.distinct_eq] at distinct alsoDistinct
          simp only [Request.containedIn_nested, Request.nested.injEq, exists_eq_left',
            Lookahead.containedIn_eq]
          refine Assoc.ContainedIn.mutual distinct.1 alsoDistinct.1 agree.1 fun entry member => ?_
          obtain ⟨found, present, same, within⟩ := agree.2 entry member
          have entryDistinct := distinct.2 entry member
          have foundDistinct := alsoDistinct.get? present
          rw [Requests.distinct_eq] at entryDistinct foundDistinct
          refine ⟨found, present, ?_⟩
          simp only [Requests.containedIn_eq]
          apply Assoc.ContainedIn.mutual entryDistinct.1 foundDistinct.1 same
          intro inner inside
          obtain ⟨other, alsoPresent, agree⟩ := Requests.within_iff.mp within inner inside
          exact ⟨other, alsoPresent, ih entry member inner inside (entryDistinct.2 inner inside)
            (foundDistinct.get? alsoPresent) agree⟩

namespace Lookahead

variable {left right sum top : Lookahead}

theorem containedIn_of_agrees (distinct : left.Distinct) (alsoDistinct : right.Distinct)
    (agree : left.agrees right = true) : ContainedIn left right ∧ ContainedIn right left := by
  have contained := Request.containedIn_of_agrees distinct.nested alsoDistinct.nested
    (by rwa [Request.agrees])
  simpa [Request.ContainedIn] using contained

theorem ContainedIn.trans (first : ContainedIn left right) (second : ContainedIn right top) :
    ContainedIn left top := by
  have below : Request.ContainedIn (.nested left) (.nested right) := by
    simpa [Request.ContainedIn] using first
  have above : Request.ContainedIn (.nested right) (.nested top) := by
    simpa [Request.ContainedIn] using second
  simpa [Request.ContainedIn] using below.trans above

theorem exists_adds (contained : ContainedIn left top) (also : ContainedIn right top) :
    ∃ sum, Adds left right sum ∧ ContainedIn sum top := by
  have bounded : ∃ sum, Request.absorb "" (.nested left) (.nested right) = .done sum ∧
      Request.ContainedIn sum (.nested top) :=
    Request.absorb_bounded (Request.containedIn_nested.mpr ⟨_, rfl, contained⟩)
      (Request.containedIn_nested.mpr ⟨_, rfl, also⟩)
  obtain ⟨_, absorbed, within⟩ := bounded
  obtain ⟨_, sum, same, rfl, adds⟩ := Request.absorb_nested_eq_done.mp absorbed
  cases same
  exact ⟨sum, adds, by simpa [Request.ContainedIn] using within⟩

theorem Adds.containedIn_iff (adds : Adds left right sum) (distinct : left.Distinct)
    (alsoDistinct : right.Distinct) :
    ContainedIn sum top ↔ ContainedIn left top ∧ ContainedIn right top := by
  have laws := accumulates right
  constructor
  · intro contained
    exact ⟨(laws.keeps "" ((accumulates left).refl distinct) adds).trans contained,
      (laws.takes "" alsoDistinct adds).trans contained⟩
  · intro ⟨contained, also⟩
    exact laws.least "" contained also adds

/-- Merges fail together, or give results that are equal up to order. -/
def SameUpToOrder (one two : Except Clash Lookahead) : Prop :=
  Option.Rel (fun sum sum' => sum.agrees sum' = true) one.toOption two.toOption

variable {left' right' : Lookahead}

theorem merge_eq_ok : merge left right = .ok sum ↔ Adds left right sum :=
  Attempt.finished_eq_ok

theorem exists_merge_of_bounds (distinct : left.Distinct) (alsoDistinct : right.Distinct)
    (distinct' : left'.Distinct) (alsoDistinct' : right'.Distinct)
    (same : ∀ top, ContainedIn left top ∧ ContainedIn right top ↔
      ContainedIn left' top ∧ ContainedIn right' top)
    (merged : merge left right = .ok sum) :
    ∃ sum', merge left' right' = .ok sum' ∧ sum.agrees sum' = true := by
  have adds := merge_eq_ok.mp merged
  have sumDistinct := (accumulates right).good "" distinct alsoDistinct adds
  have bounds := (adds.containedIn_iff distinct alsoDistinct).mp
    ((accumulates sum).refl sumDistinct)
  obtain ⟨contained, also⟩ := (same sum).mp bounds
  obtain ⟨sum', adds', back⟩ := exists_adds contained also
  have sumDistinct' := (accumulates right').good "" distinct' alsoDistinct' adds'
  have bounds' := (adds'.containedIn_iff distinct' alsoDistinct').mp
    ((accumulates sum').refl sumDistinct')
  have forth := (adds.containedIn_iff distinct alsoDistinct).mpr ((same sum').mpr bounds')
  exact ⟨sum', merge_eq_ok.mpr adds', agrees_of_containedIn sumDistinct sumDistinct' forth back⟩

theorem merge_of_bounds (distinct : left.Distinct) (alsoDistinct : right.Distinct)
    (distinct' : left'.Distinct) (alsoDistinct' : right'.Distinct)
    (same : ∀ top, ContainedIn left top ∧ ContainedIn right top ↔
      ContainedIn left' top ∧ ContainedIn right' top) :
    SameUpToOrder (merge left right) (merge left' right') := by
  cases merged : merge left right with
  | ok sum =>
      obtain ⟨sum', merged', agree⟩ := exists_merge_of_bounds distinct alsoDistinct distinct'
        alsoDistinct' same merged
      rw [merged']
      exact .some agree
  | error clash =>
      cases merged' : merge left' right' with
      | error clash' => exact .none
      | ok sum' =>
          obtain ⟨_, again, _⟩ := exists_merge_of_bounds distinct' alsoDistinct' distinct
            alsoDistinct (fun top => (same top).symm) merged'
          cases merged.symm.trans again

/-- Merging is the join of a partial semilattice: it is idempotent, commutative up to order,
exactly associative, and does not see the order of what it merges. -/
theorem merge_semilattice {first second third : Lookahead} (firstDistinct : first.Distinct)
    (secondDistinct : second.Distinct) (thirdDistinct : third.Distinct) :
    merge first first = .ok first ∧
    SameUpToOrder (merge first second) (merge second first) ∧
    (∀ sum, (merge first second >>= (merge · third)) = .ok sum ↔
      (merge second third >>= merge first) = .ok sum) ∧
    ∀ first' second' : Lookahead, first'.Distinct → second'.Distinct →
      first.agrees first' = true → second.agrees second' = true →
        SameUpToOrder (merge first second) (merge first' second') := by
  refine ⟨?_, ?_, fun sum => ?_, ?_⟩
  · apply merge_eq_ok.mpr
    exact (accumulates first).fixed "" ((accumulates first).refl firstDistinct)
  · apply merge_of_bounds firstDistinct secondDistinct secondDistinct firstDistinct
    exact fun _ => And.comm
  · simp only [bind_eq_ok, merge_eq_ok]
    exact associates thirdDistinct first second sum firstDistinct secondDistinct
  · intro first' second' distinct' alsoDistinct' agree alsoAgree
    apply merge_of_bounds firstDistinct secondDistinct distinct' alsoDistinct'
    obtain ⟨forth, back⟩ := containedIn_of_agrees firstDistinct distinct' agree
    obtain ⟨alsoForth, alsoBack⟩ := containedIn_of_agrees secondDistinct alsoDistinct' alsoAgree
    intro top
    constructor
    · exact fun ⟨contained, also⟩ => ⟨back.trans contained, alsoBack.trans also⟩
    · exact fun ⟨contained, also⟩ => ⟨forth.trans contained, alsoForth.trans also⟩

def reversedPets : Lookahead :=
  [("Cat", []), ("Dog", [("owner", .nested [("Person", [("name", .leaf)])]), ("id", .leaf)])]

theorem merge_semilattice_of_pets :
    (pets.Distinct ∧ morePets.Distinct ∧ reversedPets.Distinct) ∧
      pets.agrees reversedPets = true ∧
      merge pets pets = .ok pets ∧
      (∃ sum sum', merge pets morePets = .ok sum ∧ merge morePets pets = .ok sum' ∧
        Assoc.keys sum = ["Dog", "Cat"] ∧ Assoc.keys sum' = ["Cat", "Dog"] ∧
        SameUpToOrder (merge pets morePets) (merge morePets pets)) ∧
      (∃ sum, (merge pets morePets >>= (merge · reversedPets)) = .ok sum ∧
        (merge morePets reversedPets >>= merge pets) = .ok sum) ∧
      SameUpToOrder (merge pets morePets) (merge reversedPets morePets) := by
  have distinct : pets.Distinct ∧ morePets.Distinct ∧ reversedPets.Distinct := by
    simp [pets, morePets, reversedPets, Lookahead.Distinct, Requests.Distinct, Request.Distinct,
      Assoc.keys]
  obtain ⟨known, more, reversed⟩ := distinct
  obtain ⟨idempotent, commutes, associates, congruent⟩ := merge_semilattice known more reversed
  have agree : pets.agrees reversedPets = true ∧ morePets.agrees morePets = true := by decide
  have merged : ∃ sum, (merge pets morePets >>= (merge · reversedPets)) = .ok sum := ⟨_, rfl⟩
  obtain ⟨sum, merged⟩ := merged
  exact ⟨⟨known, more, reversed⟩, agree.1, idempotent,
    ⟨_, _, rfl, rfl, by decide, by decide, commutes⟩,
    ⟨sum, merged, (associates sum).mp merged⟩,
    congruent reversedPets morePets reversed more agree.1 agree.2⟩

end Lookahead
end FieldLookahead
