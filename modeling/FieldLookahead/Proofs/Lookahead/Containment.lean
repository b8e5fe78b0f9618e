import FieldLookahead.Lookahead.Request
import FieldLookahead.Proofs.Lookahead.Accumulation

namespace FieldLookahead

/-! When one lookahead requests everything that another does. Merging gives the least lookahead
that contains both. -/

mutual
/-- Everything that the first requests, the second requests too. -/
def Request.ContainedIn : Request → Request → Prop
  | .leaf, other => other = .leaf
  | .nested below, other => ∃ more, other = .nested more ∧ Lookahead.ContainedIn below more
  termination_by structural request => request

def Requests.ContainedIn : Requests → Requests → Prop
  | [], _ => True
  | (key, request) :: rest, other =>
      (∃ found, Assoc.get? key other = some found ∧ Request.ContainedIn request found) ∧
        Requests.ContainedIn rest other
  termination_by structural requests => requests

def Lookahead.ContainedIn : Lookahead → Lookahead → Prop
  | [], _ => True
  | (typeName, requests) :: rest, other =>
      (∃ found, Assoc.get? typeName other = some found ∧
        Requests.ContainedIn requests found) ∧ Lookahead.ContainedIn rest other
  termination_by structural lookahead => lookahead
end

mutual
/-- Each type and each key comes once, at every depth. -/
def Request.Distinct : Request → Prop
  | .leaf => True
  | .nested below => Lookahead.Distinct below
  termination_by structural request => request

def Requests.Distinct : Requests → Prop
  | [] => True
  | (key, request) :: rest =>
      key ∉ Assoc.keys rest ∧ Request.Distinct request ∧ Requests.Distinct rest
  termination_by structural requests => requests

def Lookahead.Distinct : Lookahead → Prop
  | [] => True
  | (typeName, requests) :: rest =>
      typeName ∉ Assoc.keys rest ∧ Requests.Distinct requests ∧ Lookahead.Distinct rest
  termination_by structural lookahead => lookahead
end

mutual
theorem Request.induction {Holds : Request → Prop} (leaf : Holds .leaf)
    (nested : ∀ below : Lookahead,
      (∀ entry ∈ below, ∀ inner ∈ entry.2, Holds inner.2) → Holds (.nested below)) :
    ∀ request, Holds request
  | .leaf => leaf
  | .nested below => nested below (Lookahead.holdsBelow leaf nested below)

theorem Requests.holdsBelow {Holds : Request → Prop} (leaf : Holds .leaf)
    (nested : ∀ below : Lookahead,
      (∀ entry ∈ below, ∀ inner ∈ entry.2, Holds inner.2) → Holds (.nested below)) :
    ∀ requests : Requests, ∀ inner ∈ requests, Holds inner.2
  | [], _, member => nomatch member
  | (key, request) :: rest, inner, member => by
      rcases List.mem_cons.mp member with rfl | member
      · exact Request.induction leaf nested request
      · exact Requests.holdsBelow leaf nested rest inner member

theorem Lookahead.holdsBelow {Holds : Request → Prop} (leaf : Holds .leaf)
    (nested : ∀ below : Lookahead,
      (∀ entry ∈ below, ∀ inner ∈ entry.2, Holds inner.2) → Holds (.nested below)) :
    ∀ lookahead : Lookahead, ∀ entry ∈ lookahead, ∀ inner ∈ entry.2, Holds inner.2
  | [], _, member => nomatch member
  | (typeName, requests) :: rest, entry, member => by
      rcases List.mem_cons.mp member with rfl | member
      · exact Requests.holdsBelow leaf nested requests
      · exact Lookahead.holdsBelow leaf nested rest entry member
end

theorem Requests.containedIn_eq :
    Requests.ContainedIn = Assoc.ContainedIn Request.ContainedIn := by
  funext small large
  induction small with
  | nil => simp [Requests.ContainedIn, Assoc.ContainedIn]
  | cons entry rest ih =>
      obtain ⟨key, request⟩ := entry
      simp [Requests.ContainedIn, ih, Assoc.ContainedIn]

theorem Lookahead.containedIn_eq :
    Lookahead.ContainedIn = Assoc.ContainedIn Requests.ContainedIn := by
  funext small large
  induction small with
  | nil => simp [Lookahead.ContainedIn, Assoc.ContainedIn]
  | cons entry rest ih =>
      obtain ⟨typeName, requests⟩ := entry
      simp [Lookahead.ContainedIn, ih, Assoc.ContainedIn]

theorem Requests.distinct_eq : Requests.Distinct = Assoc.Distinct Request.Distinct := by
  funext requests
  induction requests with
  | nil => simp [Requests.Distinct, Assoc.Distinct, Assoc.keys]
  | cons entry rest ih =>
      obtain ⟨key, request⟩ := entry
      simp only [Requests.Distinct, ih, Assoc.Distinct, Assoc.keys, List.map_cons,
        List.nodup_cons, List.forall_mem_cons]
      ac_rfl

theorem Lookahead.distinct_eq : Lookahead.Distinct = Assoc.Distinct Requests.Distinct := by
  funext lookahead
  induction lookahead with
  | nil => simp [Lookahead.Distinct, Assoc.Distinct, Assoc.keys]
  | cons entry rest ih =>
      obtain ⟨typeName, requests⟩ := entry
      simp only [Lookahead.Distinct, ih, Assoc.Distinct, Assoc.keys, List.map_cons,
        List.nodup_cons, List.forall_mem_cons]
      ac_rfl

theorem Requests.Distinct.nodup {requests : Requests} (distinct : Requests.Distinct requests) :
    (Assoc.keys requests).Nodup := by
  rw [Requests.distinct_eq] at distinct
  exact distinct.1

theorem Requests.Distinct.get? {requests : Requests} (distinct : Requests.Distinct requests)
    {key : String} {request : Request} (found : Assoc.get? key requests = some request) :
    Request.Distinct request := by
  rw [Requests.distinct_eq] at distinct
  exact Assoc.Distinct.get? distinct found

theorem Lookahead.Distinct.nodup {lookahead : Lookahead} (distinct : Lookahead.Distinct lookahead) :
    (Assoc.keys lookahead).Nodup := by
  rw [Lookahead.distinct_eq] at distinct
  exact distinct.1

theorem Lookahead.Distinct.get? {lookahead : Lookahead} (distinct : Lookahead.Distinct lookahead)
    {typeName : String} {requests : Requests}
    (found : Assoc.get? typeName lookahead = some requests) : Requests.Distinct requests := by
  rw [Lookahead.distinct_eq] at distinct
  exact Assoc.Distinct.get? distinct found

theorem Lookahead.Distinct.nested {lookahead : Lookahead}
    (distinct : Lookahead.Distinct lookahead) : Request.Distinct (.nested lookahead) := by
  rwa [Request.Distinct]

theorem Requests.absorb_eq :
    Requests.absorb = fun present more =>
      Attempt.each (Assoc.join Request.absorb) more present := by
  funext present more
  induction more generalizing present with
  | nil => rfl
  | cons entry rest ih =>
      obtain ⟨key, request⟩ := entry
      simp only [Requests.absorb, Attempt.each, Assoc.join]
      cases Assoc.get? key present with
      | none => exact ih _
      | some old => exact congrArg (Attempt.andThen _) (funext ih)

theorem Lookahead.absorb_eq :
    Lookahead.absorb = fun present more =>
      Attempt.each (Assoc.join fun _ => Requests.absorb) more present := by
  funext present more
  induction more generalizing present with
  | nil => rfl
  | cons entry rest ih =>
      obtain ⟨typeName, requests⟩ := entry
      simp only [Lookahead.absorb, Attempt.each, Assoc.join]
      cases Assoc.get? typeName present with
      | none => exact ih _
      | some old => exact congrArg (Attempt.andThen _) (funext ih)

theorem Requests.absorb_append (present first second : Requests) :
    Requests.absorb present (first ++ second) =
      (Requests.absorb present first).andThen (Requests.absorb · second) := by
  rw [Requests.absorb_eq]
  exact Attempt.each_append _ first second present

namespace Request

theorem absorb_leaf_eq_done {key : String} {old new : Request} :
    absorb key old .leaf = .done new ↔ old = .leaf ∧ new = .leaf := by
  cases old <;> simp [absorb, eq_comm]

theorem absorb_nested_eq_done {key : String} {old new : Request} {more : Lookahead} :
    absorb key old (.nested more) = .done new ↔
      ∃ below sum, old = .nested below ∧ new = .nested sum ∧
        Lookahead.absorb below more = .done sum := by
  cases old with
  | leaf => simp [absorb]
  | nested below =>
      rw [absorb, Attempt.map_eq_done]
      constructor
      · rintro ⟨sum, absorbed, rfl⟩
        exact ⟨below, sum, rfl, rfl, absorbed⟩
      · rintro ⟨_, sum, same, rfl, absorbed⟩
        cases same
        exact ⟨sum, absorbed, rfl⟩

theorem containedIn_nested {small : Request} {large : Lookahead} :
    ContainedIn small (.nested large) ↔
      ∃ below, small = .nested below ∧ Lookahead.ContainedIn below large := by
  cases small <;> simp [ContainedIn]

theorem accumulates_leaf : Assoc.Accumulates absorb ContainedIn Distinct .leaf where
  refl _ := by rw [ContainedIn]
  good _ _ _ added := by
    obtain ⟨_, rfl⟩ := absorb_leaf_eq_done.mp added
    trivial
  takes _ _ added := by
    obtain ⟨_, rfl⟩ := absorb_leaf_eq_done.mp added
    rw [ContainedIn]
  keeps _ contained added := by
    obtain ⟨rfl, rfl⟩ := absorb_leaf_eq_done.mp added
    exact contained
  least _ contained _ added := by
    obtain ⟨rfl, rfl⟩ := absorb_leaf_eq_done.mp added
    exact contained
  fixed _ contained := by
    rw [ContainedIn] at contained
    exact absorb_leaf_eq_done.mpr ⟨contained, contained⟩

theorem accumulates_nested {more : Lookahead}
    (laws : Assoc.Accumulates (fun _ : String => Lookahead.absorb) Lookahead.ContainedIn
      Lookahead.Distinct more) :
    Assoc.Accumulates absorb ContainedIn Distinct (.nested more) where
  refl distinct := by
    rw [ContainedIn]
    exact ⟨more, rfl, laws.refl distinct⟩
  good key distinct moreDistinct added := by
    obtain ⟨below, sum, rfl, rfl, absorbed⟩ := absorb_nested_eq_done.mp added
    exact laws.good key distinct moreDistinct absorbed
  takes key distinct added := by
    obtain ⟨below, sum, rfl, rfl, absorbed⟩ := absorb_nested_eq_done.mp added
    exact containedIn_nested.mpr ⟨more, rfl, laws.takes key distinct absorbed⟩
  keeps key contained added := by
    obtain ⟨below, sum, rfl, rfl, absorbed⟩ := absorb_nested_eq_done.mp added
    obtain ⟨small, rfl, within⟩ := containedIn_nested.mp contained
    exact containedIn_nested.mpr ⟨small, rfl, laws.keeps key within absorbed⟩
  least key contained also added := by
    obtain ⟨below, sum, rfl, rfl, absorbed⟩ := absorb_nested_eq_done.mp added
    rw [ContainedIn] at contained also ⊢
    obtain ⟨large, rfl, within⟩ := contained
    obtain ⟨_, same, alsoWithin⟩ := also
    cases same
    exact ⟨large, rfl, laws.least key within alsoWithin absorbed⟩
  fixed key contained := by
    rw [ContainedIn] at contained
    obtain ⟨below, rfl, within⟩ := contained
    exact absorb_nested_eq_done.mpr ⟨below, below, rfl, rfl, laws.fixed key within⟩

end Request

theorem Requests.accumulates_of {requests : Requests}
    (laws : ∀ entry ∈ requests,
      Assoc.Accumulates Request.absorb Request.ContainedIn Request.Distinct entry.2) :
    Assoc.Accumulates (fun _ : String => Requests.absorb) Requests.ContainedIn
      Requests.Distinct requests := by
  rw [Requests.absorb_eq, Requests.containedIn_eq, Requests.distinct_eq]
  exact Assoc.Accumulates.entries laws

theorem Lookahead.accumulates_of {lookahead : Lookahead}
    (laws : ∀ entry ∈ lookahead, Assoc.Accumulates (fun _ : String => Requests.absorb)
      Requests.ContainedIn Requests.Distinct entry.2) :
    Assoc.Accumulates (fun _ : String => Lookahead.absorb) Lookahead.ContainedIn
      Lookahead.Distinct lookahead := by
  rw [Lookahead.absorb_eq, Lookahead.containedIn_eq, Lookahead.distinct_eq]
  exact Assoc.Accumulates.entries laws

theorem Request.accumulates (request : Request) :
    Assoc.Accumulates Request.absorb Request.ContainedIn Request.Distinct request := by
  induction request using Request.induction with
  | leaf => exact Request.accumulates_leaf
  | nested below ih =>
      refine Request.accumulates_nested (Lookahead.accumulates_of fun entry member => ?_)
      exact Requests.accumulates_of (ih entry member)

theorem Requests.accumulates (requests : Requests) :
    Assoc.Accumulates (fun _ : String => Requests.absorb) Requests.ContainedIn
      Requests.Distinct requests :=
  Requests.accumulates_of fun entry _ => Request.accumulates entry.2

theorem Lookahead.accumulates (lookahead : Lookahead) :
    Assoc.Accumulates (fun _ : String => Lookahead.absorb) Lookahead.ContainedIn
      Lookahead.Distinct lookahead :=
  Lookahead.accumulates_of fun entry _ => Requests.accumulates entry.2

theorem Requests.ContainedIn.trans_of {small middle large : Requests}
    (trans : ∀ entry ∈ small, ∀ between top, Request.ContainedIn entry.2 between →
      Request.ContainedIn between top → Request.ContainedIn entry.2 top)
    (first : Requests.ContainedIn small middle) (second : Requests.ContainedIn middle large) :
    Requests.ContainedIn small large := by
  rw [Requests.containedIn_eq] at first second ⊢
  exact Assoc.ContainedIn.trans trans first second

theorem Request.ContainedIn.trans {small middle large : Request}
    (first : Request.ContainedIn small middle) (second : Request.ContainedIn middle large) :
    Request.ContainedIn small large := by
  induction small using Request.induction generalizing middle large with
  | leaf =>
      rw [Request.ContainedIn] at first
      rw [first] at second
      exact second
  | nested below ih =>
      rw [Request.ContainedIn] at first
      obtain ⟨more, rfl, within⟩ := first
      rw [Request.ContainedIn] at second
      obtain ⟨top, rfl, above⟩ := second
      refine Request.containedIn_nested.mpr ⟨below, rfl, ?_⟩
      rw [Lookahead.containedIn_eq] at within above ⊢
      refine Assoc.ContainedIn.trans (fun entry member _ _ => ?_) within above
      exact Requests.ContainedIn.trans_of fun inner inside _ _ => ih entry member inner inside

theorem Requests.ContainedIn.trans {small middle large : Requests}
    (first : Requests.ContainedIn small middle) (second : Requests.ContainedIn middle large) :
    Requests.ContainedIn small large :=
  trans_of (fun _ _ _ _ => Request.ContainedIn.trans) first second

/-! Requests that something contains can be added to each other, and what contains each other
agrees. -/

theorem Requests.absorb_bounded_of {present more large : Requests}
    (bounded : ∀ entry ∈ more, ∀ old top, Request.ContainedIn old top →
      Request.ContainedIn entry.2 top →
        ∃ new, Request.absorb entry.1 old entry.2 = .done new ∧ Request.ContainedIn new top)
    (contained : Requests.ContainedIn present large) (also : Requests.ContainedIn more large) :
    ∃ sum, Requests.absorb present more = .done sum ∧ Requests.ContainedIn sum large := by
  rw [Requests.containedIn_eq] at contained also ⊢
  rw [Requests.absorb_eq]
  exact Assoc.each_join_bounded bounded contained also

theorem Request.absorb_bounded {key : String} {old more large : Request}
    (contained : Request.ContainedIn old large) (also : Request.ContainedIn more large) :
    ∃ new, Request.absorb key old more = .done new ∧ Request.ContainedIn new large := by
  induction more using Request.induction generalizing key old large with
  | leaf =>
      rw [Request.ContainedIn] at also
      subst also
      have bare : old = .leaf := by
        cases old with
        | leaf => rfl
        | nested below =>
            rw [Request.ContainedIn] at contained
            obtain ⟨_, impossible, _⟩ := contained
            cases impossible
      exact ⟨.leaf, Request.absorb_leaf_eq_done.mpr ⟨bare, rfl⟩, by rw [Request.ContainedIn]⟩
  | nested more ih =>
      rw [Request.ContainedIn] at also
      obtain ⟨top, rfl, moreWithin⟩ := also
      obtain ⟨below, rfl, belowWithin⟩ := Request.containedIn_nested.mp contained
      rw [Lookahead.containedIn_eq] at moreWithin belowWithin
      have absorbed : ∃ sum, Lookahead.absorb below more = .done sum ∧
          Assoc.ContainedIn Requests.ContainedIn sum top := by
        rw [Lookahead.absorb_eq]
        refine Assoc.each_join_bounded (fun entry member _ _ oldBelow entryBelow => ?_)
          belowWithin moreWithin
        exact Requests.absorb_bounded_of (fun inner inside _ _ => ih entry member inner inside)
          oldBelow entryBelow
      obtain ⟨sum, merged, within⟩ := absorbed
      rw [← Lookahead.containedIn_eq] at within
      refine ⟨.nested sum, ?_, Request.containedIn_nested.mpr ⟨sum, rfl, within⟩⟩
      exact Request.absorb_nested_eq_done.mpr ⟨below, sum, rfl, rfl, merged⟩

theorem Requests.absorb_bounded {present more large : Requests}
    (contained : Requests.ContainedIn present large) (also : Requests.ContainedIn more large) :
    ∃ sum, Requests.absorb present more = .done sum ∧ Requests.ContainedIn sum large :=
  absorb_bounded_of (fun _ _ _ _ => Request.absorb_bounded) contained also

theorem Requests.within_iff {left right : Requests} :
    Requests.within left right = true ↔
      ∀ entry ∈ left, ∃ found, Assoc.get? entry.1 right = some found ∧
        Request.agrees entry.2 found = true := by
  induction left with
  | nil => simp [Requests.within]
  | cons entry rest ih =>
      obtain ⟨key, request⟩ := entry
      rw [Requests.within, Bool.and_eq_true, ih, List.forall_mem_cons]
      cases Assoc.get? key right <;> simp

theorem Lookahead.within_iff {left right : Lookahead} :
    Lookahead.within left right = true ↔
      ∀ entry ∈ left, ∃ found, Assoc.get? entry.1 right = some found ∧
        entry.2.length = found.length ∧ Requests.within entry.2 found = true := by
  induction left with
  | nil => simp [Lookahead.within]
  | cons entry rest ih =>
      obtain ⟨typeName, requests⟩ := entry
      rw [Lookahead.within, Bool.and_eq_true, ih, List.forall_mem_cons]
      cases Assoc.get? typeName right <;> simp

theorem Request.agrees_of_containedIn {left right : Request} (distinct : Request.Distinct left)
    (alsoDistinct : Request.Distinct right) (forth : Request.ContainedIn left right)
    (back : Request.ContainedIn right left) : Request.agrees left right = true := by
  induction left using Request.induction generalizing right with
  | leaf =>
      rw [Request.ContainedIn] at forth
      rw [forth, Request.agrees]
  | nested left ih =>
      rw [Request.ContainedIn] at forth
      obtain ⟨right, rfl, under⟩ := forth
      obtain ⟨_, same, back⟩ := Request.containedIn_nested.mp back
      cases same
      rw [Request.Distinct, Lookahead.distinct_eq] at distinct alsoDistinct
      rw [Lookahead.containedIn_eq] at under back
      rw [Request.agrees, Bool.and_eq_true, decide_eq_true_iff, Lookahead.within_iff]
      refine ⟨under.length_eq distinct alsoDistinct back, fun entry member => ?_⟩
      obtain ⟨found, present, within, above⟩ := under.twin distinct back member
      have entryDistinct := distinct.2 entry member
      have foundDistinct := Assoc.Distinct.get? alsoDistinct present
      rw [Requests.distinct_eq] at entryDistinct foundDistinct
      rw [Requests.containedIn_eq] at within above
      refine ⟨found, present, within.length_eq entryDistinct foundDistinct above, ?_⟩
      refine Requests.within_iff.mpr fun inner inside => ?_
      obtain ⟨other, alsoPresent, innerWithin, innerAbove⟩ := within.twin entryDistinct above inside
      exact ⟨other, alsoPresent, ih entry member inner inside (entryDistinct.2 _ inside)
        (Assoc.Distinct.get? foundDistinct alsoPresent) innerWithin innerAbove⟩

theorem Lookahead.agrees_of_containedIn {left right : Lookahead}
    (distinct : Lookahead.Distinct left) (alsoDistinct : Lookahead.Distinct right)
    (forth : Lookahead.ContainedIn left right) (back : Lookahead.ContainedIn right left) :
    Lookahead.agrees left right = true := by
  have agree : Request.agrees (.nested left) (.nested right) = true :=
    Request.agrees_of_containedIn distinct.nested alsoDistinct.nested
      (Request.containedIn_nested.mpr ⟨left, rfl, forth⟩)
      (Request.containedIn_nested.mpr ⟨right, rfl, back⟩)
  rwa [Request.agrees] at agree

end FieldLookahead
