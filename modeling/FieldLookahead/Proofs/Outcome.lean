import FieldLookahead.Attempt
import Mathlib.Data.List.Forall2
import Mathlib.Data.List.Perm.Basic

namespace FieldLookahead

/-! Where the result of finished work comes from. -/

variable {ε ε' σ τ α β : Type}

theorem bind_eq_ok {found : Except ε α} {next : α → Except ε β} {result : β} :
    found >>= next = .ok result ↔ ∃ value, found = .ok value ∧ next value = .ok result := by
  cases found with
  | error fault =>
      constructor
      · intro bound
        cases bound
      · rintro ⟨value, impossible, _⟩
        cases impossible
  | ok value =>
      constructor
      · exact fun bound => ⟨value, rfl, bound⟩
      · rintro ⟨other, same, bound⟩
        cases same
        exact bound

theorem mapError_eq_ok {found : Except ε α} {wrap : ε → ε'} {result : α} :
    found.mapError wrap = .ok result ↔ found = .ok result := by
  cases found <;> simp [Except.mapError]

theorem map_eq_ok {found : Except ε α} {convert : α → β} {result : β} :
    found.map convert = .ok result ↔ ∃ value, found = .ok value ∧ convert value = result := by
  cases found <;> simp [Except.map]

theorem eq_ok_of_isSome {found : Except ε α} (some : found.toOption.isSome = true) :
    found = .ok (found.toOption.get some) := by
  cases found with
  | error fault => cases some
  | ok value => rfl

theorem mapM_eq_ok {find : α → Except ε β} {items : List α} {results : List β} :
    items.mapM find = .ok results ↔
      List.Forall₂ (fun item result => find item = .ok result) items results := by
  induction items generalizing results with
  | nil =>
      rw [List.mapM_nil, List.forall₂_nil_left_iff]
      constructor
      · intro same
        cases same
        rfl
      · rintro rfl
        rfl
  | cons item rest ih =>
      simp only [List.mapM_cons, bind_eq_ok, List.forall₂_cons_left_iff, ih]
      constructor
      · rintro ⟨result, found, others, foundOthers, same⟩
        cases same
        exact ⟨result, others, found, foundOthers, rfl⟩
      · rintro ⟨result, others, found, foundOthers, rfl⟩
        exact ⟨result, found, others, foundOthers, rfl⟩

theorem mapM_succeeds {find : α → Except ε β} {items : List α}
    (each : ∀ item ∈ items, ∃ result, find item = .ok result) :
    ∃ results, items.mapM find = .ok results := by
  induction items with
  | nil => exact ⟨[], mapM_eq_ok.mpr .nil⟩
  | cons item rest ih =>
      obtain ⟨⟨result, found⟩, others⟩ := List.forall_mem_cons.mp each
      obtain ⟨results, foundRest⟩ := ih others
      exact ⟨result :: results, mapM_eq_ok.mpr (.cons found (mapM_eq_ok.mp foundRest))⟩

theorem exists_mapM_of_perm {find : α → Except ε β} {items others : List α} {results : List β}
    (perm : items.Perm others) (found : items.mapM find = .ok results) :
    ∃ answers, others.mapM find = .ok answers ∧ answers.Perm results := by
  obtain ⟨answers, others, perm⟩ := List.perm_comp_forall₂ perm.symm (mapM_eq_ok.mp found)
  exact ⟨answers, mapM_eq_ok.mpr others, perm⟩

theorem exists_of_forall₂_left {Related : α → β → Prop} {items : List α}
    {results : List β} (related : List.Forall₂ Related items results) {item : α}
    (member : item ∈ items) : ∃ result ∈ results, Related item result := by
  induction related with
  | nil => cases member
  | cons here _ ih =>
      rcases List.mem_cons.mp member with rfl | member
      · exact ⟨_, List.mem_cons_self, here⟩
      · obtain ⟨result, inside, related⟩ := ih member
        exact ⟨result, List.mem_cons_of_mem _ inside, related⟩

theorem exists_of_forall₂_right {Related : α → β → Prop} {items : List α}
    {results : List β} (related : List.Forall₂ Related items results) {result : β}
    (member : result ∈ results) : ∃ item ∈ items, Related item result :=
  exists_of_forall₂_left related.flip member

theorem foldlM_invariant {step : β → α → Except ε β} (Holds : β → Prop) {items : List α}
    (keeps : ∀ item ∈ items, ∀ before after,
      Holds before → step before item = .ok after → Holds after)
    {start finish : β} (initially : Holds start)
    (run : items.foldlM step start = .ok finish) : Holds finish := by
  induction items generalizing start with
  | nil =>
      cases run
      exact initially
  | cons item rest ih =>
      rw [List.foldlM_cons] at run
      obtain ⟨next, stepped, run⟩ := bind_eq_ok.mp run
      refine ih (fun other member => keeps other (List.mem_cons_of_mem _ member)) ?_ run
      exact keeps item List.mem_cons_self start next initially stepped

theorem foldlM_appends {γ : Type} {step : β → α → Except ε β} (measure : β → List γ)
    {gives : α → List γ} {items : List α}
    (each : ∀ item before after, step before item = .ok after →
      measure after = measure before ++ gives item)
    {start finish : β} (run : items.foldlM step start = .ok finish) :
    measure finish = measure start ++ items.flatMap gives := by
  induction items generalizing start with
  | nil =>
      cases run
      exact (List.append_nil _).symm
  | cons item rest ih =>
      rw [List.foldlM_cons] at run
      obtain ⟨next, stepped, run⟩ := bind_eq_ok.mp run
      rw [ih run, each item start next stepped, List.flatMap_cons, List.append_assoc]

theorem foldlM_convert {step : β → α → Except ε β} {convert : β → β} {items : List α}
    (each : ∀ item ∈ items, ∀ state, step (convert state) item = (step state item).map convert)
    (start : β) : items.foldlM step (convert start) = (items.foldlM step start).map convert := by
  induction items generalizing start with
  | nil => rfl
  | cons item rest ih =>
      obtain ⟨here, others⟩ := List.forall_mem_cons.mp each
      rw [List.foldlM_cons, List.foldlM_cons, here]
      cases step start item with
      | error fault => rfl
      | ok next => exact ih others next

theorem map_bind_eq {found : Except ε α} {convert : α → β}
    {next : α → Except ε α} {next' : β → Except ε β}
    (each : ∀ one, next' (convert one) = (next one).map convert) :
    found.map convert >>= next' = (found >>= next).map convert := by
  cases found with
  | error fault => rfl
  | ok one => exact each one

theorem mapM_attach_eq {items : List α} {find : α → Except ε β}
    {seek : { item // item ∈ items } → Except ε β}
    (each : ∀ item : { item // item ∈ items }, find item.1 = seek item) :
    items.mapM find = items.attach.mapM seek := by
  have same : seek = find ∘ Subtype.val := funext fun item => (each item).symm
  rw [same, ← List.mapM_map, List.attach_map_subtype_val]

theorem bind_eq_error {found : Except ε α} {next : α → Except ε β} {fault : ε} :
    found >>= next = .error fault ↔
      found = .error fault ∨ ∃ value, found = .ok value ∧ next value = .error fault := by
  cases found with
  | error other =>
      constructor
      · intro bound
        cases bound
        exact .inl rfl
      · rintro (same | ⟨value, impossible, _⟩)
        · cases same
          rfl
        · cases impossible
  | ok value =>
      constructor
      · exact fun bound => .inr ⟨value, rfl, bound⟩
      · rintro (impossible | ⟨other, same, bound⟩)
        · cases impossible
        · cases same
          exact bound

theorem mapError_eq_error {found : Except ε α} {wrap : ε → ε'} {fault : ε'} :
    found.mapError wrap = .error fault ↔ ∃ inner, found = .error inner ∧ wrap inner = fault := by
  cases found <;> simp [Except.mapError]

/-- Whatever fault a computation fails with has a property. -/
def Blames (Holds : ε → Prop) (found : Except ε α) : Prop :=
  ∀ fault, found = .error fault → Holds fault

namespace Blames

variable {Holds : ε → Prop}

theorem ok (value : α) : Blames Holds (.ok value : Except ε α) := fun _ impossible =>
  nomatch impossible

theorem error {fault : ε} (holds : Holds fault) : Blames Holds (.error fault : Except ε α) := by
  intro other same
  cases same
  exact holds

theorem bind {found : Except ε α} {next : α → Except ε β} (here : Blames Holds found)
    (there : ∀ value, found = .ok value → Blames Holds (next value)) :
    Blames Holds (found >>= next) := by
  intro fault failed
  rcases bind_eq_error.mp failed with failed | ⟨value, done, failed⟩
  · exact here fault failed
  · exact there value done fault failed

theorem mapError {found : Except ε' α} {wrap : ε' → ε} (each : ∀ fault, Holds (wrap fault)) :
    Blames Holds (found.mapError wrap) := by
  intro fault failed
  obtain ⟨inner, _, rfl⟩ := mapError_eq_error.mp failed
  exact each inner

theorem map {found : Except ε α} (here : Blames Holds found) (convert : α → β) :
    Blames Holds (found.map convert) := by
  cases found with
  | error fault => exact error (here fault rfl)
  | ok value => exact ok (convert value)

theorem mapM {find : α → Except ε β} {items : List α}
    (each : ∀ item ∈ items, Blames Holds (find item)) : Blames Holds (items.mapM find) := by
  induction items with
  | nil => exact ok []
  | cons item rest ih =>
      obtain ⟨here, others⟩ := List.forall_mem_cons.mp each
      rw [List.mapM_cons]
      refine here.bind fun result _ => ?_
      exact (ih others).bind fun results _ => ok (result :: results)

end Blames

/-- Computations that fail with the same fault, or give related results. -/
inductive Alike (Related : α → β → Prop) : Except ε α → Except ε β → Prop
  | ok {left : α} {right : β} (related : Related left right) : Alike Related (.ok left) (.ok right)
  | error {fault : ε} : Alike Related (.error fault) (.error fault)

namespace Alike

variable {α' β' : Type} {Related : α → β → Prop} {Related' : α' → β' → Prop}
  {left : Except ε α} {right : Except ε β}

theorem bind (alike : Alike Related left right) {nextLeft : α → Except ε α'}
    {nextRight : β → Except ε β'}
    (next : ∀ one other, left = .ok one → right = .ok other → Related one other →
      Alike Related' (nextLeft one) (nextRight other)) :
    Alike Related' (left >>= nextLeft) (right >>= nextRight) := by
  cases alike with
  | ok related => exact next _ _ rfl rfl related
  | error => exact .error

theorem bind_same {found : Except ε α} {nextLeft : α → Except ε α'} {nextRight : α → Except ε β'}
    (next : ∀ one, found = .ok one → Alike Related' (nextLeft one) (nextRight one)) :
    Alike Related' (found >>= nextLeft) (found >>= nextRight) := by
  cases found with
  | ok one => exact next one rfl
  | error => exact .error

theorem bind_right (alike : Alike Related left right) {next : β → Except ε β'}
    {Related' : α → β' → Prop}
    (each : ∀ one other, Related one other → Alike Related' (.ok one) (next other)) :
    Alike Related' left (right >>= next) := by
  cases alike with
  | ok related => exact each _ _ related
  | error => exact .error

theorem imp (alike : Alike Related left right) {Weaker : α → β → Prop}
    (weaken : ∀ one other, left = .ok one → right = .ok other → Related one other →
      Weaker one other) : Alike Weaker left right := by
  cases alike with
  | ok related => exact .ok (weaken _ _ rfl rfl related)
  | error => exact .error

theorem mapError (alike : Alike Related left right) (wrap : ε → ε') :
    Alike Related (left.mapError wrap) (right.mapError wrap) := by
  cases alike with
  | ok related => exact .ok related
  | error => exact .error

theorem map_eq (alike : Alike Related left right) {convert : α → α'} {convert' : β → α'}
    (each : ∀ one other, Related one other → convert one = convert' other) :
    left.map convert = right.map convert' := by
  cases alike with
  | ok related => exact congrArg Except.ok (each _ _ related)
  | error => rfl

theorem map_left (alike : Alike Related left right) {convert : α → α'}
    {Related' : α' → β → Prop}
    (each : ∀ one other, Related one other → Related' (convert one) other) :
    Alike Related' (left.map convert) right := by
  cases alike with
  | ok related => exact .ok (each _ _ related)
  | error => exact .error

theorem map_right (alike : Alike Related left right) {convert : β → β'}
    {Related' : α → β' → Prop}
    (each : ∀ one other, Related one other → Related' one (convert other)) :
    Alike Related' left (right.map convert) := by
  cases alike with
  | ok related => exact .ok (each _ _ related)
  | error => exact .error

theorem trans {last : Except ε β'} {Next : β → β' → Prop} (first : Alike Related left right)
    (second : Alike Next right last) :
    Alike (fun one other => ∃ middle, Related one middle ∧ Next middle other) left last := by
  cases first with
  | ok related =>
      cases second with
      | ok next => exact .ok ⟨_, related, next⟩
  | error =>
      cases second
      exact .error

theorem exists_right (alike : Alike Related left right) {one : α} (found : left = .ok one) :
    ∃ other, right = .ok other ∧ Related one other := by
  cases alike with
  | ok related =>
      cases found
      exact ⟨_, rfl, related⟩
  | error => cases found

theorem mapM {Given : α → β → Prop} {items : List α} {others : List β}
    (given : List.Forall₂ Given items others) {find : α → Except ε α'} {seek : β → Except ε β'}
    (each : ∀ item ∈ items, ∀ other, Given item other → Alike Related' (find item) (seek other)) :
    Alike (List.Forall₂ Related') (items.mapM find) (others.mapM seek) := by
  induction given with
  | nil => exact .ok .nil
  | @cons item other items others here _ ih =>
      obtain ⟨first, rest⟩ := List.forall_mem_cons.mp each
      rw [List.mapM_cons, List.mapM_cons]
      refine (first other here).bind fun one two _ _ related => ?_
      refine (ih rest).bind fun results answers _ _ others => ?_
      exact .ok (.cons related others)

theorem foldlM {step : β → α → Except ε β} {other : β' → α → Except ε β'}
    {Same : β → β' → Prop} {items : List α}
    (each : ∀ item ∈ items, ∀ state twin, Same state twin →
      Alike Same (step state item) (other twin item))
    {start : β} {start' : β'} (same : Same start start') :
    Alike Same (items.foldlM step start) (items.foldlM other start') := by
  induction items generalizing start start' with
  | nil => exact .ok same
  | cons item rest ih =>
      obtain ⟨here, others⟩ := List.forall_mem_cons.mp each
      rw [List.foldlM_cons, List.foldlM_cons]
      exact (here start start' same).bind fun _ _ _ _ next => ih others next

end Alike

/-- Computations that have the same result or both fail, whatever their faults. -/
def Concur (left right : Except ε α) : Prop :=
  ∀ result, left = .ok result ↔ right = .ok result

namespace Concur

variable {left right last : Except ε α}

theorem refl (found : Except ε α) : Concur found found := fun _ => Iff.rfl

theorem symm (concur : Concur left right) : Concur right left :=
  fun result => (concur result).symm

theorem trans (first : Concur left right) (second : Concur right last) : Concur left last :=
  fun result => (first result).trans (second result)

theorem bind (concur : Concur left right) {nextLeft nextRight : α → Except ε β}
    (next : ∀ value, Concur (nextLeft value) (nextRight value)) :
    Concur (left >>= nextLeft) (right >>= nextRight) := by
  intro result
  rw [bind_eq_ok, bind_eq_ok]
  exact exists_congr fun value => and_congr (concur value) (next value result)

theorem map (concur : Concur left right) (convert : α → β) :
    Concur (left.map convert) (right.map convert) := by
  intro result
  rw [map_eq_ok, map_eq_ok]
  exact exists_congr fun value => and_congr_left fun _ => concur value

theorem map_bind {rest : α → Except ε α} (parts : Concur left (right >>= rest)) {convert : α → β}
    {next : β → Except ε β} (each : ∀ one, next (convert one) = (rest one).map convert) :
    Concur (left.map convert) (right.map convert >>= next) := by
  rw [map_bind_eq each]
  exact parts.map convert

theorem foldlM {step other : β → α → Except ε β} {items : List α}
    (each : ∀ item ∈ items, ∀ state, Concur (step state item) (other state item)) (start : β) :
    Concur (items.foldlM step start) (items.foldlM other start) := by
  induction items generalizing start with
  | nil => exact refl _
  | cons item rest ih =>
      obtain ⟨here, others⟩ := List.forall_mem_cons.mp each
      rw [List.foldlM_cons, List.foldlM_cons]
      exact (here start).bind (ih others)

/-- What may be done before or after each step may be done before or after all steps. -/
theorem foldlM_comm {step : β → α → Except ε β} {move : β → Except ε β} {items : List α}
    (each : ∀ item ∈ items, ∀ state,
      Concur (step state item >>= move) (move state >>= (step · item))) (start : β) :
    Concur (items.foldlM step start >>= move) (move start >>= items.foldlM step) := by
  induction items generalizing start with
  | nil =>
      simp only [List.foldlM_nil, pure_bind, bind_pure]
      exact refl _
  | cons item rest ih =>
      obtain ⟨here, others⟩ := List.forall_mem_cons.mp each
      simp only [List.foldlM_cons, bind_assoc]
      refine ((refl (step start item)).bind (ih others)).trans ?_
      rw [← bind_assoc, ← bind_assoc]
      exact (here start).bind fun state => refl _

end Concur

namespace Attempt

theorem andThen_eq_done {attempt : Attempt ε σ} {next : σ → Attempt ε σ} {finish : σ} :
    attempt.andThen next = .done finish ↔
      ∃ middle, attempt = .done middle ∧ next middle = .done finish := by
  cases attempt <;> simp [andThen]

theorem map_eq_done {attempt : Attempt ε σ} {convert : σ → τ} {finish : τ} :
    attempt.map convert = .done finish ↔
      ∃ state, attempt = .done state ∧ convert state = finish := by
  cases attempt <;> simp [map]

theorem map_eq_stopped {attempt : Attempt ε σ} {convert : σ → τ} {finish : τ} {error : ε} :
    attempt.map convert = .stopped finish error ↔
      ∃ state, attempt = .stopped state error ∧ convert state = finish := by
  cases attempt <;> simp [map, and_comm]

theorem mapError_eq_done {attempt : Attempt ε σ} {wrap : ε → ε'} {finish : σ} :
    attempt.mapError wrap = .done finish ↔ attempt = .done finish := by
  cases attempt <;> simp [mapError]

@[simp] theorem state_mapError (wrap : ε → ε') (attempt : Attempt ε σ) :
    (attempt.mapError wrap).state = attempt.state := by
  cases attempt <;> rfl

theorem finished_eq_ok {attempt : Attempt ε σ} {finish : σ} :
    attempt.finished = .ok finish ↔ attempt = .done finish := by
  cases attempt <;> simp [finished]

theorem finished_eq_error {attempt : Attempt ε σ} {error : ε} :
    attempt.finished = .error error ↔ attempt.error? = some error := by
  cases attempt <;> simp [finished, error?]

theorem blames_andThen {Holds : ε → Prop} {attempt : Attempt ε σ} {next : σ → Attempt ε σ}
    (here : Blames Holds attempt.finished)
    (there : ∀ state, Blames Holds (next state).finished) :
    Blames Holds (attempt.andThen next).finished := by
  cases attempt with
  | done state => exact there state
  | stopped state error => exact here

theorem blames_each {Holds : ε → Prop} {step : α → σ → Attempt ε σ} {items : List α}
    (steps : ∀ item ∈ items, ∀ state, Blames Holds (step item state).finished) (state : σ) :
    Blames Holds (each step items state).finished := by
  induction items generalizing state with
  | nil => exact .ok state
  | cons item rest ih =>
      obtain ⟨here, others⟩ := List.forall_mem_cons.mp steps
      exact blames_andThen (here state) (ih others)

theorem blames_mapError {Holds : ε' → Prop} {attempt : Attempt ε σ} {wrap : ε → ε'}
    (each : ∀ fault, Holds (wrap fault)) : Blames Holds (attempt.mapError wrap).finished := by
  cases attempt with
  | done state => exact .ok state
  | stopped state error => exact .error (each error)

theorem exists_done_iff {attempt : Attempt ε σ} :
    (∃ finish, attempt = .done finish) ↔ attempt.error? = none := by
  cases attempt <;> simp [error?]

theorem each_cons_eq_done {step : α → σ → Attempt ε σ} {item : α} {rest : List α}
    {start finish : σ} :
    each step (item :: rest) start = .done finish ↔
      ∃ middle, step item start = .done middle ∧ each step rest middle = .done finish :=
  andThen_eq_done

theorem exists_step_of_each {step : α → σ → Attempt ε σ} {items : List α} {start finish : σ}
    (run : each step items start = .done finish) {item : α} (member : item ∈ items) :
    ∃ before after, step item before = .done after := by
  induction items generalizing start with
  | nil => cases member
  | cons first rest ih =>
      obtain ⟨next, stepped, run⟩ := each_cons_eq_done.mp run
      rcases List.mem_cons.mp member with rfl | member
      · exact ⟨start, next, stepped⟩
      · exact ih run member

theorem exists_stop_of_each {step : α → σ → Attempt ε σ} {items : List α} {start finish : σ}
    {error : ε} (run : each step items start = .stopped finish error) :
    ∃ earlier item later middle, items = earlier ++ item :: later ∧
      each step earlier start = .done middle ∧ step item middle = .stopped finish error := by
  induction items generalizing start with
  | nil => cases run
  | cons first rest ih =>
      rw [each] at run
      cases stepped : step first start with
      | stopped state fault =>
          rw [stepped] at run
          exact ⟨[], first, rest, start, rfl, rfl, stepped.trans run⟩
      | done next =>
          rw [stepped] at run
          obtain ⟨earlier, item, later, middle, rfl, before, stopped⟩ := ih run
          exact ⟨first :: earlier, item, later, middle, rfl,
            each_cons_eq_done.mpr ⟨next, stepped, before⟩, stopped⟩

theorem each_singleton (step : α → σ → Attempt ε σ) (item : α) (state : σ) :
    each step [item] state = step item state :=
  andThen_done _

theorem each_map (step : β → σ → Attempt ε σ) (convert : α → β) (items : List α) :
    each step (items.map convert) = each (fun item => step (convert item)) items := by
  funext state
  induction items generalizing state with
  | nil => rfl
  | cons item rest ih => rw [List.map_cons, each, each, funext ih]

theorem each_invariant {step : α → σ → Attempt ε σ} {Holds : σ → Prop} {items : List α}
    (keeps : ∀ item ∈ items, ∀ before after,
      Holds before → step item before = .done after → Holds after)
    {start finish : σ} (initially : Holds start)
    (run : each step items start = .done finish) : Holds finish := by
  induction items generalizing start with
  | nil =>
      cases run
      exact initially
  | cons item rest ih =>
      obtain ⟨next, stepped, run⟩ := each_cons_eq_done.mp run
      refine ih (fun other member => keeps other (List.mem_cons_of_mem _ member)) ?_ run
      exact keeps item List.mem_cons_self start next initially stepped

theorem each_succeeds {step : α → σ → Attempt ε σ} {Holds : σ → Prop} {items : List α}
    (steps : ∀ item ∈ items, ∀ state, Holds state →
      ∃ next, step item state = .done next ∧ Holds next)
    {start : σ} (initially : Holds start) :
    ∃ finish, each step items start = .done finish ∧ Holds finish := by
  induction items generalizing start with
  | nil => exact ⟨start, rfl, initially⟩
  | cons item rest ih =>
      obtain ⟨here, others⟩ := List.forall_mem_cons.mp steps
      obtain ⟨next, stepped, holds⟩ := here start initially
      obtain ⟨finish, run, holds⟩ := ih others holds
      exact ⟨finish, each_cons_eq_done.mpr ⟨next, stepped, run⟩, holds⟩

theorem state_each {step : α → σ → Attempt ε σ} (Holds : σ → Prop) {items : List α}
    (keeps : ∀ item ∈ items, ∀ state, Holds state → Holds (step item state).state)
    {start : σ} (initially : Holds start) : Holds (each step items start).state := by
  induction items generalizing start with
  | nil => exact initially
  | cons item rest ih =>
      obtain ⟨here, others⟩ := List.forall_mem_cons.mp keeps
      have held := here start initially
      rw [each]
      cases stepped : step item start with
      | done next =>
          rw [stepped] at held
          exact ih others held
      | stopped next error =>
          rw [stepped] at held
          exact held

theorem each_eq_self {step : α → σ → Attempt ε σ} {items : List α} {state : σ}
    (fixed : ∀ item ∈ items, step item state = .done state) :
    each step items state = .done state := by
  induction items with
  | nil => rfl
  | cons item rest ih =>
      refine each_cons_eq_done.mpr ⟨state, fixed item List.mem_cons_self, ?_⟩
      exact ih fun other member => fixed other (List.mem_cons_of_mem _ member)

end Attempt
end FieldLookahead
