import FieldLookahead.Proofs.Echo
import FieldLookahead.Proofs.Lookahead.Accumulation
import FieldLookahead.Proofs.Plan.Gathering

namespace FieldLookahead.Plan

open Fragment (Table Unfolded FieldNode Occurrence)

/-! Gathering enters each fragment once. That loses nothing but repetitions of what following
every spread each time would give. -/

mutual
/-- The fields that a selection requests of an object type, if every spread is followed each time
that it is met. -/
def selected (schema : Schema) (object : String) :
    Unfolded → Except Lookahead.Fault (List FieldNode)
  | .field label below => .ok (if label.isMeta then [] else [⟨label, below⟩])
  | .inline none below => selectedAll schema object below
  | .inline (some condition) below => do
    if ← meets schema object condition then selectedAll schema object below else pure []
  | .spread _ condition below => do
    if ← meets schema object condition then selectedAll schema object below else pure []
  | .unknown name => .error (.unknownFragment name)
  termination_by structural selection => selection

def selectedAll (schema : Schema) (object : String) :
    List Unfolded → Except Lookahead.Fault (List FieldNode)
  | [] => .ok []
  | selection :: rest => do
    let nodes ← selected schema object selection
    let others ← selectedAll schema object rest
    pure (nodes ++ others)
  termination_by structural selections => selections
end

/-! Values cannot tell a field that is met again from another field that is called the same, so
each is met together with its place. -/

/-- The place of a selection: the fragment that holds it, or else what is given, and the indexes
that lead to it there. -/
structure Site where
  fragment? : Option String
  path : List Nat
  deriving DecidableEq

namespace Site

def item (around : Site) (index : Nat) : Site := ⟨around.fragment?, around.path ++ [index]⟩

def Leads (site other : Site) : Prop :=
  other.fragment? = site.fragment? ∧ site.path <+: other.path

def LeadsFrom (around : Site) (index : Nat) (other : Site) : Prop :=
  ∃ later, index ≤ later ∧ (around.item later).Leads other

def Open (site : Site) (entered : List String) : Prop :=
  ∀ name, site.fragment? = some name → name ∈ entered

variable {around other : Site} {index : Nat}

theorem leads_of_leadsFrom (leads : around.LeadsFrom index other) : around.Leads other := by
  obtain ⟨_, _, same, within⟩ := leads
  exact ⟨same, (List.prefix_append _ _).trans within⟩

theorem leadsFrom_of_leads_item (leads : (around.item index).Leads other) :
    around.LeadsFrom index other :=
  ⟨index, Nat.le_refl _, leads⟩

theorem leadsFrom_of_succ (leads : around.LeadsFrom (index + 1) other) :
    around.LeadsFrom index other := by
  obtain ⟨later, behind, leads⟩ := leads
  exact ⟨later, Nat.le_of_succ_le behind, leads⟩

theorem not_leadsFrom_of_leads_item (leads : (around.item index).Leads other) :
    ¬ around.LeadsFrom (index + 1) other := by
  rintro ⟨later, behind, _, again⟩
  obtain ⟨inner, same⟩ := leads.2
  obtain ⟨innerAgain, sameAgain⟩ := again
  rw [← sameAgain, item, item, List.append_assoc, List.append_assoc] at same
  have equal : index = later := (List.cons.inj (List.append_cancel_left same)).1
  omega

end Site

structure Encounter where
  site : Site
  node : FieldNode

mutual
/-- The fields that a selection at a place requests of an object type, each as often as it is
met. -/
def encountered (schema : Schema) (object : String) (site : Site) :
    Unfolded → Except Lookahead.Fault (List Encounter)
  | .field label below => .ok (if label.isMeta then [] else [⟨site, label, below⟩])
  | .inline none below => encounteredAll schema object site 0 below
  | .inline (some condition) below => do
    if ← meets schema object condition then encounteredAll schema object site 0 below
    else pure []
  | .spread name condition below => do
    if ← meets schema object condition then encounteredAll schema object ⟨some name, []⟩ 0 below
    else pure []
  | .unknown name => .error (.unknownFragment name)
  termination_by structural selection => selection

def encounteredAll (schema : Schema) (object : String) (around : Site) (index : Nat) :
    List Unfolded → Except Lookahead.Fault (List Encounter)
  | [] => .ok []
  | selection :: rest => do
    let encounters ← encountered schema object (around.item index) selection
    let others ← encounteredAll schema object around (index + 1) rest
    pure (encounters ++ others)
  termination_by structural selections => selections
end

section Selected

variable (schema : Schema) (object : String)

theorem map_whenMet (condition : String) (found : Except Lookahead.Fault (List Encounter)) :
    (do if ← meets schema object condition then found else pure []).map (List.map Encounter.node) =
      (do if ← meets schema object condition then found.map (List.map Encounter.node)
          else pure []) := by
  cases meets schema object condition with
  | error fault => rfl
  | ok answer => cases answer <;> rfl

mutual
theorem selected_eq_map (site : Site) :
    ∀ selection : Unfolded, selected schema object selection =
      (encountered schema object site selection).map (List.map Encounter.node)
  | .field label below => by
      rw [selected, encountered]
      cases label.isMeta <;> rfl
  | .inline none below => by rw [selected, encountered, selectedAll_eq_map site 0 below]
  | .inline (some condition) below => by
      rw [selected, encountered, selectedAll_eq_map site 0 below, map_whenMet]
  | .spread name condition below => by
      rw [selected, encountered, selectedAll_eq_map ⟨some name, []⟩ 0 below, map_whenMet]
  | .unknown name => by
      rw [selected, encountered]
      rfl

theorem selectedAll_eq_map (around : Site) (index : Nat) :
    ∀ selections : List Unfolded, selectedAll schema object selections =
      (encounteredAll schema object around index selections).map (List.map Encounter.node)
  | [] => rfl
  | selection :: rest => by
      rw [selectedAll, encounteredAll, selected_eq_map (around.item index) selection,
        selectedAll_eq_map around (index + 1) rest]
      cases encountered schema object (around.item index) selection with
      | error fault => rfl
      | ok encounters =>
          cases encounteredAll schema object around (index + 1) rest with
          | error fault => rfl
          | ok others => exact congrArg Except.ok List.map_append.symm
end

end Selected

def grouped (groups : Groups) (nodes : List FieldNode) : Groups :=
  nodes.foldl (fun groups node => Assoc.insert node.label.key
    ((Assoc.get? node.label.key groups).getD [] ++ [node]) groups) groups

theorem grouped_cons (groups : Groups) (node : FieldNode) (rest : List FieldNode) :
    grouped groups (node :: rest) = grouped (Assoc.insert node.label.key
      ((Assoc.get? node.label.key groups).getD [] ++ [node]) groups) rest := rfl

theorem grouped_append (groups : Groups) (first second : List FieldNode) :
    grouped groups (first ++ second) = grouped (grouped groups first) second :=
  List.foldl_append

theorem groups_addNode (gathering : Gathering) (node : FieldNode) :
    (gathering.addNode node).groups = grouped gathering.groups [node] := rfl

variable {table : Table} {schema : Schema} {object : String}

theorem encountered_unfoldNamed (name : String) (site other : Site) :
    encountered schema object site (table.unfoldNamed name) =
      encountered schema object other (table.unfoldNamed name) := by
  cases found : table.get? name with
  | none => rw [Table.unfoldNamed_missing found, encountered, encountered]
  | some fragment => rw [Table.unfoldNamed_found found, encountered, encountered]

/-- The fragments that have been entered give nothing that has not been seen, but for those that
are still open: they are larger than whatever is met inside them. -/
def Settled (table : Table) (schema : Schema) (object : String) (bound : Nat)
    (entered : List String) (seen : List Encounter) : Prop :=
  ∀ name ∈ entered, sizeOf (table.unfoldNamed name) < bound →
    ∃ encounters, encountered schema object ⟨some name, []⟩ (table.unfoldNamed name) =
      .ok encounters ∧ encounters ⊆ seen

/-- What is added has places of its own, or lies in fragments that have been entered
meanwhile. -/
structure Placed (own : Site → Prop) (before after : List String)
    (added : List Encounter) : Prop where
  distinct : (added.map (·.site)).Nodup
  located : ∀ encounter ∈ added, own encounter.site ∨
    ∃ name ∈ after, name ∉ before ∧ encounter.site.fragment? = some name

/-- Gathering adds nodes as they are met, without those that have been seen, and enters only
fragments below a bound. -/
structure Follows (table : Table) (schema : Schema) (object : String) (bound : Nat)
    (own : Site → Prop) (seen : List Encounter) (before after : Gathering)
    (encounters : List Encounter) : Prop where
  added : ∃ added, after.groups = grouped before.groups (added.map (·.node)) ∧
    Echoes seen added encounters ∧ Placed own before.entered after.entered added
  keeps : before.entered ⊆ after.entered
  entered : ∀ name ∈ after.entered,
    name ∈ before.entered ∨ sizeOf (table.unfoldNamed name) < bound
  settled : Settled table schema object bound after.entered (seen ++ encounters)

namespace Settled

variable {bound : Nat} {entered : List String} {seen : List Encounter}

theorem mono (settled : Settled table schema object bound entered seen) {more : List Encounter}
    (within : seen ⊆ more) : Settled table schema object bound entered more := by
  intro name member small
  obtain ⟨encounters, found, inside⟩ := settled name member small
  exact ⟨encounters, found, List.Subset.trans inside within⟩

theorem enter {name : String} (settled : Settled table schema object bound entered seen)
    (small : sizeOf (table.unfoldNamed name) < bound) :
    Settled table schema object (sizeOf (table.unfoldNamed name)) (name :: entered) seen := by
  intro other member smaller
  rcases List.mem_cons.mp member with rfl | member
  · exact absurd smaller (Nat.lt_irrefl _)
  · exact settled other member (Nat.lt_trans smaller small)

end Settled

namespace Placed

variable {own : Site → Prop} {before after : List String} {added : List Encounter}

theorem nil : Placed own before after [] := ⟨List.nodup_nil, fun _ member => nomatch member⟩

theorem mono (placed : Placed own before after added) {wider : Site → Prop}
    (within : ∀ site, own site → wider site) : Placed wider before after added where
  distinct := placed.distinct
  located encounter member :=
    (placed.located encounter member).imp_left (within encounter.site)

theorem append {first second : Site → Prop} {middle : List String} {more : List Encounter}
    (left : Placed first before middle added) (right : Placed second middle after more)
    (keepsLeft : before ⊆ middle) (keepsRight : middle ⊆ after)
    (firstOpen : ∀ site, first site → site.Open before)
    (secondOpen : ∀ site, second site → site.Open before)
    (apart : ∀ site, first site → ¬ second site) :
    Placed (fun site => first site ∨ second site) before after (added ++ more) where
  distinct := by
    rw [List.map_append]
    refine List.nodup_append.mpr ⟨left.distinct, right.distinct, ?_⟩
    intro site leftMember other rightMember same
    subst same
    obtain ⟨one, inLeft, rfl⟩ := List.mem_map.mp leftMember
    obtain ⟨two, inRight, same⟩ := List.mem_map.mp rightMember
    have here := left.located one inLeft
    have there := right.located two inRight
    rw [same] at there
    rcases here with here | ⟨name, inMiddle, isNew, named⟩
    · rcases there with there | ⟨name, _, isNew, named⟩
      · exact apart _ here there
      · exact isNew (keepsLeft (firstOpen _ here name named))
    · rcases there with there | ⟨other, _, otherNew, otherNamed⟩
      · exact isNew (secondOpen _ there name named)
      · rw [named] at otherNamed
        cases otherNamed
        exact otherNew inMiddle
  located encounter member := by
    rcases List.mem_append.mp member with member | member
    · rcases left.located encounter member with here | ⟨name, inMiddle, isNew, named⟩
      · exact .inl (.inl here)
      · exact .inr ⟨name, keepsRight inMiddle, isNew, named⟩
    · rcases right.located encounter member with here | ⟨name, inAfter, isNew, named⟩
      · exact .inl (.inr here)
      · exact .inr ⟨name, inAfter, fun earlier => isNew (keepsLeft earlier), named⟩

theorem leave {name : String}
    (placed : Placed (fun site => site.fragment? = some name) (name :: before) after added)
    (isNew : name ∉ before) (entered : name ∈ after) : Placed own before after added where
  distinct := placed.distinct
  located encounter member := by
    rcases placed.located encounter member with here | ⟨other, inAfter, otherNew, named⟩
    · exact .inr ⟨name, entered, isNew, here⟩
    · exact .inr ⟨other, inAfter, fun earlier => otherNew (List.mem_cons_of_mem _ earlier), named⟩

end Placed

namespace Follows

variable {bound : Nat} {own : Site → Prop} {seen : List Encounter} {before after : Gathering}
  {encounters : List Encounter}

theorem skipped (settled : Settled table schema object bound before.entered seen)
    (within : encounters ⊆ seen) :
    Follows table schema object bound own seen before before encounters where
  added := ⟨[], rfl, .of_subset within, .nil⟩
  keeps := List.Subset.refl _
  entered _ member := .inl member
  settled := settled.mono (List.subset_append_left _ _)

theorem mono (follows : Follows table schema object bound own seen before after encounters)
    {wider : Site → Prop} (within : ∀ site, own site → wider site) :
    Follows table schema object bound wider seen before after encounters where
  added := by
    obtain ⟨added, grown, echoes, placed⟩ := follows.added
    exact ⟨added, grown, echoes, placed.mono within⟩
  keeps := follows.keeps
  entered := follows.entered
  settled := follows.settled

theorem append {middle : Gathering} {more : List Encounter} {first second : Site → Prop}
    (left : Follows table schema object bound first seen before middle encounters)
    (right : Follows table schema object bound second (seen ++ encounters) middle after more)
    (firstOpen : ∀ site, first site → site.Open before.entered)
    (secondOpen : ∀ site, second site → site.Open before.entered)
    (apart : ∀ site, first site → ¬ second site) :
    Follows table schema object bound (fun site => first site ∨ second site) seen before after
      (encounters ++ more) where
  added := by
    obtain ⟨added, grown, echoes, placed⟩ := left.added
    obtain ⟨others, grownMore, echoesMore, placedMore⟩ := right.added
    refine ⟨added ++ others, ?_, echoes.append echoesMore, ?_⟩
    · rw [grownMore, grown, List.map_append, grouped_append]
    · exact placed.append placedMore left.keeps right.keeps firstOpen secondOpen apart
  keeps := List.Subset.trans left.keeps right.keeps
  entered name member := by
    rcases right.entered name member with member | small
    · exact left.entered name member
    · exact .inr small
  settled := by
    rw [← List.append_assoc]
    exact right.settled

theorem leave {name : String} (isNew : name ∉ before.entered)
    (small : sizeOf (table.unfoldNamed name) < bound)
    (settled : Settled table schema object bound before.entered seen)
    (found : encountered schema object ⟨some name, []⟩ (table.unfoldNamed name) = .ok encounters)
    (inside : Follows table schema object (sizeOf (table.unfoldNamed name))
      (fun site => site.fragment? = some name) seen (before.enter name) after encounters) :
    Follows table schema object bound own seen before after encounters where
  added := by
    obtain ⟨added, grown, echoes, placed⟩ := inside.added
    exact ⟨added, grown, echoes, placed.leave isNew (inside.keeps List.mem_cons_self)⟩
  keeps := List.Subset.trans (List.subset_cons_self _ _) inside.keeps
  entered other member := by
    rcases inside.entered other member with member | inner
    · rcases List.mem_cons.mp member with rfl | member
      · exact .inr small
      · exact .inl member
    · exact .inr (Nat.lt_trans inner small)
  settled other member smaller := by
    rcases inside.entered other member with earlier | inner
    · rcases List.mem_cons.mp earlier with rfl | earlier
      · exact ⟨encounters, found, List.subset_append_right _ _⟩
      · exact settled.mono (List.subset_append_left _ _) other earlier smaller
    · exact inside.settled other member inner

end Follows

theorem alike_whenMet {Related : Gathering → List Encounter → Prop} {condition : String}
    {one : Except Lookahead.Fault Gathering} {other : Except Lookahead.Fault (List Encounter)}
    {gathering : Gathering} {encounters : List Encounter}
    (met : meets schema object condition = .ok true → Alike Related one other)
    (unmet : meets schema object condition = .ok false → Related gathering encounters) :
    Alike Related (do if ← meets schema object condition then one else pure gathering)
      (do if ← meets schema object condition then other else pure encounters) := by
  refine Alike.bind_same fun answer asked => ?_
  cases answer with
  | true => exact met asked
  | false => exact .ok (unmet asked)

theorem gatherSelection_entered (table : Table) {name : String} {before : Gathering}
    (member : name ∈ before.entered) :
    gatherSelection schema object (table.unfoldNamed name) before = .ok before := by
  cases found : table.get? name with
  | none => rw [Table.unfoldNamed_missing found, gatherSelection, if_pos member]
  | some fragment => rw [Table.unfoldNamed_found found, gatherSelection, if_pos member]

theorem gatherSelection_follows_spread {bound : Nat} {own : Site → Prop} {seen : List Encounter}
    {before : Gathering} {name : String} (site : Site)
    (small : sizeOf (table.unfoldNamed name) < bound)
    (settled : Settled table schema object bound before.entered seen)
    (inside : ∀ fragment, table.get? name = some fragment →
      Settled table schema object (sizeOf (table.unfoldNamed name)) (before.enter name).entered
        seen →
      Alike (Follows table schema object (sizeOf (table.unfoldNamed name))
          (Site.LeadsFrom ⟨some name, []⟩ 0) seen (before.enter name))
        (gatherSelections schema object (table.unfold fragment.selections) (before.enter name))
        (encounteredAll schema object ⟨some name, []⟩ 0 (table.unfold fragment.selections))) :
    Alike (Follows table schema object bound own seen before)
      (gatherSelection schema object (table.unfoldNamed name) before)
      (encountered schema object site (table.unfoldNamed name)) := by
  rw [encountered_unfoldNamed name site ⟨some name, []⟩]
  by_cases member : name ∈ before.entered
  · obtain ⟨encounters, again, within⟩ := settled name member small
    rw [again, gatherSelection_entered table member]
    exact .ok (.skipped settled within)
  · cases found : table.get? name with
    | none =>
        rw [Table.unfoldNamed_missing found, gatherSelection, if_neg member, encountered]
        exact .error
    | some fragment =>
        have settledInside := settled.enter small
        have run : Alike (Follows table schema object (sizeOf (table.unfoldNamed name))
            (fun site => site.fragment? = some name) seen (before.enter name))
            (gatherSelection schema object (table.unfoldNamed name) before)
            (encountered schema object ⟨some name, []⟩ (table.unfoldNamed name)) := by
          rw [Table.unfoldNamed_found found, gatherSelection, if_neg member, encountered,
            ← Table.unfoldNamed_found found]
          refine alike_whenMet (fun _ => ?_) fun _ =>
            .skipped settledInside (List.nil_subset _)
          exact (inside fragment found settledInside).imp fun _ _ _ _ follows =>
            follows.mono fun _ leads => (Site.leads_of_leadsFrom leads).1
        exact run.imp fun _ _ _ again inside => inside.leave member small settled again

mutual
theorem gatherSelection_follows (table : Table) (schema : Schema) (object : String) (bound : Nat)
    (site : Site) (seen : List Encounter) (before : Gathering) :
    ∀ selection : Query.Selection, sizeOf (table.unfoldOne selection) < bound →
      site.Open before.entered →
      Settled table schema object bound before.entered seen →
      Alike (Follows table schema object bound site.Leads seen before)
        (gatherSelection schema object (table.unfoldOne selection) before)
        (encountered schema object site (table.unfoldOne selection))
  | .field label below, small, isOpen, settled => by
      rw [Table.unfoldOne_field, gatherSelection, encountered]
      cases label.isMeta with
      | true => exact .ok (.skipped settled (List.nil_subset _))
      | false =>
          refine .ok ⟨⟨[⟨site, label, table.unfold below⟩], groups_addNode _ _, .refl _ _, ?_⟩,
            List.Subset.refl _, fun _ member => .inl member,
            settled.mono (List.subset_append_left _ _)⟩
          exact ⟨List.nodup_singleton _,
            List.forall_mem_singleton.mpr (.inl ⟨rfl, List.prefix_rfl⟩)⟩
  | .inline none position below, small, isOpen, settled => by
      rw [Table.unfoldOne_inline, gatherSelection, encountered]
      have smaller := Nat.lt_trans (table.sizeOf_unfold_inline _ position below) small
      exact (gatherSelections_follows table schema object bound site 0 seen before below
        (Nat.le_of_lt smaller) isOpen settled).imp fun _ _ _ _ follows =>
          follows.mono fun _ => Site.leads_of_leadsFrom
  | .inline (some condition) position below, small, isOpen, settled => by
      rw [Table.unfoldOne_inline, gatherSelection, encountered]
      have smaller := Nat.lt_trans (table.sizeOf_unfold_inline _ position below) small
      refine alike_whenMet (fun _ => ?_) fun _ => .skipped settled (List.nil_subset _)
      exact (gatherSelections_follows table schema object bound site 0 seen before below
        (Nat.le_of_lt smaller) isOpen settled).imp fun _ _ _ _ follows =>
          follows.mono fun _ => Site.leads_of_leadsFrom
  | .spread name position, small, isOpen, settled => by
      rw [Table.unfoldOne_spread] at small ⊢
      refine gatherSelection_follows_spread site small settled fun fragment found inside => ?_
      apply gatherSelections_follows table schema object _ _ 0 seen _ fragment.selections
      · simp [Table.unfoldNamed_found found]
      · exact fun _ named => Option.some.inj named ▸ List.mem_cons_self
      · exact inside
  termination_by selection => sizeOf (table.unfoldOne selection)
  decreasing_by
    · exact table.sizeOf_unfold_inline _ _ _
    · exact table.sizeOf_unfold_inline _ _ _
    · exact Table.sizeOf_unfold_spread found _

theorem gatherSelections_follows (table : Table) (schema : Schema) (object : String)
    (bound : Nat) (around : Site) (index : Nat) (seen : List Encounter) (before : Gathering) :
    ∀ selections : List Query.Selection, sizeOf (table.unfold selections) ≤ bound →
      around.Open before.entered →
      Settled table schema object bound before.entered seen →
      Alike (Follows table schema object bound (around.LeadsFrom index) seen before)
        (gatherSelections schema object (table.unfold selections) before)
        (encounteredAll schema object around index (table.unfold selections))
  | [], small, isOpen, settled => .ok (.skipped settled (List.nil_subset _))
  | selection :: rest, small, isOpen, settled => by
      rw [Table.unfold_cons, List.cons.sizeOf_spec] at small
      rw [Table.unfold_cons, gatherSelections, encounteredAll]
      refine (gatherSelection_follows table schema object bound (around.item index) seen before
        selection (by omega) isOpen settled).bind fun middle encounters _ _ first => ?_
      refine (gatherSelections_follows table schema object bound around (index + 1)
        (seen ++ encounters) middle rest (by omega)
        (fun name named => first.keeps (isOpen name named))
        first.settled).bind_right fun after others second => ?_
      have inside : ∀ site, around.Leads site → site.Open before.entered :=
        fun site leads name named => isOpen name (leads.1.symm.trans named)
      refine .ok ((first.append second ?_ ?_ ?_).mono ?_)
      · exact fun site leads => inside site (Site.leads_of_leadsFrom
          (Site.leadsFrom_of_leads_item leads))
      · exact fun site leads => inside site (Site.leads_of_leadsFrom leads)
      · exact fun _ leads => Site.not_leadsFrom_of_leads_item leads
      · exact fun _ leads => leads.elim Site.leadsFrom_of_leads_item Site.leadsFrom_of_succ
  termination_by selections => sizeOf (table.unfold selections)
  decreasing_by
    · exact table.sizeOf_unfoldOne_cons _ _
    · exact table.sizeOf_unfold_cons _ _
end

def Site.given : Site := ⟨none, []⟩

theorem groups_encounters {selectionSets : List (List Unfolded)}
    (unfolds : ∀ selections ∈ selectionSets, table.Unfolds selections) :
    Alike (fun found encounters => ∃ added : List Encounter,
        found = grouped [] (added.map (·.node)) ∧ Echoes [] added encounters ∧
          (added.map (·.site)).Nodup)
      (groups schema object selectionSets)
      (encounteredAll schema object .given 0 selectionSets.flatten) := by
  obtain ⟨selections, same⟩ := Table.Unfolds.flatten unfolds
  have follows := gatherSelections_follows table schema object (sizeOf (table.unfold selections))
    .given 0 [] .empty selections (Nat.le_refl _) (fun _ named => nomatch named)
    fun _ member => nomatch member
  rw [groups_eq_map, ← same]
  refine follows.map_left fun _ _ inside => ?_
  obtain ⟨added, grown, echoes, placed⟩ := inside.added
  exact ⟨added, grown, echoes, placed.distinct⟩

theorem groups_follows {selectionSets : List (List Unfolded)}
    (unfolds : ∀ selections ∈ selectionSets, table.Unfolds selections) :
    Alike (fun found nodes => ∃ added, found = grouped [] added ∧ Echoes [] added nodes)
      (groups schema object selectionSets) (selectedAll schema object selectionSets.flatten) := by
  rw [selectedAll_eq_map schema object .given 0]
  refine (groups_encounters unfolds).map_right ?_
  rintro _ _ ⟨added, same, echoes, _⟩
  exact ⟨added.map Encounter.node, same, echoes.map Encounter.node⟩

theorem selected_of_mem {selections : List Unfolded} {nodes : List FieldNode}
    (found : selectedAll schema object selections = .ok nodes) {selection : Unfolded}
    (member : selection ∈ selections) :
    ∃ part, selected schema object selection = .ok part ∧ part ⊆ nodes := by
  induction selections generalizing nodes with
  | nil => cases member
  | cons first rest ih =>
      rw [selectedAll] at found
      obtain ⟨part, foundPart, found⟩ := bind_eq_ok.mp found
      obtain ⟨others, foundOthers, same⟩ := bind_eq_ok.mp found
      cases same
      rcases List.mem_cons.mp member with rfl | member
      · exact ⟨part, foundPart, List.subset_append_left _ _⟩
      · obtain ⟨inner, foundInner, within⟩ := ih foundOthers member
        exact ⟨inner, foundInner, List.subset_append_of_subset_right _ within⟩

theorem mem_selectedAll_of {below : List Unfolded} {occurrence : Occurrence}
    (each : ∀ inner ∈ below, ∀ {nodes : List FieldNode} {crossed : List String},
      selected schema object inner = .ok nodes → occurrence ∈ inner.reached crossed →
        occurrence.node ∈ nodes)
    {nodes : List FieldNode} (found : selectedAll schema object below = .ok nodes)
    {crossed : List String} (reached : occurrence ∈ Unfolded.reachedAll crossed below) :
    occurrence.node ∈ nodes := by
  obtain ⟨inner, member, reached⟩ := Unfolded.mem_reachedAll.mp reached
  obtain ⟨part, foundPart, within⟩ := selected_of_mem found member
  exact within (each inner member foundPart reached)

theorem mem_selected_of_reached {occurrence : Occurrence}
    (applies : AppliesTo schema object occurrence) {selection : Unfolded}
    {nodes : List FieldNode} {crossed : List String}
    (found : selected schema object selection = .ok nodes)
    (reached : occurrence ∈ selection.reached crossed) : occurrence.node ∈ nodes := by
  induction selection using Unfolded.induction generalizing nodes crossed with
  | field label below _ =>
      obtain ⟨recorded, rfl⟩ := Unfolded.mem_reached_field.mp reached
      rw [selected, recorded] at found
      cases found
      exact List.mem_cons_self
  | inline condition? below ih =>
      cases condition? with
      | none => exact mem_selectedAll_of ih found reached
      | some condition =>
          rw [Unfolded.reached] at reached
          rw [selected, applies.meets_eq_ok reached] at found
          exact mem_selectedAll_of ih found reached
  | spread name condition below ih =>
      rw [Unfolded.reached] at reached
      rw [selected, applies.meets_eq_ok reached] at found
      exact mem_selectedAll_of ih found reached
  | unknown name => cases found

theorem mem_keys_grouped {nodes : List FieldNode} {groups : Groups} {key : String} :
    key ∈ Assoc.keys (grouped groups nodes) ↔
      key ∈ Assoc.keys groups ∨ ∃ node ∈ nodes, node.label.key = key := by
  induction nodes generalizing groups with
  | nil => simp [grouped]
  | cons node rest ih =>
      rw [grouped_cons, ih, Assoc.mem_keys_insert, or_assoc, List.exists_mem_cons_iff]
      exact or_congr_right (or_congr_left eq_comm)

theorem groups_complete {selectionSets : List (List Unfolded)} {found : Groups}
    (unfolds : ∀ selections ∈ selectionSets, table.Unfolds selections)
    (gathered : groups schema object selectionSets = .ok found) {occurrence : Occurrence}
    (reached : occurrence ∈ selectionSets.flatMap (Unfolded.reachedAll []))
    (applies : AppliesTo schema object occurrence) :
    occurrence.node.label.key ∈ Assoc.keys found := by
  obtain ⟨nodes, all, added, rfl, echoes⟩ := (groups_follows unfolds).exists_right gathered
  rw [← Unfolded.reachedAll_flatten] at reached
  have inside := mem_selectedAll_of (fun _ _ => mem_selected_of_reached applies) all reached
  have member := (echoes.mem_of_mem_long inside).resolve_left List.not_mem_nil
  exact mem_keys_grouped.mpr (.inr ⟨_, member, rfl⟩)

end FieldLookahead.Plan
