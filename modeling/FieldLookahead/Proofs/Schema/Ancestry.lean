import FieldLookahead.Schema.Basic
import Mathlib.Data.List.Basic

namespace FieldLookahead.Schema

/-! The implementers of an interface are the object types that lead to it through declarations:
the search for them never needs more steps than it may take. -/

namespace TypeTable

/-- An object type implements the interfaces that it declares, and what these declare. -/
inductive Implements (table : TypeTable) (object : String) : String → Prop
  | declared {heading : Heading} {shape : Shape} {interface : String}
      (found : table.get? object = some (.object heading shape))
      (member : interface ∈ shape.interfaces) : Implements table object interface
  | inherited {lower upper : String} (below : Implements table object lower)
      (member : upper ∈ table.superInterfaces lower) : Implements table object upper

/-- A list holds all that follows from what is found or pending, and nothing else. -/
structure Closes (next : String → List String) (found pending result : List String) : Prop where
  keeps : found ⊆ result
  takes : pending ⊆ result
  closed : ∀ name ∈ result, next name ⊆ result
  least : ∀ Holds : String → Prop, (∀ name ∈ found, Holds name) →
    (∀ name ∈ pending, Holds name) → (∀ name, Holds name → ∀ upper ∈ next name, Holds upper) →
    ∀ name ∈ result, Holds name

def Leads (next : String → List String) (found pending : List String) : Prop :=
  ∀ name ∈ found, next name ⊆ found ++ pending

section Search

variable {next : String → List String} {found pending result : List String} {name : String}

theorem Leads.skip (leads : Leads next found (name :: pending)) (known : name ∈ found) :
    Leads next found pending := by
  intro other member upper above
  rcases List.mem_append.mp (leads other member above) with inside | inside
  · exact List.mem_append_left _ inside
  · rcases List.mem_cons.mp inside with rfl | inside
    · exact List.mem_append_left _ known
    · exact List.mem_append_right _ inside

theorem Leads.discover (leads : Leads next found (name :: pending)) :
    Leads next (name :: found) (next name ++ pending) := by
  intro other member upper above
  rcases List.mem_cons.mp member with rfl | member
  · simp [above]
  · rcases List.mem_append.mp (leads other member above) with inside | inside
    · simp [inside]
    · rcases List.mem_cons.mp inside with rfl | inside
      · simp
      · simp [inside]

theorem Leads.closes (leads : Leads next found []) : Closes next found [] found where
  keeps := List.Subset.refl _
  takes := List.nil_subset _
  closed name member := by simpa using leads name member
  least _ holds _ _ := holds

theorem Closes.skip (rest : Closes next found pending result) (known : name ∈ found) :
    Closes next found (name :: pending) result where
  keeps := rest.keeps
  takes := List.cons_subset.mpr ⟨rest.keeps known, rest.takes⟩
  closed := rest.closed
  least Holds holds alsoHolds :=
    rest.least Holds holds (List.forall_mem_cons.mp alsoHolds).2

theorem Closes.discover (rest : Closes next (name :: found) (next name ++ pending) result) :
    Closes next found (name :: pending) result where
  keeps := (List.cons_subset.mp rest.keeps).2
  takes := List.cons_subset.mpr ⟨(List.cons_subset.mp rest.keeps).1,
    List.Subset.trans (List.subset_append_right _ _) rest.takes⟩
  closed := rest.closed
  least Holds holds alsoHolds carried := by
    obtain ⟨nameHolds, pendingHolds⟩ := List.forall_mem_cons.mp alsoHolds
    refine rest.least Holds (List.forall_mem_cons.mpr ⟨nameHolds, holds⟩) ?_ carried
    intro other member
    rcases List.mem_append.mp member with member | member
    · exact carried name nameHolds other member
    · exact pendingHolds other member

end Search

/-- The search without a limit: a run from what is found and pending to its result. -/
inductive Gathers (next : String → List String) : List String → List String → List String → Prop
  | done {found : List String} : Gathers next found [] found
  | skip {found pending result : List String} {name : String} (known : name ∈ found)
      (rest : Gathers next found pending result) : Gathers next found (name :: pending) result
  | discover {found pending result : List String} {name : String} (fresh : name ∉ found)
      (rest : Gathers next (name :: found) (next name ++ pending) result) :
      Gathers next found (name :: pending) result

theorem Gathers.closes {next : String → List String} {found pending result : List String}
    (gathers : Gathers next found pending result) (leads : Leads next found pending) :
    Closes next found pending result := by
  induction gathers with
  | done => exact leads.closes
  | skip known _ ih => exact (ih (leads.skip known)).skip known
  | discover _ _ ih => exact (ih leads.discover).discover

/-- The search comes to its end if it may take a step for each pending name and for each name
that follows one that is yet to be found. -/
theorem reach_gathers {next : String → List String} (weight : List String → Nat)
    (drops : ∀ found name, name ∉ found →
      weight (name :: found) + (next name).length ≤ weight found)
    (steps : Nat) (found : Seen String) (pending : List String)
    (enough : pending.length + weight found.list ≤ steps) :
    Gathers next found.list pending (reach next steps found pending).list := by
  induction steps generalizing found pending with
  | zero =>
      have none : pending = [] := List.eq_nil_of_length_eq_zero (by omega)
      subst none
      exact .done
  | succ steps ih =>
      cases pending with
      | nil => exact .done
      | cons name pending =>
          rw [List.length_cons] at enough
          rw [reach]
          by_cases known : name ∈ found.list
          · rw [if_pos (Seen.contains_iff.mpr known)]
            exact .skip known (ih found pending (by omega))
          · rw [if_neg (mt Seen.contains_iff.mp known)]
            have dropped := drops found.list name known
            apply Gathers.discover known
            rw [← Seen.list_push]
            apply ih
            rw [List.length_append, Seen.list_push]
            omega

def undiscovered (found : List String) : List (String × NamedType) → Nat
  | [] => 0
  | (name, type) :: rest =>
      (if name ∈ found then 0 else type.superInterfaces.length) + undiscovered found rest

theorem undiscovered_cons {found : List String} {name : String} (fresh : name ∉ found)
    (entries : List (String × NamedType)) (distinct : (Assoc.keys entries).Nodup) :
    undiscovered (name :: found) entries +
        ((Assoc.get? name entries).elim [] NamedType.superInterfaces).length =
      undiscovered found entries := by
  induction entries with
  | nil => rfl
  | cons entry rest ih =>
      obtain ⟨other, type⟩ := entry
      simp only [Assoc.keys, List.map_cons, List.nodup_cons] at distinct
      have others := ih distinct.2
      by_cases same : other = name
      · subst same
        rw [Assoc.get?_eq_none.mpr distinct.1, Option.elim_none, List.length_nil] at others
        simp only [undiscovered, Assoc.get?, fresh, List.mem_cons, true_or, if_true, if_false,
          Option.elim_some]
        omega
      · simp only [undiscovered, Assoc.get?, same, List.mem_cons, false_or, if_false]
        omega

theorem undiscovered_nil (table : TypeTable) :
    undiscovered [] table.byName.entries = table.declarationCount := by
  rw [declarationCount, types, OrderedMap.values]
  induction table.byName.entries with
  | nil => rfl
  | cons entry rest ih =>
      simp only [undiscovered, List.not_mem_nil, if_false, List.map_cons, List.flatMap_cons,
        List.length_append, ih]

theorem closure_gathers (table : TypeTable) (interfaces : List String) :
    Gathers table.superInterfaces [] interfaces (table.closure interfaces).list := by
  refine reach_gathers (fun found => undiscovered found table.byName.entries) ?_ _ .empty
    interfaces ?_
  · intro found name fresh
    exact Nat.le_of_eq (undiscovered_cons fresh _ table.byName.distinct)
  · exact Nat.le_of_eq (by rw [Seen.list_empty, undiscovered_nil])

theorem closure_closes (table : TypeTable) (interfaces : List String) :
    Closes table.superInterfaces [] interfaces (table.closure interfaces).list :=
  (table.closure_gathers interfaces).closes fun _ member => nomatch member

theorem mem_closure_iff {table : TypeTable} {object interface : String} {heading : Heading}
    {shape : Shape} (found : table.get? object = some (.object heading shape)) :
    interface ∈ (table.closure shape.interfaces).list ↔ table.Implements object interface := by
  have closes := table.closure_closes shape.interfaces
  constructor
  · refine closes.least (table.Implements object) (by simp) ?_ ?_ interface
    · exact fun _ member => .declared found member
    · exact fun _ below _ member => .inherited below member
  · intro implements
    induction implements with
    | declared again member =>
        rw [found] at again
        cases again
        exact closes.takes member
    | inherited _ member ih => exact closes.closed _ ih member

theorem get?_of_mem_types {table : TypeTable} {type : NamedType} (member : type ∈ table.types) :
    table.get? type.name = some type := by
  obtain ⟨entry, filed, rfl⟩ := List.mem_map.mp member
  rw [table.named entry filed]
  exact OrderedMap.get?_eq_some.mpr filed

theorem mem_types_of_get? {table : TypeTable} {name : String} {type : NamedType}
    (found : table.get? name = some type) : type ∈ table.types :=
  List.mem_map_of_mem (OrderedMap.get?_eq_some.mp found)

theorem mem_interfaceNames_iff {table : TypeTable} {name : String} :
    name ∈ table.interfaceNames ↔
      ∃ heading shape, table.get? name = some (.interface heading shape) := by
  rw [interfaceNames, List.mem_filterMap]
  constructor
  · rintro ⟨type, member, named⟩
    cases type with
    | interface heading shape =>
        cases named
        exact ⟨heading, shape, get?_of_mem_types member⟩
    | builtin _ | scalar _ | object _ _ | union _ _ | enum _ _ | input _ _ => cases named
  · rintro ⟨heading, shape, found⟩
    exact ⟨_, mem_types_of_get? found, congrArg some (name_of_get? found)⟩

theorem Implements.exists_object {table : TypeTable} {object interface : String}
    (implements : table.Implements object interface) :
    ∃ heading shape, table.get? object = some (.object heading shape) := by
  induction implements with
  | declared found _ => exact ⟨_, _, found⟩
  | inherited _ _ ih => exact ih

def implementedBy (table : TypeTable) (object : String) : List String :=
  match table.get? object with
  | some (.object _ shape) => (table.closure shape.interfaces).list
  | _ => []

theorem mem_implementedBy {table : TypeTable} {object interface : String} :
    interface ∈ table.implementedBy object ↔ table.Implements object interface := by
  rw [implementedBy]
  split
  · next found => exact mem_closure_iff found
  · next other =>
    refine iff_of_false List.not_mem_nil fun implements => ?_
    obtain ⟨heading, shape, found⟩ := implements.exists_object
    exact other heading shape found

instance (table : TypeTable) (object interface : String) :
    Decidable (table.Implements object interface) :=
  decidable_of_iff _ mem_implementedBy

theorem names_types (table : TypeTable) : table.types.map NamedType.name = table.byName.keys := by
  rw [types, OrderedMap.values, OrderedMap.keys, Assoc.keys, List.map_map]
  exact List.map_congr_left table.named

theorem implementersAmong_ancestries (table : TypeTable) (interface : String) :
    implementersAmong table.ancestries interface =
      table.byName.keys.filter fun object => table.Implements object interface := by
  rw [implementersAmong, ancestries_eq, List.filterMap_filterMap, ← names_types,
    ← List.filterMap_eq_filter, List.filterMap_map]
  refine List.filterMap_congr fun type member => ?_
  have found := get?_of_mem_types member
  cases type with
  | object heading shape =>
      have implements : interface ∈ (table.closure shape.interfaces).list ↔
          table.Implements heading.name interface := mem_closure_iff found
      by_cases here : table.Implements heading.name interface <;>
        simp [Option.guard, NamedType.name, implements, here]
  | builtin _ | scalar _ | interface _ _ | union _ _ | enum _ _ | input _ _ =>
      have others : ¬ table.Implements _ interface := fun implements => by
        obtain ⟨_, _, object⟩ := implements.exists_object
        cases found.symm.trans object
      simp [Option.guard, others]

theorem get?_implementations {table : TypeTable} {interface : String}
    (known : interface ∈ table.interfaceNames) :
    Assoc.get? interface table.implementations =
      some (implementersAmong table.ancestries interface) := by
  rw [implementations]
  generalize table.interfaceNames = names at known ⊢
  induction names with
  | nil => cases known
  | cons name rest ih =>
      by_cases same : name = interface
      · simp [Assoc.get?, same]
      · rcases List.mem_cons.mp known with again | known
        · exact absurd again.symm same
        · simpa [Assoc.get?, same] using ih known

theorem keys_implementations (table : TypeTable) :
    Assoc.keys table.implementations = table.interfaceNames := by
  simp [implementations, Assoc.keys, Function.comp_def]

end TypeTable
end FieldLookahead.Schema
