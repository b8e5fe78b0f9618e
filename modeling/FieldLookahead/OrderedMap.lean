import Std.Data.TreeMap

/-! Finite maps that list their entries in the order in which the keys first came. A key that
comes again keeps its place and takes the new value. -/

namespace FieldLookahead

/-! Association lists, also usable inside recursive types. -/

namespace Assoc

variable {κ α : Type}

def keys (entries : List (κ × α)) : List κ :=
  entries.map Prod.fst

variable [DecidableEq κ]

def get? (key : κ) : List (κ × α) → Option α
  | [] => none
  | (other, value) :: rest => if other = key then some value else get? key rest

/-- Replaces the value of the key in its place, or appends a new entry. -/
def insert (key : κ) (value : α) : List (κ × α) → List (κ × α)
  | [] => [(key, value)]
  | (other, old) :: rest =>
    if other = key then (other, value) :: rest else (other, old) :: insert key value rest

def ofList (entries : List (κ × α)) : List (κ × α) :=
  entries.foldl (fun collected entry => insert entry.1 entry.2 collected) []

@[simp] theorem get?_nil (key : κ) : get? key ([] : List (κ × α)) = none := rfl

theorem get?_isSome (key : κ) (entries : List (κ × α)) :
    (get? key entries).isSome ↔ key ∈ keys entries := by
  induction entries with
  | nil => simp [keys]
  | cons entry rest ih =>
    obtain ⟨other, value⟩ := entry
    by_cases same : other = key
    · simp [get?, keys, same]
    · simpa [get?, keys, same, Ne.symm same] using ih

theorem get?_eq_none {key : κ} {entries : List (κ × α)} :
    get? key entries = none ↔ key ∉ keys entries := by
  rw [← get?_isSome]
  cases get? key entries <;> simp

theorem get?_map {β : Type} (f : α → β) (key : κ) (entries : List (κ × α)) :
    get? key (entries.map fun entry => (entry.1, f entry.2)) = (get? key entries).map f := by
  induction entries with
  | nil => rfl
  | cons entry rest ih =>
    by_cases same : entry.1 = key
    · simp [get?, same]
    · simpa [get?, same] using ih

theorem mem_of_get? {key : κ} {value : α} {entries : List (κ × α)}
    (found : get? key entries = some value) : (key, value) ∈ entries := by
  induction entries with
  | nil => cases found
  | cons entry rest ih =>
    obtain ⟨other, old⟩ := entry
    by_cases same : other = key
    · simp_all [get?]
    · simp only [get?, same, if_false] at found
      exact List.mem_cons_of_mem _ (ih found)

theorem get?_of_mem {key : κ} {value : α} {entries : List (κ × α)}
    (distinct : (keys entries).Nodup) (member : (key, value) ∈ entries) :
    get? key entries = some value := by
  induction entries with
  | nil => cases member
  | cons entry rest ih =>
    obtain ⟨other, old⟩ := entry
    simp only [keys, List.map_cons, List.nodup_cons] at distinct
    rcases List.mem_cons.mp member with same | member
    · cases same
      simp [get?]
    · have differs : other ≠ key := fun same =>
        distinct.1 (same ▸ List.mem_map_of_mem (f := Prod.fst) member)
      simpa [get?, differs] using ih distinct.2 member

@[simp] theorem get?_insert_self (key : κ) (value : α) (entries : List (κ × α)) :
    get? key (insert key value entries) = some value := by
  induction entries with
  | nil => simp [insert, get?]
  | cons entry rest ih =>
    obtain ⟨other, old⟩ := entry
    by_cases same : other = key <;> simp [insert, get?, same, ih]

theorem get?_insert_of_ne {key other : κ} (differs : key ≠ other) (value : α)
    (entries : List (κ × α)) : get? other (insert key value entries) = get? other entries := by
  induction entries with
  | nil => simp [insert, get?, differs]
  | cons entry rest ih =>
    obtain ⟨third, old⟩ := entry
    by_cases same : third = key
    · subst same
      simp [insert, get?, differs]
    · by_cases also : third = other
      · subst also
        simp [insert, get?, same]
      · simp [insert, get?, same, also, ih]

theorem mem_insert {key : κ} {value : α} {entries : List (κ × α)} {entry : κ × α}
    (member : entry ∈ insert key value entries) : entry = (key, value) ∨ entry ∈ entries := by
  induction entries with
  | nil => simpa [insert] using member
  | cons first rest ih =>
    obtain ⟨other, old⟩ := first
    by_cases same : other = key
    · simp only [insert, same, if_true, List.mem_cons] at member
      rcases member with here | there
      · exact .inl here
      · exact .inr (List.mem_cons_of_mem _ there)
    · simp only [insert, same, if_false, List.mem_cons] at member
      rcases member with here | there
      · exact .inr (here ▸ List.mem_cons_self)
      · rcases ih there with here | there
        · exact .inl here
        · exact .inr (List.mem_cons_of_mem _ there)

theorem keys_insert (key : κ) (value : α) (entries : List (κ × α)) :
    keys (insert key value entries) =
      if key ∈ keys entries then keys entries else keys entries ++ [key] := by
  induction entries with
  | nil => simp [insert, keys]
  | cons entry rest ih =>
    obtain ⟨other, old⟩ := entry
    by_cases same : other = key
    · simp [insert, keys, same]
    · by_cases member : key ∈ keys rest
      · rw [if_pos member] at ih
        simp_all [insert, keys]
      · rw [if_neg member] at ih
        simp_all [insert, keys, Ne.symm same]

theorem nodup_keys_insert {key : κ} {value : α} {entries : List (κ × α)}
    (distinct : (keys entries).Nodup) : (keys (insert key value entries)).Nodup := by
  rw [keys_insert]
  split
  · exact distinct
  · next absent =>
    refine List.nodup_append.mpr ⟨distinct, by simp, ?_⟩
    intro left leftMember right rightMember same
    rw [List.mem_singleton.mp rightMember] at same
    exact absent (same ▸ leftMember)

end Assoc

/-- An association list in which each key comes once. -/
structure OrderedMap (κ α : Type) where
  entries : List (κ × α)
  distinct : (Assoc.keys entries).Nodup
  deriving DecidableEq

namespace OrderedMap

variable {κ α : Type}

def empty : OrderedMap κ α := ⟨[], List.nodup_nil⟩

instance : EmptyCollection (OrderedMap κ α) := ⟨empty⟩

instance : Inhabited (OrderedMap κ α) := ⟨empty⟩

def keys (map : OrderedMap κ α) : List κ := Assoc.keys map.entries

def values (map : OrderedMap κ α) : List α := map.entries.map Prod.snd

def size (map : OrderedMap κ α) : Nat := map.entries.length

@[simp] theorem entries_empty : (∅ : OrderedMap κ α).entries = [] := rfl

theorem nodup_keys (map : OrderedMap κ α) : map.keys.Nodup := map.distinct

def mapValues {β : Type} (f : α → β) (map : OrderedMap κ α) : OrderedMap κ β where
  entries := map.entries.map fun (key, value) => (key, f value)
  distinct := by
    simpa [Assoc.keys, Function.comp_def] using map.distinct

/-- The entries sorted for quick search. -/
def index [Ord κ] (map : OrderedMap κ α) : Std.TreeMap κ α := .ofList map.entries

variable [DecidableEq κ]

def get? (map : OrderedMap κ α) (key : κ) : Option α := Assoc.get? key map.entries

def contains (map : OrderedMap κ α) (key : κ) : Bool := (map.get? key).isSome

def insert (map : OrderedMap κ α) (key : κ) (value : α) : OrderedMap κ α :=
  ⟨Assoc.insert key value map.entries, Assoc.nodup_keys_insert map.distinct⟩

def ofList (entries : List (κ × α)) : OrderedMap κ α :=
  entries.foldl (fun map entry => map.insert entry.1 entry.2) empty

@[simp] theorem entries_insert (map : OrderedMap κ α) (key : κ) (value : α) :
    (map.insert key value).entries = Assoc.insert key value map.entries := rfl

theorem get?_eq_some {map : OrderedMap κ α} {key : κ} {value : α} :
    map.get? key = some value ↔ (key, value) ∈ map.entries :=
  ⟨Assoc.mem_of_get?, Assoc.get?_of_mem map.distinct⟩

theorem contains_iff {map : OrderedMap κ α} {key : κ} :
    map.contains key = true ↔ key ∈ map.keys :=
  Assoc.get?_isSome key map.entries

@[simp] theorem get?_insert_self (map : OrderedMap κ α) (key : κ) (value : α) :
    (map.insert key value).get? key = some value :=
  Assoc.get?_insert_self key value map.entries

theorem get?_insert_of_ne (map : OrderedMap κ α) {key other : κ} (differs : key ≠ other)
    (value : α) : (map.insert key value).get? other = map.get? other :=
  Assoc.get?_insert_of_ne differs value map.entries

theorem get?_mapValues {β : Type} (f : α → β) (map : OrderedMap κ α) (key : κ) :
    (map.mapValues f).get? key = (map.get? key).map f :=
  Assoc.get?_map f key map.entries

theorem getElem?_index [Ord κ] [Std.TransOrd κ] [Std.LawfulEqOrd κ] (map : OrderedMap κ α)
    (key : κ) : map.index[key]? = map.get? key := by
  cases found : map.get? key with
  | some value =>
    refine Std.TreeMap.getElem?_ofList_of_mem Std.ReflCmp.compare_self ?_
      (get?_eq_some.mp found)
    refine (List.pairwise_map.mp map.distinct).imp fun differs same => ?_
    exact differs (Std.LawfulEqCmp.eq_of_compare same)
  | none =>
    refine Std.TreeMap.getElem?_ofList_of_contains_eq_false ?_
    simpa [Assoc.keys] using Assoc.get?_eq_none.mp found

end OrderedMap
end FieldLookahead
