import Std.Data.TreeSet

/-! Lists that tell quickly whether something is among them. -/

namespace FieldLookahead

/-- What has been seen so far, latest first. -/
structure Seen (α : Type) [Ord α] where
  list : List α
  members : Std.TreeSet α
  mem_members : ∀ item, item ∈ members ↔ item ∈ list

namespace Seen

variable {α : Type} [Ord α]

def contains (seen : Seen α) (item : α) : Bool := seen.members.contains item

@[simp] theorem contains_iff {seen : Seen α} {item : α} :
    seen.contains item = true ↔ item ∈ seen.list :=
  seen.mem_members item

def empty : Seen α := ⟨[], ∅, by simp⟩

@[simp] theorem list_empty : (empty : Seen α).list = [] := rfl

variable [Std.TransOrd α] [Std.LawfulEqOrd α]

def push (seen : Seen α) (item : α) : Seen α where
  list := item :: seen.list
  members := seen.members.insert item
  mem_members other := by
    simp [seen.mem_members, eq_comm (a := item)]

@[simp] theorem list_push (seen : Seen α) (item : α) :
    (seen.push item).list = item :: seen.list := rfl

end Seen
end FieldLookahead
