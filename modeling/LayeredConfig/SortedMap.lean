import LayeredConfig.Assoc

/-!
# Finite maps in key order

A `SortedMap` holds at most one entry per key and lists its entries in
ascending key order.  Both are part of the type, so two maps with the same
entries are equal (`ext`).
-/

namespace LayeredConfig

/-- A finite map whose entries ascend by key. -/
structure SortedMap (α β : Type) [Ord α] where
  entries : List (α × β)
  sorted : Assoc.Sorted entries

namespace SortedMap

variable {α β : Type} [Ord α]

theorem ext {m n : SortedMap α β} (h : m.entries = n.entries) : m = n := by
  cases m
  cases n
  simp only at h
  subst h
  rfl

instance [DecidableEq α] [DecidableEq β] : DecidableEq (SortedMap α β) := fun m n =>
  if h : m.entries = n.entries then isTrue (ext h)
  else isFalse fun heq => h (congrArg entries heq)

def empty : SortedMap α β := ⟨[], Assoc.sorted_nil⟩

instance : Inhabited (SortedMap α β) := ⟨empty⟩

def isEmpty (m : SortedMap α β) : Bool := m.entries.isEmpty

def find? (m : SortedMap α β) (key : α) : Option β := Assoc.find? key m.entries

variable [Std.TransOrd α] [Std.LawfulEqOrd α]

def insert (m : SortedMap α β) (key : α) (value : β) : SortedMap α β :=
  ⟨Assoc.insert key value m.entries, m.sorted.insert key value⟩

def insertNew (m : SortedMap α β) (key : α) (value : β) : SortedMap α β :=
  match m.find? key with
  | some _ => m
  | none => m.insert key value

/-- The entries of `m`, and those of `n` for the keys `m` lacks. -/
def fillFrom (m n : SortedMap α β) : SortedMap α β :=
  n.entries.foldl (fun acc e => acc.insertNew e.1 e.2) m

/-- The entries of both maps, those of `upper` where a key is in both. -/
def merge (m upper : SortedMap α β) : SortedMap α β :=
  upper.entries.foldl (fun acc e => acc.insert e.1 e.2) m

/-- The map of a list of entries; the last entry for a key stays. -/
def ofList (entries : List (α × β)) : SortedMap α β :=
  ⟨Assoc.ofList entries, Assoc.sorted_ofList entries⟩

end SortedMap

end LayeredConfig
