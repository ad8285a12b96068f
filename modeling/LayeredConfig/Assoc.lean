/-!
# Entry lists in key order

A finite map is kept as the list of its entries, ascending by key and with one
entry per key.  `insert`, `erase` and `find?` work on such lists; the first two
keep the order, so a list built by them is the only one with its entries.
-/

namespace LayeredConfig.Assoc

variable {α β : Type} [Ord α]

/-- Ascending by key, which also rules out two entries with one key. -/
def Sorted (entries : List (α × β)) : Prop :=
  entries.Pairwise fun a b => compare a.1 b.1 = .lt

def find? (key : α) : List (α × β) → Option β
  | [] => none
  | (k, v) :: rest => if compare key k = .eq then some v else find? key rest

def insert (key : α) (value : β) : List (α × β) → List (α × β)
  | [] => [(key, value)]
  | (k, v) :: rest =>
    match compare key k with
    | .lt => (key, value) :: (k, v) :: rest
    | .eq => (key, value) :: rest
    | .gt => (k, v) :: insert key value rest

def erase (key : α) : List (α × β) → List (α × β)
  | [] => []
  | (k, v) :: rest => if compare key k = .eq then rest else (k, v) :: erase key rest

/-- Sets the entries of a list one after the other, so that the last entry for
a key stays. -/
def ofList (entries : List (α × β)) : List (α × β) :=
  entries.foldl (fun acc e => insert e.1 e.2 acc) []

theorem mem_of_mem_insert {key : α} {value : β} {entries : List (α × β)} {e : α × β}
    (h : e ∈ insert key value entries) : e = (key, value) ∨ e ∈ entries := by
  induction entries with
  | nil => exact Or.inl (List.mem_singleton.1 h)
  | cons e' rest ih =>
    obtain ⟨k, v⟩ := e'
    rw [insert] at h
    split at h
    · exact List.mem_cons.1 h
    · rcases List.mem_cons.1 h with h | h
      · exact Or.inl h
      · exact Or.inr (List.mem_cons_of_mem _ h)
    · rcases List.mem_cons.1 h with h | h
      · exact Or.inr (h ▸ List.mem_cons_self)
      · exact (ih h).imp_right (List.mem_cons_of_mem _)

theorem sorted_nil : Sorted ([] : List (α × β)) :=
  List.Pairwise.nil

theorem Sorted.insert [Std.TransOrd α] [Std.LawfulEqOrd α] {entries : List (α × β)}
    (h : Sorted entries) (key : α) (value : β) : Sorted (Assoc.insert key value entries) := by
  induction entries with
  | nil => exact List.pairwise_singleton _ _
  | cons e rest ih =>
    obtain ⟨k, v⟩ := e
    rw [Assoc.insert]
    have hrest := List.pairwise_cons.1 h
    split
    · rename_i hlt
      refine List.pairwise_cons.2 ⟨fun e he => ?_, h⟩
      rcases List.mem_cons.1 he with he | he
      · exact he ▸ hlt
      · exact Std.TransCmp.lt_trans hlt (hrest.1 e he)
    · rename_i heq
      refine List.pairwise_cons.2 ⟨fun e he => ?_, hrest.2⟩
      rw [Std.LawfulEqOrd.eq_of_compare heq]
      exact hrest.1 e he
    · rename_i hgt
      refine List.pairwise_cons.2 ⟨fun e he => ?_, ih hrest.2⟩
      rcases mem_of_mem_insert he with he | he
      · subst he
        exact Std.OrientedCmp.lt_of_gt hgt
      · exact hrest.1 e he

theorem Sorted.erase {entries : List (α × β)} (h : Sorted entries) (key : α) :
    Sorted (Assoc.erase key entries) := by
  induction entries with
  | nil => exact sorted_nil
  | cons e rest ih =>
    obtain ⟨k, v⟩ := e
    have hrest := List.pairwise_cons.1 h
    rw [Assoc.erase]
    split
    · exact hrest.2
    · refine List.pairwise_cons.2 ⟨fun e he => hrest.1 e ?_, ih hrest.2⟩
      have mem_of_erase : ∀ (l : List (α × β)) (x : α × β), x ∈ Assoc.erase key l → x ∈ l := by
        intro l
        induction l with
        | nil => exact fun _ hx => hx
        | cons a l ih =>
          intro x hx
          rw [Assoc.erase] at hx
          split at hx
          · exact List.mem_cons_of_mem _ hx
          · exact List.mem_cons.2 ((List.mem_cons.1 hx).imp_right (ih x))
      exact mem_of_erase rest e he

theorem sorted_ofList [Std.TransOrd α] [Std.LawfulEqOrd α] (entries : List (α × β)) :
    Sorted (ofList entries) := by
  have step : ∀ (l : List (α × β)) (acc : List (α × β)), Sorted acc →
      Sorted (l.foldl (fun acc e => Assoc.insert e.1 e.2 acc) acc) := by
    intro l
    induction l with
    | nil => exact fun _ h => h
    | cons e l ih => exact fun acc h => ih _ (h.insert e.1 e.2)
  exact step entries [] sorted_nil

end LayeredConfig.Assoc
