import LayeredConfig.Assoc

/-!
# Looking up entries

What `find?` gives after each operation on an entry list.  Insertion is seen at
its own key only, whatever the order of the list.  Where no key stands twice,
looking up is membership (`find?_eq_some_iff`), and a list in key order is
known by its lookups (`Sorted.eq_of_find?_eq`) as well as by its members
(`Sorted.eq_of_perm`).
-/

namespace LayeredConfig.Assoc

variable {α β : Type}

def keys (entries : List (α × β)) : List α := entries.map (·.1)

@[simp] theorem keys_nil : keys ([] : List (α × β)) = [] := rfl

@[simp] theorem keys_cons (e : α × β) (entries : List (α × β)) :
    keys (e :: entries) = e.1 :: keys entries := rfl

@[simp] theorem keys_append (entries more : List (α × β)) :
    keys (entries ++ more) = keys entries ++ keys more := List.map_append

theorem mem_keys_of_mem {entries : List (α × β)} {e : α × β} (h : e ∈ entries) :
    e.1 ∈ keys entries := List.mem_map_of_mem h

theorem filter_filterMap {γ : Type} (p : α → Bool) (f : α × β → Option γ)
    (entries : List (α × β)) :
    ((entries.filterMap fun e => (f e).map (e.1, ·)).filter fun e => p e.1) =
      (entries.filter fun e => p e.1).filterMap fun e => (f e).map (e.1, ·) := by
  rw [List.filter_filterMap, List.filterMap_filter]
  congr 1
  funext e
  cases f e with
  | none => simp
  | some c => by_cases hp : p e.1 = true <;> simp [hp]

variable [Ord α]

theorem Sorted.filter {entries : List (α × β)} (h : Sorted entries) (p : α × β → Bool) :
    Sorted (entries.filter p) :=
  List.Pairwise.filter p h

theorem Sorted.filterMap {γ : Type} {entries : List (α × β)} (h : Sorted entries)
    (f : α × β → Option γ) : Sorted (entries.filterMap fun e => (f e).map (e.1, ·)) := by
  refine List.Pairwise.filterMap _ (fun a b hab a' ha' b' hb' => ?_) h
  obtain ⟨c, -, rfl⟩ := Option.map_eq_some_iff.1 ha'
  obtain ⟨d, -, rfl⟩ := Option.map_eq_some_iff.1 hb'
  exact hab

theorem Sorted.eq_of_perm [Std.TransOrd α] {entries more : List (α × β)} (h : Sorted entries)
    (hmore : Sorted more) (hperm : entries.Perm more) : entries = more := by
  refine hperm.eq_of_pairwise (fun a b _ _ hab hba => ?_) h hmore
  exact absurd (Std.OrientedCmp.gt_of_lt hab) (by rw [hba]; exact nofun)

theorem erase_sublist (key : α) (entries : List (α × β)) :
    (erase key entries).Sublist entries := by
  induction entries with
  | nil => exact List.Sublist.refl _
  | cons e rest ih =>
    obtain ⟨k, v⟩ := e
    rw [erase]
    split
    · exact List.sublist_cons_self _ _
    · exact ih.cons_cons _

variable [Std.LawfulEqOrd α]

@[simp] theorem find?_cons_self (key : α) (value : β) (entries : List (α × β)) :
    find? key ((key, value) :: entries) = some value := by
  rw [find?, if_pos Std.ReflCmp.compare_self]

theorem find?_cons_of_ne {key k : α} (h : key ≠ k) (value : β) (entries : List (α × β)) :
    find? key ((k, value) :: entries) = find? key entries := by
  rw [find?, if_neg fun heq => h (Std.LawfulEqOrd.eq_of_compare heq)]

theorem mem_of_find?_eq_some {key : α} {value : β} {entries : List (α × β)}
    (h : find? key entries = some value) : (key, value) ∈ entries := by
  induction entries with
  | nil => exact nomatch h
  | cons e rest ih =>
    obtain ⟨k, v⟩ := e
    by_cases hk : key = k
    · subst hk
      rw [find?_cons_self] at h
      rw [Option.some.inj h]
      exact List.mem_cons_self
    · rw [find?_cons_of_ne hk] at h
      exact List.mem_cons_of_mem _ (ih h)

theorem find?_eq_none_iff {key : α} {entries : List (α × β)} :
    find? key entries = none ↔ key ∉ keys entries := by
  induction entries with
  | nil => simp [find?]
  | cons e rest ih =>
    obtain ⟨k, v⟩ := e
    by_cases hk : key = k
    · subst hk
      simp
    · rw [find?_cons_of_ne hk, ih]
      simp [hk]

theorem find?_eq_some_iff {key : α} {value : β} {entries : List (α × β)}
    (hkeys : (keys entries).Nodup) :
    find? key entries = some value ↔ (key, value) ∈ entries := by
  refine ⟨mem_of_find?_eq_some, fun h => ?_⟩
  induction entries with
  | nil => exact nomatch h
  | cons e rest ih =>
    obtain ⟨k, v⟩ := e
    obtain ⟨hk, hrest⟩ := List.nodup_cons.1 hkeys
    rcases List.mem_cons.1 h with heq | hmem
    · obtain ⟨rfl, rfl⟩ := Prod.mk.inj heq
      exact find?_cons_self _ _ _
    · have hne : key ≠ k := by
        rintro rfl
        exact hk (mem_keys_of_mem (e := (key, value)) hmem)
      rw [find?_cons_of_ne hne]
      exact ih hrest hmem

theorem find?_append (key : α) (entries more : List (α × β)) :
    find? key (entries ++ more) = (find? key entries).or (find? key more) := by
  induction entries with
  | nil => simp [find?]
  | cons e rest ih =>
    obtain ⟨k, v⟩ := e
    by_cases hk : key = k
    · subst hk
      simp
    · rw [List.cons_append, find?_cons_of_ne hk, find?_cons_of_ne hk, ih]

theorem find?_filter (p : α → Bool) (key : α) (entries : List (α × β)) :
    find? key (entries.filter fun e => p e.1) = if p key then find? key entries else none := by
  induction entries with
  | nil => simp [find?]
  | cons e rest ih =>
    obtain ⟨k, v⟩ := e
    by_cases hk : key = k
    · subst hk
      by_cases hp : p key = true
      · simp [hp]
      · rw [List.filter_cons_of_neg (by exact hp), ih, if_neg hp, if_neg hp]
    · by_cases hp : p k = true
      · rw [List.filter_cons_of_pos (by exact hp), find?_cons_of_ne hk, find?_cons_of_ne hk, ih]
      · rw [List.filter_cons_of_neg (by exact hp), find?_cons_of_ne hk, ih]

theorem find?_filterMap {γ : Type} {entries : List (α × β)} (hkeys : (keys entries).Nodup)
    (f : α × β → Option γ) (key : α) :
    find? key (entries.filterMap fun e => (f e).map (e.1, ·)) =
      (find? key entries).bind fun value => f (key, value) := by
  induction entries with
  | nil => rfl
  | cons e rest ih =>
    obtain ⟨k, v⟩ := e
    obtain ⟨hk, hrest⟩ := List.nodup_cons.1 hkeys
    rw [List.filterMap_cons]
    by_cases hkey : key = k
    · subst hkey
      have hnone : find? key rest = none := find?_eq_none_iff.2 hk
      cases hf : f (key, v) with
      | none => simp [ih hrest, hnone, hf]
      | some c => simp [hf]
    · cases f (k, v) with
      | none => simp [ih hrest, find?_cons_of_ne hkey]
      | some c => simp [ih hrest, find?_cons_of_ne hkey]

theorem find?_eq_of_perm {entries more : List (α × β)} (h : entries.Perm more)
    (hkeys : (keys entries).Nodup) (key : α) : find? key entries = find? key more := by
  have hkeys' : (keys more).Nodup := (h.map _).nodup_iff.1 hkeys
  cases hmore : find? key more with
  | none =>
    rw [find?_eq_none_iff] at hmore ⊢
    exact fun hmem => hmore ((h.map _).mem_iff.1 hmem)
  | some value =>
    rw [find?_eq_some_iff hkeys'] at hmore
    exact (find?_eq_some_iff hkeys).2 (h.mem_iff.2 hmore)

/-! ## After an operation -/

@[simp] theorem find?_insert_self (key : α) (value : β) (entries : List (α × β)) :
    find? key (insert key value entries) = some value := by
  induction entries with
  | nil => exact find?_cons_self key value []
  | cons e rest ih =>
    obtain ⟨k, v⟩ := e
    rw [insert]
    split
    · exact find?_cons_self key value _
    · exact find?_cons_self key value rest
    · rename_i hgt
      have hne : key ≠ k := by
        intro heq
        have hself : compare key key = .eq := Std.ReflCmp.compare_self
        rw [← heq, hself] at hgt
        cases hgt
      rw [find?_cons_of_ne hne, ih]

theorem find?_insert_of_ne {key k : α} (h : k ≠ key) (value : β) (entries : List (α × β)) :
    find? k (insert key value entries) = find? k entries := by
  induction entries with
  | nil => exact find?_cons_of_ne h value []
  | cons e rest ih =>
    obtain ⟨k', v⟩ := e
    rw [insert]
    split
    · exact find?_cons_of_ne h value _
    · rename_i heq
      rw [find?_cons_of_ne h, ← Std.LawfulEqOrd.eq_of_compare heq, find?_cons_of_ne h]
    · by_cases hk : k = k'
      · subst hk
        simp
      · rw [find?_cons_of_ne hk, find?_cons_of_ne hk, ih]

theorem find?_erase_of_ne {key k : α} (h : k ≠ key) (entries : List (α × β)) :
    find? k (erase key entries) = find? k entries := by
  induction entries with
  | nil => rfl
  | cons e rest ih =>
    obtain ⟨k', v⟩ := e
    rw [erase]
    split
    · rename_i heq
      rw [← Std.LawfulEqOrd.eq_of_compare heq, find?_cons_of_ne h]
    · by_cases hk : k = k'
      · subst hk
        simp
      · rw [find?_cons_of_ne hk, find?_cons_of_ne hk, ih]

theorem Sorted.nodup_keys {entries : List (α × β)} (h : Sorted entries) :
    (keys entries).Nodup := by
  refine List.pairwise_map.2 (List.Pairwise.imp (fun {a b} hlt heq => ?_) h)
  have hself : compare a.1 a.1 = .eq := Std.ReflCmp.compare_self
  rw [← heq, hself] at hlt
  exact nomatch hlt

theorem Sorted.find?_erase_self {entries : List (α × β)} (h : Sorted entries) (key : α) :
    find? key (Assoc.erase key entries) = none := by
  induction entries with
  | nil => rfl
  | cons e rest ih =>
    obtain ⟨k, v⟩ := e
    have hkeys := List.nodup_cons.1 h.nodup_keys
    rw [Assoc.erase]
    split
    · rename_i heq
      rw [Std.LawfulEqOrd.eq_of_compare heq, find?_eq_none_iff]
      exact hkeys.1
    · rename_i hne
      rw [find?, if_neg hne]
      exact ih (List.pairwise_cons.1 h).2

/-! ## Lists in key order -/

theorem Sorted.perm_of_find?_eq {entries more : List (α × β)} (h : Sorted entries)
    (hmore : Sorted more) (heq : ∀ key, find? key entries = find? key more) :
    entries.Perm more := by
  have hnodup : ∀ {l : List (α × β)}, (keys l).Nodup → l.Nodup :=
    fun hl => (List.pairwise_map.1 hl).imp fun hne h => hne (congrArg Prod.fst h)
  refine (List.perm_ext_iff_of_nodup (hnodup h.nodup_keys) (hnodup hmore.nodup_keys)).2 fun e => ?_
  rw [← find?_eq_some_iff h.nodup_keys, ← find?_eq_some_iff hmore.nodup_keys, heq]

/-- A list in key order is known by its lookups. -/
theorem Sorted.eq_of_find?_eq [Std.TransOrd α] {entries more : List (α × β)} (h : Sorted entries)
    (hmore : Sorted more) (heq : ∀ key, find? key entries = find? key more) : entries = more :=
  h.eq_of_perm hmore (h.perm_of_find?_eq hmore heq)

theorem Sorted.filter_eq_of_find?_eq [Std.TransOrd α] {entries more : List (α × β)}
    (h : Sorted entries) (hmore : Sorted more) {p : α → Bool}
    (heq : ∀ key, p key = true → find? key entries = find? key more) :
    (entries.filter fun e => p e.1) = more.filter fun e => p e.1 := by
  refine (h.filter _).eq_of_find?_eq (hmore.filter _) fun key => ?_
  rw [find?_filter, find?_filter]
  split
  · exact heq key ‹_›
  · rfl

theorem Sorted.insert_of_find? [Std.TransOrd α] {entries : List (α × β)} (h : Sorted entries)
    {key : α} {value : β} (hfind : find? key entries = some value) :
    Assoc.insert key value entries = entries := by
  refine (h.insert key value).eq_of_find?_eq h fun k => ?_
  by_cases hk : k = key
  · rw [hk, find?_insert_self, hfind]
  · rw [find?_insert_of_ne hk]

theorem insert_perm_cons {key : α} {entries : List (α × β)} (h : key ∉ keys entries)
    (value : β) : (insert key value entries).Perm ((key, value) :: entries) := by
  induction entries with
  | nil => exact List.Perm.refl _
  | cons e rest ih =>
    obtain ⟨k, v⟩ := e
    rw [keys_cons, List.mem_cons, not_or] at h
    rw [insert]
    split
    · exact List.Perm.refl _
    · rename_i heq
      exact absurd (Std.LawfulEqOrd.eq_of_compare heq) h.1
    · exact ((ih h.2).cons _).trans (List.Perm.swap _ _ _)

theorem ofList_perm {entries : List (α × β)} (h : (keys entries).Nodup) :
    (ofList entries).Perm entries := by
  have step : ∀ (l acc : List (α × β)), (keys (acc ++ l)).Nodup →
      (l.foldl (fun acc e => insert e.1 e.2 acc) acc).Perm (acc ++ l) := by
    intro l
    induction l with
    | nil => simp
    | cons e l ih =>
      intro acc hacc
      have hperm : (insert e.1 e.2 acc ++ l).Perm (acc ++ e :: l) := by
        have hnew : e.1 ∉ keys acc := by
          rw [keys_append, List.nodup_append] at hacc
          exact fun hmem => hacc.2.2 _ hmem _ (List.mem_cons_self) rfl
        exact ((insert_perm_cons hnew e.2).append_right l).trans List.perm_middle.symm
      refine (ih _ ?_).trans hperm
      exact (hperm.map _).nodup_iff.2 hacc
  exact step entries [] h

theorem find?_ofList {entries : List (α × β)} (h : (keys entries).Nodup) (key : α) :
    find? key (ofList entries) = find? key entries :=
  (find?_eq_of_perm (ofList_perm h).symm h key).symm

end LayeredConfig.Assoc
