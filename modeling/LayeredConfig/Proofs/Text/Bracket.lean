import Mathlib.Data.List.Basic

/-!
# Nested brackets

In a nested text the round, square and curly brackets come in pairs, and what stands between
the two brackets of a pair is nested in its turn (`Nested`).

Whether a text is nested is decided in one pass that keeps the brackets it waits for
(`nested_iff`).  The pass can be made part by part, and from a part to the next nothing counts
but what is waited for.
-/

namespace LayeredConfig.Text

def closing? : Char → Option Char
  | '(' => some ')'
  | '[' => some ']'
  | '\x7b' => some '\x7d'
  | _ => none

def isClosing (c : Char) : Bool := c == ')' || c == ']' || c == '\x7d'

def isBracket (c : Char) : Bool := (closing? c).isSome || isClosing c

/-- A text whose brackets are properly nested and closed. -/
inductive Nested : List Char → Prop where
  | nil : Nested []
  | other {c : Char} {rest : List Char} (hc : isBracket c = false) (hrest : Nested rest) :
    Nested (c :: rest)
  | pair {start stop : Char} {inner rest : List Char} (hpair : closing? start = some stop)
    (hinner : Nested inner) (hrest : Nested rest) : Nested (start :: inner ++ stop :: rest)

theorem Nested.append {text more : List Char} (h : Nested text) (hmore : Nested more) :
    Nested (text ++ more) := by
  induction h with
  | nil => exact hmore
  | other hc _ ih => exact .other hc ih
  | pair hpair hinner _ _ ih =>
    rw [List.append_assoc, List.cons_append]
    exact .pair hpair hinner ih

theorem mem_of_isBracket {c : Char} (h : isBracket c = true) :
    c ∈ ['(', ')', '[', ']', '\x7b', '\x7d'] := by
  unfold isBracket closing? isClosing at h
  split at h
  · decide
  · decide
  · decide
  · simp at h
    rcases h with (rfl | rfl) | rfl <;> decide

theorem isClosing_of_closing? {start stop : Char} (h : closing? start = some stop) :
    isClosing start = false ∧ isClosing stop = true := by
  unfold closing? at h
  split at h <;> cases h <;> decide

/-! ## Waiting for brackets -/

/-- What is waited for after a character.  A closing bracket has to be the one that comes next,
an opening one adds the one that closes it. -/
def await (awaited : List Char) (c : Char) : Option (List Char) :=
  if isClosing c then if awaited.head? = some c then some awaited.tail else none
  else some ((closing? c).toList ++ awaited)

/-- What is waited for after a text. -/
def awaitAll (awaited text : List Char) : Option (List Char) := text.foldlM await awaited

@[simp] theorem awaitAll_nil (awaited : List Char) : awaitAll awaited [] = some awaited := rfl

theorem awaitAll_cons (awaited : List Char) (c : Char) (cs : List Char) :
    awaitAll awaited (c :: cs) = (await awaited c).bind fun next => awaitAll next cs :=
  List.foldlM_cons

theorem awaitAll_append (awaited text more : List Char) :
    awaitAll awaited (text ++ more) =
      (awaitAll awaited text).bind fun next => awaitAll next more :=
  List.foldlM_append

theorem await_of_not_isBracket {c : Char} (h : isBracket c = false) (awaited : List Char) :
    await awaited c = some awaited := by
  obtain ⟨hopen, hclose⟩ := Bool.or_eq_false_iff.1 h
  have hnone : closing? c = none := by simpa using hopen
  simp [await, hclose, hnone]

theorem await_open {start stop : Char} (h : closing? start = some stop) (awaited : List Char) :
    await awaited start = some (stop :: awaited) := by
  simp [await, (isClosing_of_closing? h).1, h]

theorem await_close {c : Char} (h : isClosing c = true) (awaited : List Char) :
    await (c :: awaited) c = some awaited := by
  simp [await, h]

theorem awaitAll_filter (awaited text : List Char) :
    awaitAll awaited (text.filter isBracket) = awaitAll awaited text := by
  induction text generalizing awaited with
  | nil => rfl
  | cons c cs ih =>
    by_cases hc : isBracket c = true
    · rw [List.filter_cons_of_pos hc, awaitAll_cons, awaitAll_cons]
      exact Option.bind_congr fun next _ => ih next
    · rw [List.filter_cons_of_neg hc, awaitAll_cons,
        await_of_not_isBracket (Bool.eq_false_iff.2 hc), ih]
      rfl

/-! ## Nested texts -/

theorem Nested.awaitAll_eq {text : List Char} (h : Nested text) (awaited : List Char) :
    awaitAll awaited text = some awaited := by
  induction h generalizing awaited with
  | nil => rfl
  | other hc _ ih => rw [awaitAll_cons, await_of_not_isBracket hc, Option.bind_some, ih]
  | pair hpair _ _ ihinner ihrest =>
    rw [List.cons_append, awaitAll_cons, await_open hpair, Option.bind_some, awaitAll_append,
      ihinner, Option.bind_some, awaitAll_cons, await_close (isClosing_of_closing? hpair).2,
      Option.bind_some, ihrest]

/-- A text that comes to all that is waited for, and is nested but for that. -/
def Completes : (awaited text : List Char) → Prop
  | [], text => Nested text
  | stop :: awaited, text =>
    ∃ inner rest, text = inner ++ stop :: rest ∧ Nested inner ∧ Completes awaited rest

theorem Completes.prepend {awaited text : List Char} (h : Completes awaited text)
    (front : List Char) (hfront : ∀ text, Nested text → Nested (front ++ text)) :
    Completes awaited (front ++ text) := by
  cases awaited with
  | nil => exact hfront text h
  | cons stop awaited =>
    obtain ⟨inner, rest, rfl, hinner, hrest⟩ := h
    exact ⟨front ++ inner, rest, (List.append_assoc ..).symm, hfront inner hinner, hrest⟩

theorem completes_of_awaitAll {awaited text : List Char} (h : awaitAll awaited text = some []) :
    Completes awaited text := by
  induction text generalizing awaited with
  | nil =>
    obtain rfl := Option.some.inj h
    exact .nil
  | cons c cs ih =>
    obtain ⟨next, hc, hcs⟩ := Option.bind_eq_some_iff.1 (awaitAll_cons awaited c cs ▸ h)
    have hrest := ih hcs
    by_cases hclosing : isClosing c = true
    · -- the bracket is the first of those that are waited for
      rw [await, if_pos hclosing] at hc
      split at hc
      · rename_i hhead
        obtain ⟨rest, rfl⟩ := List.head?_eq_some_iff.1 hhead
        obtain rfl := Option.some.inj hc
        exact ⟨[], cs, rfl, .nil, hrest⟩
      · exact nomatch hc
    · cases hopen : closing? c with
      | none =>
        have hother : isBracket c = false := by simp [isBracket, hopen, hclosing]
        rw [await_of_not_isBracket hother] at hc
        obtain rfl := Option.some.inj hc
        exact hrest.prepend [c] fun _ => .other hother
      | some stop =>
        rw [await_open hopen] at hc
        obtain rfl := Option.some.inj hc
        obtain ⟨inner, rest, rfl, hinner, hrest⟩ := hrest
        have hpair := hrest.prepend (c :: inner ++ [stop]) fun text htext => by
          rw [List.append_assoc]
          exact .pair hopen hinner htext
        rwa [List.append_assoc] at hpair

theorem nested_iff {text : List Char} : Nested text ↔ awaitAll [] text = some [] :=
  ⟨fun h => h.awaitAll_eq [], completes_of_awaitAll⟩

instance instDecidableNested (text : List Char) : Decidable (Nested text) :=
  decidable_of_iff _ nested_iff.symm

theorem nested_filter_iff {text : List Char} : Nested (text.filter isBracket) ↔ Nested text := by
  rw [nested_iff, nested_iff, awaitAll_filter]

theorem Nested.between {before inner after : List Char} (h : Nested inner) (awaited : List Char)
    (hbefore : awaitAll [] before = some awaited) (hafter : awaitAll awaited after = some []) :
    Nested (before ++ inner ++ after) := by
  rw [nested_iff, awaitAll_append, awaitAll_append, hbefore, Option.bind_some, h.awaitAll_eq,
    Option.bind_some, hafter]

theorem nested_flatMap {α : Type} {items : List α} {f : α → List Char}
    (h : ∀ a ∈ items, Nested (f a)) : Nested (items.flatMap f) := by
  induction items with
  | nil => exact .nil
  | cons a items ih =>
    obtain ⟨ha, hitems⟩ := List.forall_mem_cons.1 h
    exact ha.append (ih hitems)

end LayeredConfig.Text
