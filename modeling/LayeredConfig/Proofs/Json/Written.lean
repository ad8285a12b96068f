import LayeredConfig.Json.Writer
import LayeredConfig.Proofs.Json.Merge
import LayeredConfig.Proofs.Number.Decimal
import Mathlib.Data.List.DropRight

/-!
# Reading what was written

The reader takes the pretty text of a document for the sorted document
(`parse?_prettyText`).  It does so for the `Writable` documents: every number is
an integer of 64 bits, and nothing nests deeper than the reader goes.

The reader passes over blanks before it looks at anything, so what is said here
of a text is said of every text that is the same after its leading blanks.
-/

namespace LayeredConfig.Json

open Reader

/-- The documents that are read back, with the levels of arrays and objects that they
may have. -/
inductive Writable : Nat → Json → Prop
  | null {depth : Nat} : Writable depth null
  | bool {depth : Nat} (b : Bool) : Writable depth (bool b)
  | number {depth : Nat} {n : Int} (hmin : -(twoTo 63 : Int) ≤ n)
    (hmax : n ≤ (significandLimit : Int)) : Writable depth (number (.int n))
  | string {depth : Nat} (s : String) : Writable depth (string s)
  | array {depth : Nat} {items : List Json} (h : ∀ item ∈ items, Writable depth item) :
    Writable (depth + 1) (array items)
  | object {depth : Nat} {members : Members} (h : ∀ m ∈ members, Writable depth m.2) :
    Writable (depth + 1) (object members)

/-! ## Strings -/

theorem hexValue?_hexDigit : ∀ n < 16, hexValue? (hexDigit n) = some n := by decide

theorem escape_control {c : Char} (hc : c.toNat < 0x20) (cs : List Char) :
    escape ('u' :: '0' :: '0' :: hexDigit (c.toNat / 16) :: hexDigit (c.toNat % 16) :: cs) =
      some (c, cs) := by
  have hzero : hexValue? '0' = some 0 := by decide
  have hhigh := hexValue?_hexDigit (c.toNat / 16) (by omega)
  have hlow := hexValue?_hexDigit (c.toNat % 16) (by omega)
  have hquad : hexQuad ('0' :: '0' :: hexDigit (c.toNat / 16) :: hexDigit (c.toNat % 16) :: cs) =
      some (c.toNat, cs) := by
    simp only [hexQuad, hzero, hhigh, hlow, Option.bind_eq_bind, Option.bind_some]
    congr 2
    omega
  have hnotLow : isLowSurrogate c.toNat = false := by
    simp [isLowSurrogate]
    omega
  have hnotHigh : isHighSurrogate c.toNat = false := by
    simp [isHighSurrogate]
    omega
  simp [escape, hquad, hnotLow, hnotHigh]

/-- A written character is read in one step. -/
theorem stringRest_escapeChar (c : Char) (fuel : Nat) (cs acc : List Char) :
    stringRest (fuel + 1) (escapeChar c ++ cs) acc = stringRest fuel cs (c :: acc) := by
  by_cases hshort : c ∈ ['"', '\\', '\x08', '\x0c', '\n', '\r', '\t']
  · simp only [List.mem_cons, List.not_mem_nil, or_false] at hshort
    rcases hshort with rfl | rfl | rfl | rfl | rfl | rfl | rfl <;>
      simp [escapeChar, stringRest, escape]
  · simp only [List.mem_cons, List.not_mem_nil, or_false, not_or] at hshort
    obtain ⟨hquote, hslash, hback, hfeed, hline, hreturn, htab⟩ := hshort
    by_cases hc : c.toNat < 0x20
    · have hwritten : escapeChar c = ['\\', 'u', '0', '0', hexDigit (c.toNat / 16),
          hexDigit (c.toNat % 16)] := by
        simp [escapeChar, hquote, hslash, hback, hfeed, hline, hreturn, htab, hc]
      rw [hwritten]
      simp [stringRest, escape_control hc]
    · have hwritten : escapeChar c = [c] := by
        simp [escapeChar, hquote, hslash, hback, hfeed, hline, hreturn, htab, hc]
      rw [hwritten]
      simp [stringRest, hquote, hslash, hc]

theorem escapeChar_ne_nil (c : Char) : escapeChar c ≠ [] := by
  unfold escapeChar
  repeat' split
  all_goals simp

theorem stringRest_flatMap_escapeChar {cs : List Char} {fuel : Nat}
    (hfuel : (cs.flatMap escapeChar).length < fuel) (rest acc : List Char) :
    stringRest fuel (cs.flatMap escapeChar ++ '"' :: rest) acc =
      some (String.ofList (acc.reverse ++ cs), rest) := by
  induction cs generalizing fuel acc with
  | nil =>
    cases fuel with
    | zero => exact absurd hfuel (Nat.not_lt_zero _)
    | succ fuel => simp [stringRest]
  | cons c cs ih =>
    cases fuel with
    | zero => exact absurd hfuel (Nat.not_lt_zero _)
    | succ fuel =>
      have hpos := List.length_pos_iff.2 (escapeChar_ne_nil c)
      rw [List.flatMap_cons, List.length_append] at hfuel
      rw [List.flatMap_cons, List.append_assoc, stringRest_escapeChar, ih (by omega)]
      simp

theorem stringRest_writeString (s : String) (rest : List Char) :
    let cs := s.toList.flatMap escapeChar ++ '"' :: rest
    stringRest (cs.length + 1) cs [] = some (s, rest) := by
  intro cs
  have hfuel : (s.toList.flatMap escapeChar).length < cs.length + 1 := by
    simp only [cs, List.length_append]
    omega
  rw [stringRest_flatMap_escapeChar hfuel]
  simp

/-! ## Blanks -/

theorem skipBlanks_cons {c : Char} (hc : isBlank c = false) (cs : List Char) :
    skipBlanks (c :: cs) = c :: cs := by
  simp [skipBlanks, hc]

theorem skipBlanks_newLine_append (level : Nat) (cs : List Char) :
    skipBlanks (newLine level ++ cs) = skipBlanks cs := by
  have hblank : ∀ c ∈ newLine level, isBlank c = true := by
    intro c hc
    rcases List.mem_cons.1 hc with rfl | hc
    · rfl
    · rw [(List.mem_replicate.1 hc).2]
      rfl
  exact List.dropWhile_append_of_pos hblank

@[simp] theorem length_newLine (level : Nat) : (newLine level).length = 2 * level + 1 := by
  simp [newLine]

@[simp] theorem skipBlanks_skipBlanks (cs : List Char) :
    skipBlanks (skipBlanks cs) = skipBlanks cs :=
  List.dropWhile_idempotent isBlank cs

theorem endsNumber_newLine_append (level : Nat) (cs : List Char) :
    EndsNumber (newLine level ++ cs) := by
  refine ⟨?_, rfl⟩
  intro c hc
  obtain rfl : c = '\n' := by simpa [newLine, eq_comm] using hc
  rfl

theorem endsNumber_comma (cs : List Char) : EndsNumber (',' :: cs) := by
  refine ⟨?_, rfl⟩
  intro c hc
  obtain rfl : c = ',' := by simpa [eq_comm] using hc
  rfl

/-! ## Values -/

/-- The written form of a document begins with no blank and closes no array. -/
theorem Writable.pretty_eq_cons {depth : Nat} {json : Json} (h : Writable depth json)
    (level : Nat) :
    ∃ c cs, json.pretty level = c :: cs ∧ isBlank c = false ∧ c ≠ ']' := by
  cases h with
  | null => exact ⟨_, _, rfl, rfl, by decide⟩
  | bool b => cases b <;> exact ⟨_, _, rfl, rfl, by decide⟩
  | string s => exact ⟨_, _, rfl, rfl, by decide⟩
  | @number _ n =>
    cases hlist : (toString n).toList with
    | nil =>
      rw [toList_toString_int] at hlist
      split at hlist
      · exact absurd hlist Nat.toDigits_ne_nil
      · exact nomatch hlist
    | cons c cs =>
      have hhead := head_toString_int hlist
      refine ⟨c, cs, hlist, ?_, ?_⟩
      · by_contra hblank
        simp only [isBlank, Bool.not_eq_false, Bool.or_eq_true, beq_iff_eq] at hblank
        rcases hblank with ((rfl | rfl) | rfl) | rfl <;> exact absurd hhead (by decide)
      · rintro rfl
        exact absurd hhead (by decide)
  | @array _ items => cases items <;> exact ⟨_, _, rfl, rfl, by decide⟩
  | @object _ members => cases members <;> exact ⟨_, _, rfl, rfl, by decide⟩

theorem value_of_number {fuel depth : Nat} {cs rest : List Char} {c : Char}
    (hc : (c.isDigit || c == '-') = true) (hcs : skipBlanks cs = c :: rest) :
    value (fuel + 1) depth cs =
      (Reader.number (c :: rest)).map fun read => (.number read.1, read.2) := by
  rw [value, hcs]
  split
  case h_7 => cases h : Reader.number (c :: rest) <;> simp
  -- No other document begins like a number.
  all_goals
    rename_i heq
    rw [(List.cons.inj heq).1] at hc
    exact absurd hc (by decide)

theorem Writable.skipBlanks_pretty_append {depth : Nat} {json : Json} (h : Writable depth json)
    (level : Nat) (more : List Char) :
    skipBlanks (json.pretty level ++ more) = json.pretty level ++ more := by
  obtain ⟨c, cs, hpretty, hblank, -⟩ := h.pretty_eq_cons level
  rw [hpretty]
  exact skipBlanks_cons hblank _

/-- With enough fuel, a document is read from its text, sorted. -/
def ReadsBack (depth : Nat) (json : Json) : Prop :=
  ∀ (fuel level : Nat) (cs rest : List Char), (json.pretty level).length ≤ fuel →
    EndsNumber rest → skipBlanks cs = json.pretty level ++ rest →
      value fuel depth cs = some (json.sort, rest)

/-! ## Items and members -/

section Parts

variable {depth level outer fuel : Nat} {cs rest : List Char}

theorem items_step {item : Json} (hread : ReadsBack depth item)
    (hfuel : (item.pretty level).length ≤ fuel) (hrest : EndsNumber rest)
    (hcs : skipBlanks cs = item.pretty level ++ rest) (acc : List Json) :
    Reader.items (fuel + 1) depth cs acc =
      match skipBlanks rest with
      | ',' :: rest => Reader.items fuel depth rest (item.sort :: acc)
      | ']' :: rest => some ((item.sort :: acc).reverse, rest)
      | _ => none := by
  rw [Reader.items, hread _ _ _ _ hfuel hrest hcs]
  rfl

theorem items_prettyItems {items : List Json}
    (hread : ∀ item ∈ items, Writable depth item ∧ ReadsBack depth item) (hnil : items ≠ [])
    (hfuel : (prettyItems level items).length ≤ fuel) {acc : List Json}
    (hcs : skipBlanks cs =
      skipBlanks (prettyItems level items ++ (newLine outer ++ ']' :: rest))) :
    Reader.items fuel depth cs acc = some (acc.reverse ++ items.map sort, rest) := by
  induction items generalizing fuel cs acc with
  | nil => exact absurd rfl hnil
  | cons item items ih =>
    obtain ⟨⟨hwritable, hitem⟩, hitems⟩ := List.forall_mem_cons.1 hread
    cases items with
    | nil =>
      simp only [prettyItems, List.length_append, length_newLine] at hfuel
      simp only [prettyItems, List.append_assoc, skipBlanks_newLine_append,
        hwritable.skipBlanks_pretty_append] at hcs
      obtain ⟨fuel, rfl⟩ : ∃ n, fuel = n + 1 := ⟨fuel - 1, by omega⟩
      rw [items_step hitem (by omega) (endsNumber_newLine_append outer _) hcs]
      simp [skipBlanks_newLine_append, skipBlanks_cons, isBlank]
    | cons next items =>
      simp only [prettyItems, List.length_append, List.length_cons, length_newLine] at hfuel
      simp only [prettyItems, List.append_assoc, skipBlanks_newLine_append,
        hwritable.skipBlanks_pretty_append, List.cons_append] at hcs
      obtain ⟨fuel, rfl⟩ : ∃ n, fuel = n + 1 := ⟨fuel - 1, by omega⟩
      rw [items_step hitem (by omega) (endsNumber_comma _) hcs, skipBlanks_cons rfl]
      simp only
      rw [ih hitems (List.cons_ne_nil _ _) (by omega) rfl]
      simp

theorem members_step {json : Json} (hwritable : Writable depth json)
    (hread : ReadsBack depth json) (hfuel : (json.pretty level).length ≤ fuel)
    (hrest : EndsNumber rest) {key : String}
    (hcs : skipBlanks cs = writeString key ++ ':' :: ' ' :: (json.pretty level ++ rest))
    (acc : Members) :
    Reader.members (fuel + 1) depth cs acc =
      match skipBlanks rest with
      | ',' :: rest => Reader.members fuel depth rest (Assoc.insert key json.sort acc)
      | '\x7d' :: rest => some (Assoc.insert key json.sort acc, rest)
      | _ => none := by
  have hquoted : writeString key ++ ':' :: ' ' :: (json.pretty level ++ rest) =
      '"' :: (key.toList.flatMap escapeChar ++ '"' ::
        (':' :: ' ' :: (json.pretty level ++ rest))) := by
    simp [writeString]
  have hblank : skipBlanks (' ' :: (json.pretty level ++ rest)) = json.pretty level ++ rest :=
    hwritable.skipBlanks_pretty_append level rest
  rw [Reader.members, hcs, hquoted]
  simp only [stringRest_writeString, Option.bind_eq_bind, Option.bind_some]
  rw [skipBlanks_cons rfl]
  simp only
  rw [hread _ _ _ _ hfuel hrest hblank]
  rfl

theorem members_prettyMembers {members : Members}
    (hread : ∀ m ∈ members, Writable depth m.2 ∧ ReadsBack depth m.2) (hnil : members ≠ [])
    (hfuel : (prettyMembers level members).length ≤ fuel) {acc : Members}
    (hcs : skipBlanks cs =
      skipBlanks (prettyMembers level members ++ (newLine outer ++ '\x7d' :: rest))) :
    Reader.members fuel depth cs acc = some (sortMembers members acc, rest) := by
  have hquote : ∀ key cs, skipBlanks (writeString key ++ cs) = writeString key ++ cs :=
    fun key cs => skipBlanks_cons rfl _
  induction members generalizing fuel cs acc with
  | nil => exact absurd rfl hnil
  | cons m members ih =>
    obtain ⟨key, json⟩ := m
    obtain ⟨hone, hmembers⟩ := List.forall_mem_cons.1 hread
    obtain ⟨hwritable, hjson⟩ : Writable depth json ∧ ReadsBack depth json := hone
    cases members with
    | nil =>
      simp only [prettyMembers, List.length_append, List.length_cons, length_newLine] at hfuel
      simp only [prettyMembers, List.append_assoc, skipBlanks_newLine_append, hquote,
        List.cons_append] at hcs
      obtain ⟨fuel, rfl⟩ : ∃ n, fuel = n + 1 := ⟨fuel - 1, by omega⟩
      rw [members_step hwritable hjson (by omega) (endsNumber_newLine_append outer _) hcs]
      simp [skipBlanks_newLine_append, skipBlanks_cons, isBlank, sortMembers]
    | cons next members =>
      simp only [prettyMembers, List.length_append, List.length_cons, length_newLine] at hfuel
      simp only [prettyMembers, List.append_assoc, skipBlanks_newLine_append, hquote,
        List.cons_append] at hcs
      obtain ⟨fuel, rfl⟩ : ∃ n, fuel = n + 1 := ⟨fuel - 1, by omega⟩
      rw [members_step hwritable hjson (by omega) (endsNumber_comma _) hcs, skipBlanks_cons rfl]
      simp only
      rw [ih hmembers (List.cons_ne_nil _ _) (by omega) rfl, ← sortMembers]

end Parts

/-! ## Documents -/

section Values

variable {fuel depth : Nat} {cs text rest : List Char}

theorem value_of_bracket {items : List Json} (hcs : skipBlanks cs = '[' :: text)
    (hopen : ∀ rest, skipBlanks text ≠ ']' :: rest)
    (hitems : Reader.items fuel depth (skipBlanks text) [] = some (items, rest)) :
    value (fuel + 1) (depth + 1) cs = some (array items, rest) := by
  rw [value, hcs]
  simp only
  rw [hitems]
  rfl

theorem value_of_brace {members : Members} (hcs : skipBlanks cs = '\x7b' :: text)
    (hopen : ∀ rest, skipBlanks text ≠ '\x7d' :: rest)
    (hmembers : Reader.members fuel depth (skipBlanks text) [] = some (members, rest)) :
    value (fuel + 1) (depth + 1) cs = some (object members, rest) := by
  rw [value, hcs]
  simp only
  rw [hmembers]
  rfl

/-- There is always fuel for one step. -/
theorem Writable.readsBack_of_succ {json : Json} (h : Writable depth json)
    (hread : ∀ (fuel level : Nat) (cs rest : List Char), (json.pretty level).length ≤ fuel + 1 →
      EndsNumber rest → skipBlanks cs = json.pretty level ++ rest →
        value (fuel + 1) depth cs = some (json.sort, rest)) : ReadsBack depth json := by
  intro fuel level cs rest hfuel hrest hcs
  obtain ⟨c, first, hpretty, -⟩ := h.pretty_eq_cons level
  cases fuel with
  | zero => simp [hpretty] at hfuel
  | succ fuel => exact hread fuel level cs rest hfuel hrest hcs

theorem readsBack_array {items : List Json}
    (hread : ∀ item ∈ items, Writable depth item ∧ ReadsBack depth item) :
    ReadsBack (depth + 1) (array items) := by
  refine (Writable.array fun item hitem => (hread item hitem).1).readsBack_of_succ ?_
  intro fuel level cs rest hfuel hrest hcs
  rw [sort_array]
  cases items with
  | nil =>
    rw [value, hcs]
    simp [pretty, skipBlanks_cons, isBlank]
  | cons item items =>
    simp only [pretty, List.length_append, List.length_cons, length_newLine] at hfuel
    simp only [pretty, List.append_assoc, List.cons_append, List.nil_append] at hcs
    have hlength : (prettyItems (level + 1) (item :: items)).length ≤ fuel := by omega
    refine value_of_bracket hcs ?_ ?_
    · obtain ⟨hitem, -⟩ := hread item List.mem_cons_self
      obtain ⟨c, first, hpretty, hblank, hne⟩ := hitem.pretty_eq_cons (level + 1)
      have hskip : ∀ more, skipBlanks (newLine (level + 1) ++ (item.pretty (level + 1) ++ more)) =
          c :: (first ++ more) := by
        intro more
        rw [skipBlanks_newLine_append, hitem.skipBlanks_pretty_append, hpretty, List.cons_append]
      intro rest heq
      cases items <;>
        simp only [prettyItems, List.append_assoc, hskip, List.cons.injEq] at heq <;>
        exact hne heq.1
    · exact items_prettyItems hread (List.cons_ne_nil _ _) hlength (skipBlanks_skipBlanks _)

theorem readsBack_object {members : Members}
    (hread : ∀ m ∈ members, Writable depth m.2 ∧ ReadsBack depth m.2) :
    ReadsBack (depth + 1) (object members) := by
  refine (Writable.object fun m hm => (hread m hm).1).readsBack_of_succ ?_
  intro fuel level cs rest hfuel hrest hcs
  rw [sort]
  cases members with
  | nil =>
    rw [value, hcs]
    simp [pretty, skipBlanks_cons, isBlank, sortMembers]
  | cons m members =>
    simp only [pretty, List.length_append, List.length_cons, length_newLine] at hfuel
    simp only [pretty, List.append_assoc, List.cons_append, List.nil_append] at hcs
    have hlength : (prettyMembers (level + 1) (m :: members)).length ≤ fuel := by omega
    refine value_of_brace hcs ?_ ?_
    · have hskip : ∀ more, skipBlanks (newLine (level + 1) ++ (writeString m.1 ++ more)) =
          '"' :: (m.1.toList.flatMap escapeChar ++ ['"'] ++ more) := by
        intro more
        rw [skipBlanks_newLine_append]
        exact skipBlanks_cons rfl _
      intro rest heq
      cases members <;>
        simp only [prettyMembers, List.append_assoc, hskip, List.cons.injEq] at heq <;>
        exact absurd heq.1 (by decide)
    · exact members_prettyMembers hread (List.cons_ne_nil _ _) hlength (skipBlanks_skipBlanks _)

theorem readsBack_string (s : String) : ReadsBack depth (string s) := by
  refine (Writable.string s).readsBack_of_succ ?_
  intro fuel level cs rest _ _ hcs
  have hquoted : pretty level (.string s) ++ rest =
      '"' :: (s.toList.flatMap escapeChar ++ '"' :: rest) := by
    simp [pretty, writeString]
  rw [value, hcs, hquoted]
  simp only [stringRest_writeString]
  rfl

theorem readsBack_number {n : Int} (hmin : -(twoTo 63 : Int) ≤ n)
    (hmax : n ≤ (significandLimit : Int)) : ReadsBack depth (number (.int n)) := by
  have hwritable : Writable depth (number (.int n)) := .number hmin hmax
  refine hwritable.readsBack_of_succ ?_
  intro fuel level cs rest _ hrest hcs
  have hnumber := number_toString_append hmin hmax hrest
  obtain ⟨c, first, hpretty, -⟩ := hwritable.pretty_eq_cons level
  have hlist : (toString n).toList = c :: first := hpretty
  rw [hlist, List.cons_append] at hnumber
  rw [hpretty, List.cons_append] at hcs
  rw [value_of_number (head_toString_int hlist) hcs, hnumber]
  rfl

theorem Writable.readsBack {json : Json} (h : Writable depth json) : ReadsBack depth json := by
  induction h with
  | null =>
    refine Writable.null.readsBack_of_succ ?_
    intro fuel level cs rest _ _ hcs
    have hword : word "ull" ('u' :: 'l' :: 'l' :: rest) = some rest := rfl
    rw [value, hcs]
    simp [pretty, hword, sort]
  | bool b =>
    refine (Writable.bool b).readsBack_of_succ ?_
    intro fuel level cs rest _ _ hcs
    have htrue : word "rue" ('r' :: 'u' :: 'e' :: rest) = some rest := rfl
    have hfalse : word "alse" ('a' :: 'l' :: 's' :: 'e' :: rest) = some rest := rfl
    rw [value, hcs]
    cases b <;> simp [pretty, writeBool, htrue, hfalse, sort]
  | number hmin hmax => exact readsBack_number hmin hmax
  | string s => exact readsBack_string s
  | array h ih => exact readsBack_array fun item hitem => ⟨h item hitem, ih item hitem⟩
  | object h ih => exact readsBack_object fun m hm => ⟨h m hm, ih m hm⟩

end Values

theorem document_pretty {depth : Nat} {json : Json} (h : Writable depth json) :
    document depth (json.pretty 0) = some json.sort := by
  have hskip := h.skipBlanks_pretty_append 0 []
  have hread := h.readsBack _ 0 _ [] (Nat.le_succ _) endsNumber_nil hskip
  rw [List.append_nil] at hread
  rw [document, hread]
  rfl

/-- The text of a document is read as that document with its members in key order. -/
theorem parse?_prettyText {json : Json} (h : Writable depthLimit json) :
    parse? json.prettyText = some json.sort := by
  rw [parse?, prettyText, String.toList_ofList]
  exact document_pretty h

end LayeredConfig.Json
