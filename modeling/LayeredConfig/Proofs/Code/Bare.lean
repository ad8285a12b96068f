import LayeredConfig.Proofs.Code.Lexeme
import LayeredConfig.Proofs.Text.Bracket

/-!
# Generated code without comments and literals

Of generated code only that is code which stands outside its comments and its string literals
(`bare`).  To find it one need not know what a literal denotes: a literal ends with the first
quote that no backslash escapes, a comment with its line.  Where a reader of comments and
literals makes something out of a text, these are the characters that it takes for neither
(`Reads.skims`).

The brackets of the code that steps write are those of their lines, which can be told without
writing them (`skims_writeAll`).
-/

namespace LayeredConfig.Code

open Text Json.Reader

/-- Where a character of a text stands. -/
inductive Region where
  | code
  /-- After a first slash. -/
  | slash
  | comment
  | literal
  /-- After a backslash in a literal. -/
  | escaped
deriving DecidableEq

namespace Region

/-- Goes over a character: where the next one stands, and what is code. -/
def next (c : Char) : Region → Region × List Char
  | code => if c = '"' then (literal, []) else if c = '/' then (slash, []) else (code, [c])
  | slash =>
    if c = '/' then (comment, []) else if c = '"' then (literal, ['/']) else (code, ['/', c])
  | comment => if c = '\n' then (code, [c]) else (comment, [])
  | literal => if c = '"' then (code, []) else if c = '\\' then (escaped, []) else (literal, [])
  | escaped => (literal, [])

def nextAll (region : Region) : List Char → Region × List Char
  | [] => (region, [])
  | c :: cs =>
    let (between, found) := region.next c
    let (last, more) := between.nextAll cs
    (last, found ++ more)

end Region

/-- The characters of a text that stand outside comments and literals. -/
def bare (text : List Char) : List Char := (Region.code.nextAll text).2

/-! ## Going over texts one after the other -/

/-- Going over `text` leads from one place to another, and `found` is code. -/
def Skims (before : Region) (text found : List Char) (after : Region) : Prop :=
  before.nextAll text = (after, found)

theorem skims_nil (region : Region) : Skims region [] [] region := rfl

theorem Skims.cons {before between after : Region} {c : Char} {cs found more : List Char}
    (hc : before.next c = (between, found)) (h : Skims between cs more after) :
    Skims before (c :: cs) (found ++ more) after := by
  simp only [Skims, Region.nextAll, hc]
  rw [show between.nextAll cs = (after, more) from h]

theorem Skims.append {before between after : Region} {text rest found more : List Char}
    (h : Skims before text found between) (hrest : Skims between rest more after) :
    Skims before (text ++ rest) (found ++ more) after := by
  induction text generalizing before found with
  | nil =>
    obtain ⟨rfl, rfl⟩ := Prod.mk.inj h
    exact hrest
  | cons c cs ih =>
    obtain ⟨rfl, rfl⟩ := Prod.mk.inj h
    rw [List.append_assoc]
    exact Skims.cons rfl (ih rfl)

theorem Skims.bare_eq {text found : List Char} {after : Region}
    (h : Skims .code text found after) : bare text = found := congrArg Prod.snd h

/-! ## What a reader takes for code -/

/-- The characters of code among lexemes. -/
def plainChars (found : List Lexeme) : List Char :=
  found.filterMap fun
    | .plain c => some c
    | _ => none

theorem plainChars_append (found more : List Lexeme) :
    plainChars (found ++ more) = plainChars found ++ plainChars more := List.filterMap_append

theorem plainChars_map_plain (cs : List Char) : plainChars (cs.map .plain) = cs := by
  rw [plainChars, List.filterMap_map]
  exact List.filterMap_some

def Mode.region : Mode → Region
  | code _ | tick => .code
  | slash => .slash
  | comment _ => .comment
  | literal _ .marked => .escaped
  | literal _ _ => .literal

theorem next_of_readText {text : List Char} {after : Mode} {c : Char} {found : List Lexeme}
    (h : Mode.readText text c = some (after, found)) :
    Region.literal.next c = (after.region, plainChars found) := by
  unfold Mode.readText at h
  unfold Region.next
  split_ifs at h <;> cases h <;> simp_all [Mode.region, plainChars]

theorem hexValue?_quote : hexValue? '"' = none ∧ hexValue? '\\' = none := by decide

/-- An escape has no quote in it but right after its backslash. -/
theorem next_of_readLiteral {text : List Char} {after : Mode} {c : Char} {escape : Escape}
    {found : List Lexeme} (h : Mode.readLiteral text c escape = some (after, found)) :
    (Mode.literal text escape).region.next c = (after.region, plainChars found) := by
  have hhex := hexValue?_quote
  cases escape with
  | none => exact next_of_readText h
  | marked =>
    simp only [Mode.readLiteral] at h
    grind [Region.next, Mode.region, plainChars, = Option.map_eq_some_iff]
  | folded =>
    rw [Mode.readLiteral] at h
    split at h
    · rename_i hblank
      grind [Region.next, Mode.region, plainChars, isBlank]
    · exact next_of_readText h
  | ascii | asciiDigit _ | unicode | digits _ _ =>
    simp only [Mode.readLiteral, Mode.readDigits] at h
    grind [Region.next, Mode.region, plainChars, = Option.map_eq_some_iff, = Option.bind_eq_some_iff]

theorem next_of_read {mode after : Mode} {c : Char} {found : List Lexeme}
    (h : mode.read c = some (after, found)) :
    mode.region.next c = (after.region, plainChars found) := by
  cases mode with
  | code word | slash | comment text =>
    simp only [Mode.read] at h
    grind [Region.next, Mode.region, plainChars]
  | tick =>
    simp only [Mode.read, Option.ite_none_right_eq_some, Option.some.injEq, Prod.mk.injEq] at h
    obtain ⟨hc, rfl, rfl⟩ := h
    have hquote : c ≠ '"' := by
      rintro rfl
      exact absurd hc (by decide)
    have hslash : c ≠ '/' := by
      rintro rfl
      exact absurd hc (by decide)
    simp [Mode.region, Region.next, plainChars, hquote, hslash]
  | literal text escape => exact next_of_readLiteral h

/-- Where a reader makes something out of a text, what it takes for code is code. -/
theorem Reads.skims {before after : Mode} {text : List Char} {found : List Lexeme}
    (h : Reads before text found after) :
    Skims before.region text (plainChars found) after.region := by
  induction text generalizing before found with
  | nil =>
    obtain ⟨rfl, rfl⟩ := reads_nil_iff.1 h
    exact skims_nil _
  | cons c cs ih =>
    obtain ⟨between, first, more, hc, hcs, rfl⟩ := h.exists_cons
    rw [plainChars_append]
    exact Skims.cons (next_of_read hc) (ih hcs)

/-! ## Comments -/

theorem skims_spaces (n : Nat) :
    Skims .code (List.replicate n ' ') (List.replicate n ' ') .code := by
  induction n with
  | zero => exact skims_nil _
  | succ n ih =>
    have hspace : Region.code.next ' ' = (.code, [' ']) := rfl
    exact Skims.cons hspace ih

theorem skims_comment {text : List Char} (h : '\n' ∉ text) : Skims .comment text [] .comment := by
  induction text with
  | nil => exact skims_nil _
  | cons c cs ih =>
    rw [List.mem_cons, not_or] at h
    have hc : Region.comment.next c = (.comment, []) := by
      rw [Region.next, if_neg (Ne.symm h.1)]
    exact Skims.cons hc (ih h.2)

theorem skims_comment_line {text : List Char} (h : '\n' ∉ text) (n : Nat) :
    Skims .code (List.replicate n ' ' ++ ('/' :: '/' :: text) ++ ['\n'])
      (List.replicate n ' ' ++ ['\n']) .code := by
  have hopen : Skims .code ['/', '/'] [] .comment := rfl
  have hclose : Skims .comment ['\n'] ['\n'] .code := rfl
  rw [List.append_assoc]
  exact (skims_spaces n).append ((hopen.append (skims_comment h)).append hclose)

/-! ## Brackets -/

def brackets (text : String) : List Char := text.toList.filter isBracket

theorem brackets_append (text more : String) :
    brackets (text ++ more) = brackets text ++ brackets more := by
  rw [brackets, String.toList_append, List.filter_append]
  rfl

/-- The brackets of a part of a line; those of a literal are none of the code. -/
def Piece.brackets : Piece → List Char
  | code text => Code.brackets text
  | literal _ => []

namespace Line

def brackets : Line → List Char
  | code pieces => pieces.flatMap Piece.brackets
  | _ => []

/-- A line whose literals are read as what they denote, or whose comment keeps to it. -/
def Contained : Line → Prop
  | blank => True
  | comment text | doc text => '\n' ∉ text.toList
  | code pieces => (code pieces).Legible

theorem Legible.contained {l : Line} (h : l.Legible) : l.Contained := by
  cases l with
  | blank => exact trivial
  | comment text | doc text => exact h.1
  | code pieces => exact h

end Line

namespace Step

def brackets : Step → List Char
  | line l | enter l | leave l => l.brackets
  | deeper => []

def Contained : Step → Prop
  | line l | enter l | leave l => l.Contained
  | deeper => True

theorem Legible.contained {step : Step} (h : step.Legible) : step.Contained := by
  cases step with
  | line l | enter l | leave l => exact Line.Legible.contained h
  | deeper => exact trivial

end Step

theorem filter_isBracket_spaces (n : Nat) : (List.replicate n ' ').filter isBracket = [] := by
  rw [List.filter_replicate]
  rfl

theorem plainChars_spaces (n : Nat) :
    plainChars (List.replicate n (.plain ' ')) = List.replicate n ' ' := by
  rw [← List.map_replicate (f := Lexeme.plain), plainChars_map_plain]

theorem filter_plainChars_pieces (pieces : List Piece) :
    (plainChars (pieces.flatMap Piece.lexemes)).filter isBracket =
      pieces.flatMap Piece.brackets := by
  induction pieces with
  | nil => rfl
  | cons piece pieces ih =>
    rw [List.flatMap_cons, List.flatMap_cons, plainChars_append, List.filter_append, ih]
    cases piece with
    | code text =>
      rw [Piece.lexemes, plainChars_map_plain]
      rfl
    | literal text => rfl

theorem skims_line {l : Line} (h : l.Contained) (level : Nat) :
    ∃ found, Skims .code (l.write level) found .code ∧ found.filter isBracket = l.brackets := by
  have hblank : (List.replicate (4 * level) ' ' ++ ['\n']).filter isBracket = [] := by
    rw [List.filter_append, filter_isBracket_spaces]
    rfl
  cases l with
  | blank => exact ⟨['\n'], rfl, rfl⟩
  | comment text =>
    have htext : '\n' ∉ ' ' :: text.toList := by simpa [Line.Contained] using h
    exact ⟨_, skims_comment_line htext _, hblank⟩
  | doc text =>
    refine ⟨_, ?_, hblank⟩
    by_cases hempty : text = ""
    · subst hempty
      have hslash : '\n' ∉ ['/'] := by decide
      exact skims_comment_line hslash _
    · have htext : '\n' ∉ '/' :: ' ' :: text.toList := by simpa [Line.Contained] using h
      have hline := skims_comment_line htext (4 * level)
      simpa [Line.write, Line.content, hempty] using hline
  | code pieces =>
    have hline : (Line.code pieces).Legible := h
    refine ⟨_, (reads_line hline level).skims, ?_⟩
    rw [Line.lexemesAt, plainChars_append, plainChars_append, List.filter_append,
      List.filter_append, plainChars_spaces, filter_isBracket_spaces, Line.lexemes,
      filter_plainChars_pieces]
    · exact List.append_nil _
    · simp

/-- Going over what steps write begins and ends in code, and finds the brackets of their lines. -/
theorem skims_writeAll {steps : List Step} (h : ∀ step ∈ steps, step.Contained) (level : Nat) :
    ∃ found, Skims .code (Step.writeAll level steps) found .code ∧
      found.filter isBracket = steps.flatMap Step.brackets := by
  induction steps generalizing level with
  | nil => exact ⟨[], skims_nil _, rfl⟩
  | cons step steps ih =>
    obtain ⟨hstep, hsteps⟩ := List.forall_mem_cons.1 h
    have hfirst : ∃ found, Skims .code (step.write level) found .code ∧
        found.filter isBracket = step.brackets := by
      cases step with
      | line l | enter l | leave l => exact skims_line hstep _
      | deeper => exact ⟨[], skims_nil _, rfl⟩
    obtain ⟨found, hfound, hbrackets⟩ := hfirst
    obtain ⟨more, hmore, hbrackets'⟩ := ih hsteps (step.after level)
    refine ⟨found ++ more, hfound.append hmore, ?_⟩
    rw [List.filter_append, hbrackets, hbrackets', List.flatMap_cons]

/-- What steps write is nested outside its comments and literals if the code of their lines is. -/
theorem nested_bare_iff {steps : List Step} (h : ∀ step ∈ steps, step.Contained) (level : Nat) :
    Nested (bare (Step.writeAll level steps)) ↔ Nested (steps.flatMap Step.brackets) := by
  obtain ⟨found, hfound, hbrackets⟩ := skims_writeAll h level
  rw [hfound.bare_eq, ← hbrackets, nested_filter_iff]

end LayeredConfig.Code
