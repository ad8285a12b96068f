import LayeredConfig.Code.Module
import LayeredConfig.Json.Reader
import Mathlib.Data.List.Basic

/-!
# Reading generated code

A reader goes through generated code character by character and tells its comments and
its string literals from the rest.  A comment begins with two slashes and ends with its
line.  A literal is read by the rules of the generated language: it goes to the first
quote that no backslash escapes, and its escapes stand for the characters they denote.

The reader knows no more than it has to.  It refuses a division, a comment with a star,
a literal of another sort (of a character, of bytes, or without escapes) and a carriage
return, which is not allowed where generated code could have one.

Quoted text is read back (`reads_quote`), and so are the steps of generated code if
their lines are `Legible` (`reads_writeAll`).
-/

namespace LayeredConfig.Code

open Text Json.Reader

/-- What a reader makes out: a comment, by the text after its slashes; a literal, by the
text it denotes; a character of anything else. -/
inductive Lexeme where
  | comment (text : String)
  | literal (text : String)
  | plain (c : Char)
deriving DecidableEq

/-- How far a reader is in an escape of a literal. -/
inductive Escape where
  | none
  /-- After a backslash. -/
  | marked
  /-- After a backslash at the end of a line: blanks are skipped. -/
  | folded
  /-- Before the two digits of an ASCII character. -/
  | ascii
  | asciiDigit (value : Nat)
  /-- Before the brace of a code point. -/
  | unicode
  /-- In the digits of a code point. -/
  | digits (value count : Nat)
deriving DecidableEq

/-- Where a reader is. -/
inductive Mode where
  /-- In code, perhaps right after a character of a word. -/
  | code (word : Bool)
  /-- After the mark in front of a lifetime. -/
  | tick
  /-- After a first slash. -/
  | slash
  /-- In a comment, after some text. -/
  | comment (text : List Char)
  /-- In a literal, after some text. -/
  | literal (text : List Char) (escape : Escape)
deriving DecidableEq

/-- A character that may belong to a word, or to what stands in front of a literal of
another sort. -/
def isWordChar (c : Char) : Bool := c.isAlphanum || c == '_' || c == '#' || 0x7F < c.toNat

/-- What a single character stands for after a backslash. -/
def shortEscape? : Char → Option Char
  | 'n' => some '\n'
  | 'r' => some '\r'
  | 't' => some '\t'
  | '0' => some '\x00'
  | '\\' => some '\\'
  | '"' => some '"'
  | '\'' => some '\''
  | _ => none

namespace Mode

/-- Reads a character of a literal that belongs to no escape. -/
def readText (text : List Char) (c : Char) : Option (Mode × List Lexeme) :=
  if c = '"' then some (code true, [.literal (String.ofList text)])
  else if c = '\\' then some (literal text .marked, [])
  else if c = '\r' then none
  else some (literal (text ++ [c]) .none, [])

/-- Reads the digits of a code point, six at most, and the brace after them. -/
def readDigits (text : List Char) (value count : Nat) (c : Char) :
    Option (Mode × List Lexeme) :=
  if c = '\x7d' then
    if 0 < count ∧ value.isValidChar then some (literal (text ++ [Char.ofNat value]) .none, [])
    else none
  else if c = '_' then
    if 0 < count then some (literal text (.digits value count), []) else none
  else if count < 6 then
    (hexValue? c).map fun d => (literal text (.digits (16 * value + d) (count + 1)), [])
  else none

def readLiteral (text : List Char) (c : Char) : Escape → Option (Mode × List Lexeme)
  | .none => readText text c
  | .marked =>
    if c = 'x' then some (literal text .ascii, [])
    else if c = 'u' then some (literal text .unicode, [])
    else if c = '\n' then some (literal text .folded, [])
    else (shortEscape? c).map fun d => (literal (text ++ [d]) .none, [])
  | .folded => if isBlank c then some (literal text .folded, []) else readText text c
  | .ascii =>
    (hexValue? c).bind fun d => if d < 8 then some (literal text (.asciiDigit d), []) else none
  | .asciiDigit value =>
    (hexValue? c).map fun d => (literal (text ++ [Char.ofNat (16 * value + d)]) .none, [])
  | .unicode => if c = '\x7b' then some (literal text (.digits 0 0), []) else none
  | .digits value count => readDigits text value count c

def read (c : Char) : Mode → Option (Mode × List Lexeme)
  | code word =>
    if c = '"' then if word then none else some (literal [] .none, [])
    else if c = '\'' then if word then none else some (tick, [.plain c])
    else if c = '/' then some (slash, [])
    else if c = '\r' then none
    else some (code (isWordChar c), [.plain c])
  | tick => if c.isAlpha || c == '_' then some (code true, [.plain c]) else none
  | slash => if c = '/' then some (comment [], []) else none
  | comment text =>
    if c = '\n' then some (code false, [.comment (String.ofList text), .plain c])
    else if c = '\r' then none
    else some (comment (text ++ [c]), [])
  | literal text escape => readLiteral text c escape

/-- Reads a text: where the reader is afterwards, and what it has made out. -/
def readAll (mode : Mode) : List Char → Option (Mode × List Lexeme)
  | [] => some (mode, [])
  | c :: cs =>
    (mode.read c).bind fun (next, found) =>
      (next.readAll cs).map fun (last, more) => (last, found ++ more)

end Mode

/-- The lexemes of a text that ends in code. -/
def lexemes? (text : List Char) : Option (List Lexeme) :=
  match (Mode.code false).readAll text with
  | some (.code _, found) => some found
  | _ => none

/-! ## Reading texts one after the other -/

/-- Reading `text` leads from one place to another, and makes out `found`. -/
def Reads (before : Mode) (text : List Char) (found : List Lexeme) (after : Mode) : Prop :=
  before.readAll text = some (after, found)

instance instDecidableReads (before : Mode) (text : List Char) (found : List Lexeme)
    (after : Mode) : Decidable (Reads before text found after) :=
  inferInstanceAs (Decidable (_ = _))

theorem reads_nil (mode : Mode) : Reads mode [] [] mode := rfl

theorem Reads.cons {before between after : Mode} {c : Char} {cs : List Char}
    {found more : List Lexeme} (hc : before.read c = some (between, found))
    (h : Reads between cs more after) : Reads before (c :: cs) (found ++ more) after := by
  rw [Reads, Mode.readAll, hc]
  exact congrArg (Option.map _) h

theorem reads_singleton {before after : Mode} {c : Char} {found : List Lexeme}
    (hc : before.read c = some (after, found)) : Reads before [c] found after := by
  rw [← List.append_nil found]
  exact Reads.cons hc (reads_nil after)

theorem Reads.exists_cons {before after : Mode} {c : Char} {cs : List Char} {found : List Lexeme}
    (h : Reads before (c :: cs) found after) :
    ∃ between first more, before.read c = some (between, first) ∧ Reads between cs more after ∧
      found = first ++ more := by
  obtain ⟨⟨between, first⟩, hc, hcs⟩ := Option.bind_eq_some_iff.1 h
  obtain ⟨⟨last, more⟩, hmore, heq⟩ := Option.map_eq_some_iff.1 hcs
  obtain ⟨rfl, rfl⟩ := Prod.mk.inj heq
  exact ⟨between, first, more, hc, hmore, rfl⟩

theorem reads_nil_iff {before after : Mode} {found : List Lexeme} :
    Reads before [] found after ↔ after = before ∧ found = [] := by
  simp [Reads, Mode.readAll, eq_comm]

theorem Reads.append {before between after : Mode} {text rest : List Char}
    {found more : List Lexeme} (h : Reads before text found between)
    (hrest : Reads between rest more after) :
    Reads before (text ++ rest) (found ++ more) after := by
  induction text generalizing before found with
  | nil =>
    obtain ⟨rfl, rfl⟩ := reads_nil_iff.1 h
    exact hrest
  | cons c cs ih =>
    obtain ⟨next, first, more', hc, hcs, rfl⟩ := h.exists_cons
    rw [List.append_assoc]
    exact Reads.cons hc (ih hcs)

theorem lexemes?_eq_some_iff {text : List Char} {found : List Lexeme} :
    lexemes? text = some found ↔ ∃ word, Reads (.code false) text found (.code word) := by
  unfold lexemes? Reads
  split
  · rename_i word _ h
    simp [h]
  · rename_i hnone
    simp only [reduceCtorEq, false_iff, not_exists]
    exact fun word h => hnone word found h

/-! ## Literals -/

theorem hexValue?_digitChar : ∀ d < 16, hexValue? (Nat.digitChar d) = some d := by decide

theorem digitChar_ne : ∀ d < 16, Nat.digitChar d ≠ '\x7d' ∧ Nat.digitChar d ≠ '_' := by decide

theorem isAlphanum_digitChar : ∀ d < 16, (Nat.digitChar d).isAlphanum = true := by decide

theorem isAlphanum_of_mem_toDigits {n : Nat} {c : Char} (h : c ∈ Nat.toDigits 16 n) :
    c.isAlphanum = true := by
  induction n using Nat.strongRecOn with
  | ind n ih =>
    by_cases hlt : n < 16
    · rw [Nat.toDigits_of_lt_base hlt, List.mem_singleton] at h
      rw [h]
      exact isAlphanum_digitChar n hlt
    · rw [Nat.toDigits_of_base_le (by decide) (by omega), List.mem_append,
        List.mem_singleton] at h
      rcases h with h | rfl
      · exact ih (n / 16) (by omega) h
      · exact isAlphanum_digitChar _ (Nat.mod_lt _ (by decide))

theorem reads_digit (text : List Char) (value : Nat) {count d : Nat} (hd : d < 16)
    (hcount : count < 6) :
    Reads (.literal text (.digits value count)) [Nat.digitChar d] []
      (.literal text (.digits (16 * value + d) (count + 1))) := by
  obtain ⟨hbrace, hunderscore⟩ := digitChar_ne d hd
  refine reads_singleton ?_
  rw [Mode.read, Mode.readLiteral, Mode.readDigits, if_neg hbrace, if_neg hunderscore,
    if_pos hcount, hexValue?_digitChar d hd]
  rfl

/-- The digits of a number are read back, if they are not too many. -/
theorem reads_toDigits (text : List Char) {n k : Nat} (hn : n < Nat.pow 16 (k + 1))
    (hk : k < 6) :
    ∃ count, 0 < count ∧ count ≤ k + 1 ∧
      Reads (.literal text (.digits 0 0)) (Nat.toDigits 16 n) []
        (.literal text (.digits n count)) := by
  induction k generalizing n with
  | zero =>
    refine ⟨1, Nat.one_pos, Nat.le_refl _, ?_⟩
    have hdigit : n < 16 := hn
    rw [Nat.toDigits_of_lt_base hdigit]
    have hfirst := reads_digit text 0 hdigit (show 0 < 6 by omega)
    simpa using hfirst
  | succ k ih =>
    by_cases hlt : n < 16
    · refine ⟨1, Nat.one_pos, by omega, ?_⟩
      rw [Nat.toDigits_of_lt_base hlt]
      have hfirst := reads_digit text 0 hlt (show 0 < 6 by omega)
      simpa using hfirst
    · have hdiv : n / 16 < Nat.pow 16 (k + 1) := by
        rw [Nat.div_lt_iff_lt_mul (by decide)]
        exact hn
      obtain ⟨count, hpos, hle, hreads⟩ := ih hdiv (by omega)
      refine ⟨count + 1, by omega, by omega, ?_⟩
      rw [Nat.toDigits_of_base_le (by decide) (by omega)]
      have hlast := reads_digit text (n / 16) (Nat.mod_lt n (show 0 < 16 by decide))
        (show count < 6 by omega)
      rw [Nat.div_add_mod] at hlast
      exact hreads.append hlast

theorem reads_escape (text : List Char) (c : Char) :
    Reads (.literal text .none) (Quoted.escape c) [] (.literal (text ++ [c]) .none) := by
  unfold Quoted.escape
  split_ifs with hzero htab hreturn hline hquote hslash hprint
  · subst hzero; rfl
  · subst htab; rfl
  · subst hreturn; rfl
  · subst hline; rfl
  · subst hquote; rfl
  · subst hslash; rfl
  · have hvalid : c.toNat.isValidChar := c.valid
    have hlt : c.toNat < 0x1000000 := by
      rcases hvalid with h | ⟨-, h⟩ <;> omega
    obtain ⟨count, hpos, -, hdigits⟩ := reads_toDigits (k := 5) text hlt (by omega)
    have hopen : Reads (.literal text .none) ['\\', 'u', '\x7b'] []
        (.literal text (.digits 0 0)) := rfl
    have hclose : Reads (.literal text (.digits c.toNat count)) ['\x7d'] []
        (.literal (text ++ [c]) .none) := by
      refine reads_singleton ?_
      rw [Mode.read, Mode.readLiteral, Mode.readDigits, if_pos rfl, if_pos ⟨hpos, hvalid⟩,
        Char.ofNat_toNat]
    exact (hopen.append hdigits).append hclose
  · refine reads_singleton ?_
    rw [Mode.read, Mode.readLiteral, Mode.readText, if_neg hquote, if_neg hslash, if_neg hreturn]

theorem reads_flatMap_escape (text cs : List Char) :
    Reads (.literal text .none) (cs.flatMap Quoted.escape) [] (.literal (text ++ cs) .none) := by
  induction cs generalizing text with
  | nil =>
    rw [List.append_nil]
    exact reads_nil _
  | cons c cs ih =>
    rw [List.append_cons]
    exact (reads_escape text c).append (ih (text ++ [c]))

/-- Quoted text is read as one literal, which denotes the text. -/
theorem reads_quote (text : String) :
    Reads (.code false) (Quoted.quote text.toList) [.literal text] (.code true) := by
  have hopen : Reads (.code false) ['"'] [] (.literal [] .none) := rfl
  have hclose : Reads (.literal text.toList .none) ['"'] [.literal text] (.code true) := by
    refine reads_singleton ?_
    rw [Mode.read, Mode.readLiteral, Mode.readText, if_pos rfl, String.ofList_toList]
  exact (hopen.append (reads_flatMap_escape [] text.toList)).append hclose

theorem not_mem_escape {c : Char} (hc : c = '\n' ∨ c = '\r') (d : Char) :
    c ∉ Quoted.escape d := by
  have hdigits : c ∉ Quoted.hexDigits d.toNat := by
    intro h
    have halphanum := isAlphanum_of_mem_toDigits h
    rcases hc with rfl | rfl <;> exact absurd halphanum (by decide)
  have hshort : ∀ mark ∈ ['0', 't', 'r', 'n', '"', '\\'], c ∉ ['\\', mark] := by
    rcases hc with rfl | rfl <;> simp
  unfold Quoted.escape
  split_ifs with hzero htab hreturn hline hquote hslash hprint
  · exact hshort '0' (by decide)
  · exact hshort 't' (by decide)
  · exact hshort 'r' (by decide)
  · exact hshort 'n' (by decide)
  · exact hshort '"' (by decide)
  · exact hshort '\\' (by decide)
  · have hopen : c ∉ ['\\', 'u', '\x7b'] := by rcases hc with rfl | rfl <;> decide
    have hclose : c ∉ ['\x7d'] := by rcases hc with rfl | rfl <;> decide
    rw [List.mem_append, List.mem_append, not_or, not_or]
    exact ⟨⟨hopen, hdigits⟩, hclose⟩
  · rw [List.mem_singleton]
    rintro rfl
    exact hc.elim hline hreturn

/-- Quoted text stays on its line. -/
theorem not_mem_quote (text : String) {c : Char} (hc : c = '\n' ∨ c = '\r') :
    c ∉ Quoted.quote text.toList := by
  have hne : c ≠ '"' := by rcases hc with rfl | rfl <;> decide
  rw [Quoted.quote, List.cons_append, List.mem_cons, List.mem_append, List.mem_flatMap,
    List.mem_singleton]
  rintro (h | ⟨d, -, h⟩ | h)
  · exact hne h
  · exact not_mem_escape hc d h
  · exact hne h

/-! ## Code -/

/-- A text that has nothing but characters of code in it, on a single line. -/
def Plain (text : String) : Prop :=
  text.toList.all (fun c => c != '"' && c != '\'' && c != '/' && c != '\r' && c != '\n') = true

theorem plain_iff {text : String} : Plain text ↔
    ∀ c ∈ text.toList, c ≠ '"' ∧ c ≠ '\'' ∧ c ≠ '/' ∧ c ≠ '\r' ∧ c ≠ '\n' := by
  simp [Plain, and_assoc]

instance instDecidablePlain (text : String) : Decidable (Plain text) :=
  inferInstanceAs (Decidable (_ = true))

@[simp] theorem plain_append_iff {text more : String} :
    Plain (text ++ more) ↔ Plain text ∧ Plain more := by
  rw [Plain, String.toList_append, List.all_append, Bool.and_eq_true]
  rfl

theorem plain_of_isAlphanum {text : String} (h : ∀ c ∈ text.toList, c.isAlphanum ∨ c = '_') :
    Plain text := by
  refine plain_iff.2 fun c hc => ?_
  refine ⟨?_, ?_, ?_, ?_, ?_⟩ <;> rintro rfl <;> exact absurd (h _ hc) (by decide)

/-- Reading code leads to code on the same line, whatever is in front of it. -/
structure ReadsCode (text : String) : Prop where
  line : '\n' ∉ text.toList
  reads : ∀ word, ∃ word', Reads (.code word) text.toList (text.toList.map .plain) (.code word')

/-- Reading code leads to where a literal may stand. -/
structure ReadsOpen (text : String) : Prop where
  line : '\n' ∉ text.toList
  reads : ∀ word, Reads (.code word) text.toList (text.toList.map .plain) (.code false)

theorem read_code {c : Char} (h : c ≠ '"' ∧ c ≠ '\'' ∧ c ≠ '/' ∧ c ≠ '\r') (word : Bool) :
    (Mode.code word).read c = some (.code (isWordChar c), [.plain c]) := by
  rw [Mode.read, if_neg h.1, if_neg h.2.1, if_neg h.2.2.1, if_neg h.2.2.2]

theorem ReadsCode.append_open {text more : String} (h : ReadsCode text) (h' : ReadsOpen more) :
    ReadsOpen (text ++ more) where
  line := by simp [h.line, h'.line]
  reads word := by
    obtain ⟨between, hbetween⟩ := h.reads word
    rw [String.toList_append, List.map_append]
    exact hbetween.append (h'.reads between)

theorem ReadsOpen.code {text : String} (h : ReadsOpen text) : ReadsCode text :=
  ⟨h.line, fun word => ⟨false, h.reads word⟩⟩

theorem readsOpen_of_reads {text : String} (hline : '\n' ∉ text.toList)
    (h : Reads (.code false) text.toList (text.toList.map .plain) (.code false))
    (hword : Reads (.code true) text.toList (text.toList.map .plain) (.code false)) :
    ReadsOpen text := by
  refine ⟨hline, fun word => ?_⟩
  cases word with
  | false => exact h
  | true => exact hword

theorem Plain.readsCode {text : String} (h : Plain text) : ReadsCode text := by
  have hall := plain_iff.1 h
  refine ⟨fun hline => (hall _ hline).2.2.2.2 rfl, ?_⟩
  generalize text.toList = cs at hall ⊢
  induction cs with
  | nil => exact fun word => ⟨word, reads_nil _⟩
  | cons c cs ih =>
    obtain ⟨⟨hquote, htick, hslash, hreturn, -⟩, hcs⟩ := List.forall_mem_cons.1 hall
    intro word
    obtain ⟨word', hrest⟩ := ih hcs (isWordChar c)
    exact ⟨word', Reads.cons (read_code ⟨hquote, htick, hslash, hreturn⟩ word) hrest⟩

/-! ## Parts of lines -/

def Piece.lexemes : Piece → List Lexeme
  | code text => text.toList.map .plain
  | literal text => [.literal text]

/-- Reading the parts of a line leads from code to code on the same line, whatever is in front
of them. -/
structure ReadsPieces (pieces : List Piece) : Prop where
  line : '\n' ∉ pieces.flatMap Piece.write
  reads : ∀ word, ∃ word', Reads (.code word) (pieces.flatMap Piece.write)
    (pieces.flatMap Piece.lexemes) (.code word')

theorem ReadsPieces.append {pieces more : List Piece} (h : ReadsPieces pieces)
    (h' : ReadsPieces more) : ReadsPieces (pieces ++ more) where
  line := by
    rw [List.flatMap_append, List.mem_append, not_or]
    exact ⟨h.line, h'.line⟩
  reads word := by
    obtain ⟨between, hbetween⟩ := h.reads word
    obtain ⟨after, hafter⟩ := h'.reads between
    rw [List.flatMap_append, List.flatMap_append]
    exact ⟨after, hbetween.append hafter⟩

theorem ReadsCode.pieces {text : String} (h : ReadsCode text) : ReadsPieces [.code text] := by
  have hwrite : [Piece.code text].flatMap Piece.write = text.toList := List.flatMap_singleton ..
  have hlexemes : [Piece.code text].flatMap Piece.lexemes = text.toList.map .plain :=
    List.flatMap_singleton ..
  exact ⟨hwrite ▸ h.line, fun word => by rw [hwrite, hlexemes]; exact h.reads word⟩

theorem ReadsOpen.literal {start : String} (h : ReadsOpen start) (text : String) :
    ReadsPieces [.code start, .literal text] where
  line := by
    have hquote := not_mem_quote text (Or.inl rfl : '\n' = '\n' ∨ '\n' = '\r')
    simpa [Piece.write] using ⟨h.line, hquote⟩
  reads word := by
    have hstart := (h.reads word).append (reads_quote text)
    refine ⟨true, ?_⟩
    simpa [Piece.write, Piece.lexemes] using hstart

theorem ReadsOpen.literals {start : String} (h : ReadsOpen start) (texts : List String) :
    ReadsPieces (.code start :: literals texts) := by
  induction texts generalizing start with
  | nil => exact h.code.pieces
  | cons text texts ih =>
    cases texts with
    | nil => exact h.literal text
    | cons next texts =>
      have hcomma : ReadsOpen ", " := readsOpen_of_reads (by decide) rfl rfl
      exact (h.literal text).append (ih hcomma)

/-! ## Lines -/

def Unbroken (text : String) : Prop := '\n' ∉ text.toList ∧ '\r' ∉ text.toList

instance instDecidableUnbroken (text : String) : Decidable (Unbroken text) :=
  inferInstanceAs (Decidable (_ ∧ _))

theorem unbroken_append_iff {text more : String} :
    Unbroken (text ++ more) ↔ Unbroken text ∧ Unbroken more := by
  simp only [Unbroken, String.toList_append, List.mem_append, not_or]
  exact and_and_and_comm

namespace Line

def lexemes : Line → List Lexeme
  | blank => []
  | comment text => [.comment (" " ++ text)]
  | doc text => [.comment (if text = "" then "/" else "/ " ++ text)]
  | code pieces => pieces.flatMap Piece.lexemes

def lexemesAt (level : Nat) (line : Line) : List Lexeme :=
  match line with
  | blank => [.plain '\n']
  | line => List.replicate (4 * level) (.plain ' ') ++ line.lexemes ++ [.plain '\n']

/-- A line that is read as what it stands for. -/
def Legible : Line → Prop
  | blank => True
  | comment text | doc text => Unbroken text
  | code pieces => '\n' ∉ pieces.flatMap Piece.write ∧ ∃ word,
    Reads (.code false) (pieces.flatMap Piece.write) (pieces.flatMap Piece.lexemes) (.code word)

end Line

theorem ReadsPieces.legible {pieces : List Piece} (h : ReadsPieces pieces) :
    (Line.code pieces).Legible :=
  ⟨h.line, h.reads false⟩

namespace Step

def lexemes (level : Nat) : Step → List Lexeme
  | line l => l.lexemesAt level
  | enter l => l.lexemesAt level
  | leave l => l.lexemesAt (level - 1)
  | deeper => []

def lexemesAll (level : Nat) : List Step → List Lexeme
  | [] => []
  | step :: steps => step.lexemes level ++ lexemesAll (step.after level) steps

/-- The line of the step is legible, if it writes one. -/
def Legible : Step → Prop
  | line l | enter l | leave l => l.Legible
  | deeper => True

end Step

theorem reads_spaces (n : Nat) :
    Reads (.code false) (List.replicate n ' ') (List.replicate n (.plain ' ')) (.code false) := by
  induction n with
  | zero => exact reads_nil _
  | succ n ih =>
    have hspace : (Mode.code false).read ' ' = some (.code false, [.plain ' ']) := rfl
    exact Reads.cons hspace ih

theorem reads_comment {text : List Char} (h : '\n' ∉ text ∧ '\r' ∉ text) :
    Reads (.code false) ('/' :: '/' :: (text ++ ['\n']))
      [.comment (String.ofList text), .plain '\n'] (.code false) := by
  have hopen : Reads (.code false) ['/', '/'] [] (.comment []) := rfl
  have htext : ∀ start, Reads (.comment start) text [] (.comment (start ++ text)) := by
    induction text with
    | nil =>
      intro start
      rw [List.append_nil]
      exact reads_nil _
    | cons c cs ih =>
      intro start
      simp only [List.mem_cons, not_or] at h
      obtain ⟨⟨hline, hcs⟩, hreturn, hcs'⟩ := h
      have hc : (Mode.comment start).read c = some (.comment (start ++ [c]), []) := by
        rw [Mode.read, if_neg (Ne.symm hline), if_neg (Ne.symm hreturn)]
      rw [List.append_cons]
      exact Reads.cons hc (ih ⟨hcs, hcs'⟩ _)
  have hclose : Reads (.comment text) ['\n'] [.comment (String.ofList text), .plain '\n']
      (.code false) := rfl
  exact (hopen.append (htext [])).append hclose

theorem reads_line {line : Line} (h : line.Legible) (level : Nat) :
    Reads (.code false) (line.write level) (line.lexemesAt level) (.code false) := by
  have hspaces := reads_spaces (4 * level)
  cases line with
  | blank => rfl
  | comment text =>
    have htext : '\n' ∉ ' ' :: text.toList ∧ '\r' ∉ ' ' :: text.toList := by
      simpa [Line.Legible, Unbroken] using h
    have hline := hspaces.append (reads_comment htext)
    simpa [Line.write, Line.content, Line.lexemesAt, Line.lexemes] using hline
  | doc text =>
    by_cases htext : text = ""
    · have hslash : '\n' ∉ ['/'] ∧ '\r' ∉ ['/'] := by decide
      have hline := hspaces.append (reads_comment hslash)
      simpa [Line.write, Line.content, Line.lexemesAt, Line.lexemes, htext] using hline
    · have hmarked : '\n' ∉ ("/ " ++ text).toList ∧ '\r' ∉ ("/ " ++ text).toList := by
        simpa [Line.Legible, Unbroken] using h
      have hline := hspaces.append (reads_comment hmarked)
      rw [String.ofList_toList] at hline
      simpa [Line.write, Line.content, Line.lexemesAt, Line.lexemes, htext] using hline
  | code pieces =>
    obtain ⟨-, word, hpieces⟩ := h
    have hbreak : Reads (.code word) ['\n'] [.plain '\n'] (.code false) := by
      cases word <;> rfl
    exact (hspaces.append hpieces).append hbreak

theorem reads_writeAll {steps : List Step} (h : ∀ step ∈ steps, step.Legible) (level : Nat) :
    Reads (.code false) (Step.writeAll level steps) (Step.lexemesAll level steps)
      (.code false) := by
  induction steps generalizing level with
  | nil => exact reads_nil _
  | cons step steps ih =>
    obtain ⟨hstep, hsteps⟩ := List.forall_mem_cons.1 h
    have hwrite : Reads (.code false) (step.write level) (step.lexemes level) (.code false) := by
      cases step with
      | line l | enter l | leave l => exact reads_line hstep _
      | deeper => exact reads_nil _
    exact hwrite.append (ih hsteps _)

end LayeredConfig.Code
