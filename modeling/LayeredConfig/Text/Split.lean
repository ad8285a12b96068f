/-!
# Splitting and joining text

Text is cut at a separator character and joined again.  A cut never loses or
merges pieces: joining the pieces with the separator gives the text back
(`join_split`), and there is always at least one piece (`split_ne_nil`).
Everything works on the characters of a text; the `String` forms convert at
the edges.
-/

namespace LayeredConfig.Text

/-- The pieces of `cs` between occurrences of `sep`, empty pieces included. -/
def split (sep : Char) : List Char → List (List Char)
  | [] => [[]]
  | c :: cs =>
    if c = sep then [] :: split sep cs
    else match split sep cs with
      | [] => [[c]]
      | piece :: pieces => (c :: piece) :: pieces

/-- The pieces of `parts` in order, with `sep` between neighbours. -/
def join (sep : List Char) : List (List Char) → List Char
  | [] => []
  | [part] => part
  | part :: next :: parts => part ++ sep ++ join sep (next :: parts)

theorem split_ne_nil (sep : Char) (cs : List Char) : split sep cs ≠ [] := by
  cases cs with
  | nil => simp [split]
  | cons c cs =>
    rw [split]
    split
    · simp
    · split <;> simp

theorem join_split (sep : Char) (cs : List Char) :
    join [sep] (split sep cs) = cs := by
  induction cs with
  | nil => rfl
  | cons c cs ih =>
    rw [split]
    split
    · rename_i h
      subst h
      cases hs : split c cs with
      | nil => exact absurd hs (split_ne_nil c cs)
      | cons piece pieces =>
        rw [hs] at ih
        simp [join, ih]
    · cases hs : split sep cs with
      | nil => exact absurd hs (split_ne_nil sep cs)
      | cons piece pieces =>
        rw [hs] at ih
        cases pieces with
        | nil => simpa [join] using ih
        | cons next rest => simpa [join] using ih

def splitOnce? (sep : Char) : List Char → Option (List Char × List Char)
  | [] => none
  | c :: cs =>
    if c = sep then some ([], cs)
    else (splitOnce? sep cs).map fun (before, after) => (c :: before, after)

def dropStart? : List Char → List Char → Option (List Char)
  | [], cs => some cs
  | _ :: _, [] => none
  | s :: start, c :: cs => if s = c then dropStart? start cs else none

def dropLast? (last : Char) (cs : List Char) : Option (List Char) :=
  if cs.getLast? = some last then some cs.dropLast else none

/-- The lines of a text.  A line ends at a line feed, which is not part of it,
and neither is a carriage return right before the line feed.  A text that ends
in a line feed has no empty last line. -/
def lines (cs : List Char) : List (List Char) :=
  let pieces := split '\n' cs
  let last := pieces.getLast?.getD []
  let ended := pieces.dropLast.map fun line => (dropLast? '\r' line).getD line
  if last.isEmpty then ended else ended ++ [last]

def splitString (sep : Char) (s : String) : List String :=
  (split sep s.toList).map String.ofList

def stringLines (s : String) : List String :=
  (lines s.toList).map String.ofList

end LayeredConfig.Text
