import LayeredConfig.Toml.Scalar
import LayeredConfig.Toml.Text
import LayeredConfig.Toml.Value

/-!
# Reading TOML

A document is a sequence of lines: comments, headers that begin the section of
a table, and keys with their values.  A section is kept apart while it is read
and put into the document when the next one begins.
-/

namespace LayeredConfig.Toml

/-- Adds a key with a dotted path to an inline table.  Only tables that dotted
keys made are extended. -/
def insertInline (key : String) (v : Value) :
    (path : List String) → List (String × Value) → Option (List (String × Value))
  | [], members => if members.any (·.1 == key) then none else some (members ++ [(key, v)])
  | first :: path, members =>
    match members.find? (·.1 == first) with
    | none => do
      let inner ← insertInline key v path []
      some (members ++ [(first, .table inner true)])
    | some (_, .table inner true) => do
      let inner ← insertInline key v path inner
      some (members.map fun m => if m.1 == first then (first, .table inner true) else m)
    | some _ => none

mutual

/-- A value.  `depth` counts the levels of collections still allowed. -/
def value : Nat → Nat → List Char → Option (Value × List Char)
  | 0, _, _ => none
  | fuel + 1, depth, cs =>
    match cs with
    | '"' :: _ | '\'' :: _ => do
      let (s, cs) ← string? cs
      some (.string s, cs)
    | '[' :: cs =>
      match depth with
      | 0 => none
      | depth + 1 => do
        let (items, cs) ← arrayItems fuel depth cs []
        some (.array items, cs)
    | '\x7b' :: cs =>
      match depth with
      | 0 => none
      | depth + 1 =>
        match skipBlanks cs with
        | '\x7d' :: cs => some (.table [] false, cs)
        | cs => do
          let (members, cs) ← inlineMembers fuel depth cs []
          some (.table members false, cs)
    | _ => do some (.other, ← scalar? cs)

/-- The items of an array up to its bracket.  A comma may follow the last. -/
def arrayItems : Nat → Nat → List Char → List Value → Option (List Value × List Char)
  | 0, _, _, _ => none
  | fuel + 1, depth, cs, acc => do
    match ← skipLines (cs.length + 1) cs with
    | ']' :: cs => some (acc.reverse, cs)
    | cs => do
      let (v, cs) ← value fuel depth cs
      match ← skipLines (cs.length + 1) cs with
      | ',' :: cs => arrayItems fuel depth cs (v :: acc)
      | ']' :: cs => some ((v :: acc).reverse, cs)
      | _ => none

def inlineMembers : Nat → Nat → List Char → List (String × Value) →
    Option (List (String × Value) × List Char)
  | 0, _, _, _ => none
  | fuel + 1, depth, cs, acc => do
    let (path, key, cs) ← key? cs
    let cs ← char? '=' cs
    let (v, cs) ← value fuel depth (skipBlanks cs)
    let acc ← insertInline key v path acc
    match skipBlanks cs with
    | ',' :: cs => inlineMembers fuel depth cs acc
    | '\x7d' :: cs => some (acc, cs)
    | _ => none

end

structure Section where
  path : List String
  /-- The section is an element of an array of tables. -/
  element : Bool
  table : Table

/-- The document so far, without the section being read.  No section means the
lines before the first header. -/
structure Reading where
  root : Table := .new
  current : Option Section := none

namespace Reading

def close (r : Reading) : Option Table :=
  match r.current with
  | none => some r.root
  | some s => do
    let key ← s.path.getLast?
    let ((), root) ← r.root.update false (fun parent =>
      if s.element then
        match parent.get? key with
        | some (.tables last earlier) =>
          some ((), parent.set key (.tables s.table (last :: earlier)))
        | none => some ((), parent.set key (.tables s.table []))
        | some _ => none
      else
        match parent.get? key with
        | none => some ((), parent.set key (.table s.table))
        | some (.table t) =>
          if t.implicit then some ((), parent.set key (.table s.table)) else none
        | some _ => none) s.path.dropLast
    some root

/-- Begins the section of an element of an array of tables. -/
def openElement (r : Reading) (path : List String) (key : String) : Option Reading := do
  let root ← r.close
  let ((), root) ← root.update false (fun parent =>
    match parent.get? key with
    | some (.tables _ _) | none => some ((), parent)
    | some _ => none) path
  some ⟨root, some ⟨path ++ [key], true, .new⟩⟩

/-- Begins the section of a table.  A table that so far lies only on the way to
others keeps these. -/
def openTable (r : Reading) (path : List String) (key : String) : Option Reading := do
  let root ← r.close
  let (t, root) ← root.update false (fun parent =>
    match parent.get? key with
    | none => some (.new, parent)
    | some (.table t) =>
      if t.implicit && !t.dotted then
        some (.mk false false t.members, parent.remove key)
      else none
    | some _ => none) path
  some ⟨root, some ⟨path ++ [key], false, t⟩⟩

def define (r : Reading) (path : List String) (key : String) (v : Value) : Option Reading :=
  match r.current with
  | none => do some { r with root := ← r.root.define path key v }
  | some s => do some { r with current := some { s with table := ← s.table.define path key v } }

end Reading

/-- A header after its bracket: the section it begins. -/
def header? (r : Reading) (cs : List Char) : Option (Reading × List Char) :=
  match cs with
  | '[' :: cs => do
    let (path, key, cs) ← key? cs
    let cs ← endLine? (← char? ']' (← char? ']' cs))
    some (← r.openElement path key, cs)
  | _ => do
    let (path, key, cs) ← key? cs
    let cs ← endLine? (← char? ']' cs)
    some (← r.openTable path key, cs)

def readLines : Nat → Reading → List Char → Option Reading
  | 0, _, _ => none
  | fuel + 1, r, cs =>
    match skipBlanks cs with
    | [] => some r
    | '#' :: cs => do readLines fuel r (← endLine? ('#' :: cs))
    | '[' :: cs => do
      let (r, cs) ← header? r cs
      readLines fuel r cs
    | cs =>
      match newLine? cs with
      | some cs => readLines fuel r cs
      | none => do
        let (path, key, cs) ← key? cs
        let cs ← char? '=' cs
        let (v, cs) ← value (cs.length + 1) (depthLimit - 1) (skipBlanks cs)
        readLines fuel (← r.define path key v) (← endLine? cs)

/-- The table of a document.  A byte-order mark at its start does not count. -/
def parse? (text : String) : Option Value := do
  let cs := match text.toList with
    | c :: rest => if c.toNat = 0xFEFF then rest else c :: rest
    | [] => []
  let r ← readLines (cs.length + 1) {} cs
  some (← r.close).toValue

end LayeredConfig.Toml
