/-!
# TOML values and tables

The value of a TOML document is a table.  While it is being read, a table also
remembers how it came to be: a table that only lies on the way to another one
is implicit and may still be defined, and one made by a dotted key may only be
extended by dotted keys.  Values that are neither text, array nor table are kept
without their content, since nothing in this library reads it.
-/

namespace LayeredConfig.Toml

/-- A value.  An inline table remembers whether a dotted key made it. -/
inductive Value where
  | string (s : String)
  /-- An integer, a float, a boolean or a date or time. -/
  | other
  | array (items : List Value)
  | table (members : List (String × Value)) (dotted : Bool)
deriving Inhabited

mutual

/-- What a key of a table that is still being read stands for. -/
inductive Item where
  | value (v : Value)
  | table (t : Table)
  /-- An array of tables, the last one first. -/
  | tables (last : Table) (earlier : List Table)

inductive Table where
  | mk (implicit dotted : Bool) (members : List (String × Item))

end

namespace Table

def implicit : Table → Bool
  | mk i _ _ => i

def dotted : Table → Bool
  | mk _ d _ => d

def members : Table → List (String × Item)
  | mk _ _ ms => ms

def new : Table := mk false false []

instance : Inhabited Table := ⟨new⟩

def get? (t : Table) (key : String) : Option Item :=
  (t.members.find? (·.1 == key)).map (·.2)

/-- Sets a key, in its old place if it has one. -/
def set (t : Table) (key : String) (item : Item) : Table :=
  mk t.implicit t.dotted <|
    if t.members.any (·.1 == key) then
      t.members.map fun m => if m.1 == key then (key, item) else m
    else t.members ++ [(key, item)]

def remove (t : Table) (key : String) : Table :=
  mk t.implicit t.dotted (t.members.filter (·.1 != key))

/-- Changes the table at the end of a path.  Tables missing on the way are made
implicit ones, `dotted` if the path is that of a dotted key.  Of an array of
tables the last one is meant.  Values are in the way, and tables that a header
defines are in the way of dotted keys. -/
def update {α : Type} (dottedPath : Bool) (change : Table → Option (α × Table)) :
    List String → Table → Option (α × Table)
  | [], t => change t
  | key :: path, t =>
    match t.get? key with
    | none => do
      let (a, child) ← update dottedPath change path (mk true dottedPath [])
      some (a, t.set key (.table child))
    | some (.value _) => none
    | some (.tables last earlier) => do
      let (a, child) ← update dottedPath change path last
      some (a, t.set key (.tables child earlier))
    | some (.table child) =>
      if dottedPath && !child.implicit then none
      else do
        let (a, child) ← update dottedPath change path child
        some (a, t.set key (.table child))

/-- Sets a key that a line of the table's section gives a value, at the end of a
dotted path. -/
def define (t : Table) (path : List String) (key : String) (v : Value) : Option Table := do
  let ((), t) ← t.update true (fun target =>
    if target.dotted == path.isEmpty then none
    else match target.get? key with
      | some _ => none
      | none => some ((), target.set key (.value v))) path
  some t

end Table

mutual

def Item.toValue : Item → Value
  | .value v => v
  | .table t => t.toValue
  | .tables last earlier => .array (tableValues earlier [last.toValue])

def Table.toValue : Table → Value
  | .mk _ _ members => .table (memberValues members) false

/-- Tables as plain values, the list reversed onto `acc`. -/
def tableValues : List Table → List Value → List Value
  | [], acc => acc
  | t :: ts, acc => tableValues ts (t.toValue :: acc)

def memberValues : List (String × Item) → List (String × Value)
  | [] => []
  | (key, item) :: members => (key, item.toValue) :: memberValues members

end

end LayeredConfig.Toml
