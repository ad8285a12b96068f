import LayeredConfig.Json.Basic
import LayeredConfig.Number.Int32

/-!
# Types of single values

A setting holds values of a scalar type or of an enum.  `Scalar.Val` and
`ValueType.Val` say which values these are; a value of an enum is the position
of its name among the declared names.  A type knows how its values are written
in documents (`toJson`), which documents fit it (`ofJson?`), and which texts of
the environment denote a value (`ofText?`).
-/

namespace LayeredConfig

inductive Scalar where
  | string
  | bool
  | int32
deriving DecidableEq, Inhabited

namespace Scalar

abbrev Val : Scalar → Type
  | string => String
  | bool => Bool
  | int32 => Int32

instance instOrdVal : (s : Scalar) → Ord s.Val
  | string => inferInstanceAs (Ord String)
  | bool => inferInstanceAs (Ord Bool)
  | int32 => inferInstanceAs (Ord Int32)

instance instTransOrdVal : (s : Scalar) → Std.TransOrd s.Val
  | string => inferInstanceAs (Std.TransOrd String)
  | bool => inferInstanceAs (Std.TransOrd Bool)
  | int32 => inferInstanceAs (Std.TransOrd Int32)

instance instLawfulEqOrdVal : (s : Scalar) → Std.LawfulEqOrd s.Val
  | string => inferInstanceAs (Std.LawfulEqOrd String)
  | bool => inferInstanceAs (Std.LawfulEqOrd Bool)
  | int32 => inferInstanceAs (Std.LawfulEqOrd Int32)

instance instDecidableEqVal : (s : Scalar) → DecidableEq s.Val
  | string => inferInstanceAs (DecidableEq String)
  | bool => inferInstanceAs (DecidableEq Bool)
  | int32 => inferInstanceAs (DecidableEq Int32)

def name : Scalar → String
  | string => "string"
  | bool => "bool"
  | int32 => "int32"

def ofName? (text : String) : Option Scalar :=
  if text = "string" then some string
  else if text = "bool" then some bool
  else if text = "int32" then some int32
  else none

/-- The value an unset setting reads as. -/
def zero : (s : Scalar) → s.Val
  | string => ""
  | bool => false
  | int32 => (0 : Int32)

def toJson : (s : Scalar) → s.Val → Json
  | string, text => .string text
  | bool, b => .bool b
  | int32, n => .number (.int n.toInt)

/-- The value a document holds, if it fits the type. -/
def ofJson? : (s : Scalar) → Json → Option s.Val
  | string, .string text => some text
  | bool, .bool b => some b
  | int32, .number (.int n) => int32OfInt? n
  | _, _ => none

def readBool? (text : String) : Option Bool :=
  if text = "true" then some true else if text = "false" then some false else none

def ofText? : (s : Scalar) → String → Option s.Val
  | string, text => some text
  | bool, text => readBool? text
  | int32, text => readInt32? text

/-- The text of a value, also as a key of a map. -/
def toText : (s : Scalar) → s.Val → String
  | string, text => text
  | bool, b => if b then "true" else "false"
  | int32, n => writeInt32 n

end Scalar

/-- An enum: its name and the names of its values in declaration order. -/
structure EnumType where
  name : String
  first : String
  rest : List String
  distinct : (first :: rest).Nodup := by decide
deriving DecidableEq

namespace EnumType

def names (e : EnumType) : List String := e.first :: e.rest

/-- A value is the position of its name. -/
abbrev Val (e : EnumType) : Type := Fin e.names.length

/-- The value declared first. -/
def zero (e : EnumType) : e.Val := ⟨0, Nat.zero_lt_succ _⟩

def valueName (e : EnumType) (v : e.Val) : String := e.names.get v

def ofName? (e : EnumType) (text : String) : Option e.Val := e.names.finIdxOf? text

end EnumType

inductive ValueType where
  | scalar (s : Scalar)
  | enum (e : EnumType)
deriving DecidableEq

namespace ValueType

abbrev Val : ValueType → Type
  | scalar s => s.Val
  | enum e => e.Val

instance instDecidableEqVal : (t : ValueType) → DecidableEq t.Val
  | scalar s => inferInstanceAs (DecidableEq s.Val)
  | enum e => inferInstanceAs (DecidableEq e.Val)

/-- The type as users see it; for an enum the choice it leaves. -/
def describe : ValueType → String
  | scalar s => s.name
  | enum e => "one of " ++ "|".intercalate e.names

/-- The value an unset setting reads as: the zero of a scalar type, the first
value of an enum. -/
def zero : (t : ValueType) → t.Val
  | scalar s => s.zero
  | enum e => e.zero

def toJson : (t : ValueType) → t.Val → Json
  | scalar s, v => s.toJson v
  | enum e, v => .string (e.valueName v)

def ofJson? : (t : ValueType) → Json → Option t.Val
  | scalar s, json => s.ofJson? json
  | enum e, .string text => e.ofName? text
  | enum _, _ => none

def ofText? : (t : ValueType) → String → Option t.Val
  | scalar s, text => s.ofText? text
  | enum e, text => e.ofName? text

end ValueType

end LayeredConfig
