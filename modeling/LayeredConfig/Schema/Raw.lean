import LayeredConfig.Toml.Reader

/-!
# Schemas as written

The form in which a schema is declared: lists of enums and messages with their
texts still unchecked.  It is read from TOML; keys it does not know are passed
over.  A declaration may also be an array with its parts in order.
-/

namespace LayeredConfig

structure RawField where
  name : String
  type : String
  doc : String := ""
deriving DecidableEq, Inhabited

structure RawMessage where
  name : String
  doc : String := ""
  fields : List RawField := []
deriving DecidableEq, Inhabited

structure RawEnum where
  name : String
  doc : String := ""
  values : List String
deriving DecidableEq, Inhabited

structure RawSchema where
  enums : List RawEnum := []
  messages : List RawMessage := []
deriving DecidableEq, Inhabited

namespace RawSchema

open Toml

def text? : Value → Option String
  | .string s => some s
  | _ => none

def list? {α : Type} (element? : Value → Option α) : Value → Option (List α)
  | .array items => items.mapM element?
  | _ => none

/-- The part of a declaration with the given key in a table and the given place
in an array. -/
def part? (key : String) (place : Nat) : Value → Option (Option Value)
  | .table members _ => some ((members.find? (·.1 == key)).map (·.2))
  | .array items => some items[place]?
  | _ => none

def required? {α : Type} (read? : Value → Option α) (key : String) (place : Nat) (v : Value) :
    Option α := do
  read? (← (← part? key place v))

def optional? {α : Type} (read? : Value → Option α) (key : String) (place : Nat) (default : α)
    (v : Value) : Option α := do
  match ← part? key place v with
  | some v => read? v
  | none => some default

def field? (v : Value) : Option RawField := do
  some {
    name := ← required? text? "name" 0 v
    type := ← required? text? "type" 1 v
    doc := ← optional? text? "doc" 2 "" v }

def message? (v : Value) : Option RawMessage := do
  some {
    name := ← required? text? "name" 0 v
    doc := ← optional? text? "doc" 1 "" v
    fields := ← optional? (list? field?) "fields" 2 [] v }

def enum? (v : Value) : Option RawEnum := do
  some {
    name := ← required? text? "name" 0 v
    doc := ← optional? text? "doc" 1 "" v
    values := ← required? (list? text?) "values" 2 v }

def ofToml? (v : Value) : Option RawSchema := do
  some {
    enums := ← optional? (list? enum?) "enums" 0 [] v
    messages := ← optional? (list? message?) "messages" 1 [] v }

def parse? (text : String) : Option RawSchema := do
  ofToml? (← Toml.parse? text)

end RawSchema

end LayeredConfig
