import LayeredConfig.Text.Unprintable

/-!
# Quoted text

A text is quoted by writing it between double quotes, with a backslash in
front of quotes and backslashes, short escapes for the common controls, and
`\u{…}` with the code point in hexadecimal for every other character that has
no printed form.
-/

namespace LayeredConfig.Text.Quoted

def hexDigits (n : Nat) : List Char :=
  Nat.toDigits 16 n

def escape (c : Char) : List Char :=
  if c = '\x00' then ['\\', '0']
  else if c = '\t' then ['\\', 't']
  else if c = '\r' then ['\\', 'r']
  else if c = '\n' then ['\\', 'n']
  else if c = '"' then ['\\', '"']
  else if c = '\\' then ['\\', '\\']
  else if isUnprintable c then ['\\', 'u', '\x7b'] ++ hexDigits c.toNat ++ ['\x7d']
  else [c]

def quote (cs : List Char) : List Char :=
  '"' :: cs.flatMap escape ++ ['"']

def quoteString (s : String) : String :=
  String.ofList (quote s.toList)

end LayeredConfig.Text.Quoted
