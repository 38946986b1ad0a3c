import IndexScan.Binary64.Shortest
import IndexScan.Value.Basic

/-! # Values as text

A value is written as a literal of the query language. Texts stand in quotes, with a quote
inside written twice; byte strings are in hexadecimal.
-/

namespace IndexScan

namespace Value

def decimal : Int → List Char
  | .ofNat n => Nat.toDigits 10 n
  | .negSucc n => '-' :: Nat.toDigits 10 (n + 1)

/-- The characters of a text with every quote doubled. -/
def quoted (cs : List Char) : List Char :=
  cs.flatMap fun c => if c = '\'' then ['\'', '\''] else [c]

def hexByte (b : UInt8) : List Char :=
  [Nat.digitChar (b.toNat / 16), Nat.digitChar (b.toNat % 16)]

def chars : Value → List Char
  | null => "NULL".toList
  | bool true => "TRUE".toList
  | bool false => "FALSE".toList
  | int32 n => decimal n.toInt
  | int64 n => decimal n.toInt
  | float64 x => x.chars
  | text s => '\'' :: quoted s.toList ++ ['\'']
  | timestamp t => "TIMESTAMP ".toList ++ decimal t.toInt
  | bytes data => 'X' :: '\'' :: data.flatMap hexByte ++ ['\'']

/-- The literal that denotes the value. -/
def render (v : Value) : String := String.ofList v.chars

/-- Literals in parentheses, separated by commas. -/
def tupleChars (t : Tuple) : List Char :=
  '(' :: List.intercalate ", ".toList (t.map chars) ++ [')']

end Value

end IndexScan
