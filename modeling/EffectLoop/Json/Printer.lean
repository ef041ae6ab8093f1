import EffectLoop.Json.Basic

/-!
# Text of JSON values

`compact` is the one-line form that messages embed and answers are written in: no blanks, members by
key, and in strings only the quote, the backslash and the control characters below U+0020 escaped.
`outline` names the kind of every value and is meant for the eye.
-/

namespace EffectLoop.Json

/-- One hexadecimal digit, lower case. -/
def hexDigit (n : Nat) : Char :=
  if n < 10 then Char.ofNat (48 + n) else Char.ofNat (87 + n)

/-- How a character stands inside a quoted string. -/
def escapeChar (c : Char) : String :=
  if c = '"' then "\\\"" else
  if c = '\\' then "\\\\" else
  if c = '\n' then "\\n" else
  if c = '\t' then "\\t" else
  if c = '\r' then "\\r" else
  if c.toNat = 8 then "\\b" else
  if c.toNat = 12 then "\\f" else
  if c.toNat < 32 then "\\u00".push (hexDigit (c.toNat / 16)) |>.push (hexDigit (c.toNat % 16))
  else c.toString

/-- A quoted string. -/
def quote (s : String) : String :=
  s.toList.foldl (fun acc c => acc ++ escapeChar c) "\"" ++ "\""

mutual

/-- Append the compact text of a value. -/
def write (acc : String) : Json → String
  | .null => acc ++ "null"
  | .bool b => acc ++ (if b then "true" else "false")
  | .int n => acc ++ toString n
  | .decimal d => acc ++ d.text
  | .str s => acc ++ quote s
  | .arr items => writeItems (acc ++ "[") "" items ++ "]"
  | .obj members => writeMembers (acc ++ "\x7b") "" members ++ "\x7d"

def writeItems (acc sep : String) : List Json → String
  | [] => acc
  | j :: rest => writeItems (write (acc ++ sep) j) "," rest

def writeMembers (acc sep : String) : List (String × Json) → String
  | [] => acc
  | (k, j) :: rest => writeMembers (write (acc ++ sep ++ quote k ++ ":") j) "," rest

end

/-- The compact text. -/
def compact (j : Json) : String := write "" j

/-- A string as itself, any other value as compact text. -/
def plain : Json → String
  | .str s => s
  | j => j.compact

/-- The characters that `outline` writes by number, as ranges: controls, blanks other than the
space, format characters, combining marks, private use and noncharacters. -/
def unprintedRanges : List (Nat × Nat) :=
  [(0x00, 0x1f), (0x7f, 0xa0), (0xad, 0xad), (0x300, 0x36f), (0x483, 0x489), (0x591, 0x5bd),
   (0x600, 0x605), (0x610, 0x61a), (0x61c, 0x61c), (0x64b, 0x65f), (0x6dd, 0x6dd),
   (0x70f, 0x70f), (0x1680, 0x1680), (0x180b, 0x180f), (0x1ab0, 0x1ace), (0x1dc0, 0x1dff),
   (0x2000, 0x200f), (0x2028, 0x202f), (0x205f, 0x206f), (0x20d0, 0x20f0), (0x3000, 0x3000),
   (0x302a, 0x302f), (0x3099, 0x309a), (0xe000, 0xf8ff), (0xfe00, 0xfe0f), (0xfe20, 0xfe2f),
   (0xfeff, 0xfeff), (0xff9e, 0xff9f), (0xfff0, 0xfffb), (0xfffe, 0xffff), (0xe0000, 0x10ffff)]

/-- The digits of a number in base sixteen, lower case, without leading zeros. -/
def hexText (n : Nat) : String := String.ofList (Nat.toDigits 16 n)

/-- How a character stands inside a string of an outline. -/
def outlineChar (c : Char) : String :=
  if c = '"' then "\\\"" else
  if c = '\\' then "\\\\" else
  if c = '\n' then "\\n" else
  if c = '\t' then "\\t" else
  if c = '\r' then "\\r" else
  if c.toNat = 0 then "\\0" else
  if unprintedRanges.any fun r => r.1 ≤ c.toNat && c.toNat ≤ r.2 then
    "\\u\x7b" ++ hexText c.toNat ++ "\x7d"
  else c.toString

/-- A quoted string of an outline. -/
def outlineQuote (s : String) : String :=
  s.toList.foldl (fun acc c => acc ++ outlineChar c) "\"" ++ "\""

mutual

/-- The value with the kind of each part named. -/
def outline : Json → String
  | .null => "Null"
  | .bool b => "Bool(" ++ (if b then "true" else "false") ++ ")"
  | .int n => "Number(" ++ toString n ++ ")"
  | .decimal d => "Number(" ++ d.text ++ ")"
  | .str s => "String(" ++ outlineQuote s ++ ")"
  | .arr items => outlineItems "Array [" "" items ++ "]"
  | .obj members => outlineMembers "Object \x7b" "" members ++ "\x7d"

def outlineItems (acc sep : String) : List Json → String
  | [] => acc
  | j :: rest => outlineItems (acc ++ sep ++ outline j) ", " rest

def outlineMembers (acc sep : String) : List (String × Json) → String
  | [] => acc
  | (k, j) :: rest => outlineMembers (acc ++ sep ++ outlineQuote k ++ ": " ++ outline j) ", " rest

end

end EffectLoop.Json
