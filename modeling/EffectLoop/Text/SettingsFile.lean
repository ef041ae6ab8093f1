import EffectLoop.Data.Assoc
import EffectLoop.Text.Blank

/-!
# Settings files

Lines of the form `NAME=value`, optionally after `export`, with comments from `#` on. A value may be
quoted: single quotes keep everything, double quotes allow escapes and substitutions, and a quoted
value may run over several lines. `$NAME` and `${NAME}` stand for a setting already known. Reading
stops at the first line that is not of this form; a setting already made wins over the file.
-/

namespace EffectLoop.Text

/-! ## Lines -/

/-- Where the end of a line stands, as far as quotes and comments go. -/
inductive LineState
  | complete
  | escape
  | single
  | singleEscape
  | double
  | doubleEscape
  | blank
deriving DecidableEq

/-- The state after one more character; none where a comment begins. -/
def LineState.next (c : Char) : LineState → Option LineState
  | .blank =>
    if c = '#' then none
    else some (if c = '\\' then .escape else if c = '"' then .double
      else if c = '\'' then .single else .complete)
  | .complete =>
    some (if isBlank c ∧ c ≠ '\n' ∧ c ≠ '\r' then .blank else if c = '\\' then .escape
      else if c = '"' then .double else if c = '\'' then .single else .complete)
  | .escape => some .complete
  | .double => some (if c = '\\' then .doubleEscape else if c = '"' then .complete else .double)
  | .doubleEscape => some .double
  | .single => some (if c = '\\' then .singleEscape else if c = '\'' then .complete else .single)
  | .singleEscape => some .single

/-- The characters of a line before its comment, and the state at its end; none after a comment. -/
def scanLine : LineState → List Char → List Char × Option LineState
  | state, [] => ([], some state)
  | state, c :: rest =>
    match state.next c with
    | none => ([], none)
    | some state =>
      let (kept, state) := scanLine state rest
      (c :: kept, state)

/-- Cut a text after each line feed. -/
def physicalLines : List Char → List (List Char)
  | [] => []
  | c :: rest =>
    if c = '\n' then [c] :: physicalLines rest
    else
      match physicalLines rest with
      | [] => [[c]]
      | line :: lines => (c :: line) :: lines

/-- Cut off the line end. -/
def dropLineEnd (cs : List Char) : List Char :=
  match cs.reverse with
  | '\n' :: '\r' :: rest => rest.reverse
  | '\n' :: rest => rest.reverse
  | _ => cs

/-- Join lines while a quote is open; none where the text ends before a line does. -/
def logicalLines (held : List Char) (state : LineState) : List (List Char) → List (Option (List Char))
  | [] => if state = .complete then [] else [none]
  | line :: rest =>
    if ((held ++ line).dropWhile isBlank).head? = some '#' then
      some [] :: logicalLines [] .complete rest
    else
      match scanLine state line with
      | (kept, none) => some (held ++ kept) :: logicalLines [] .complete rest
      | (_, some .complete) => some (dropLineEnd (held ++ line)) :: logicalLines [] .complete rest
      | (_, some state) => logicalLines (held ++ line) state rest

/-! ## Values -/

/-- What the next character of a value is taken for. -/
inductive ValueMode
  | plain
  | single
  | escaped
  /-- Only blanks and a comment may follow. -/
  | ended
  /-- In the name of a setting after `$`. -/
  | name
  /-- In the name of a setting between braces. -/
  | braced
deriving DecidableEq

/-- A value while it is read. -/
structure ValueReader where
  output : List Char := []
  name : List Char := []
  mode : ValueMode := .plain
  /-- Inside double quotes. -/
  quoted : Bool := false

namespace ValueReader

/-- Put a known setting in place of the name read. -/
def substitute (known : String → Option String) (r : ValueReader) : ValueReader :=
  { r with
    output := r.output ++ ((known (String.ofList r.name)).getD "").toList
    name := [] }

def push (r : ValueReader) (c : Char) : ValueReader := { r with output := r.output ++ [c] }

/-- Read a value to its end; none if it is ill formed. -/
def read (known : String → Option String) (r : ValueReader) : List Char → Option ValueReader
  | [] => if r.mode = .braced ∨ r.mode = .single ∨ r.quoted then none else some (r.substitute known)
  | c :: rest =>
    match r.mode with
    | .ended =>
      if c = ' ' ∨ c = '\t' then r.read known rest
      else if c = '#' then some (r.substitute known)
      else none
    | .escaped =>
      if c ∈ ['\\', '\'', '"', '$', ' '] then ({ r with mode := .plain }.push c).read known rest
      else if c = 'n' then ({ r with mode := .plain }.push '\n').read known rest
      else none
    | .single =>
      if c = '\'' then { r with mode := .plain }.read known rest else (r.push c).read known rest
    | .name =>
      if c.isAlphanum then { r with name := r.name ++ [c] }.read known rest
      else if c = '\x7b' ∧ r.name = [] then { r with mode := .braced }.read known rest
      else if c = '$' then (r.substitute known).read known rest
      else ({ r.substitute known with mode := .plain }.push c).read known rest
    | .braced =>
      if c = '\x7d' then { r.substitute known with mode := .plain }.read known rest
      else { r with name := r.name ++ [c] }.read known rest
    | .plain =>
      if c = '$' then { r with mode := .name }.read known rest
      else if r.quoted then
        if c = '"' then { r with quoted := false }.read known rest
        else if c = '\\' then { r with mode := .escaped }.read known rest
        else (r.push c).read known rest
      else if c = '\'' then { r with mode := .single }.read known rest
      else if c = '"' then { r with quoted := true }.read known rest
      else if c = '\\' then { r with mode := .escaped }.read known rest
      else if c = ' ' ∨ c = '\t' then { r with mode := .ended }.read known rest
      else (r.push c).read known rest

end ValueReader

/-! ## Settings -/

/-- The name at the start of a line and what follows it. -/
def takeKey : List Char → Option (List Char × List Char)
  | [] => none
  | c :: rest =>
    if c.isAlpha ∨ c = '_' then
      some ((c :: rest).span fun c => c.isAlphanum || c == '_' || c == '.')
    else none

/-- What follows the equal sign after a name. -/
def takeEqual (cs : List Char) : Option (List Char) :=
  match cs.dropWhile isBlank with
  | '=' :: rest => some rest
  | _ => none

/-- The setting on a line, whose end blanks do not count: none if there is none on it, an error if it
is ill formed. -/
def readSetting (known : String → Option String) (line : List Char) :
    Except Unit (Option (String × String)) :=
  match trimChars line with
  | [] => .ok none
  | '#' :: _ => .ok none
  | line => do
    let some (key, rest) := takeKey line | .error ()
    let (key, value) ← match takeEqual rest with
      | some value => pure (key, value)
      | none =>
        if key = "export".toList then
          match takeKey (rest.dropWhile isBlank) with
          | some (key, rest) =>
            match takeEqual rest with
            | some value => pure (key, value)
            | none => .error ()
          | none => .error ()
        else .error ()
    match value.dropWhile isBlank with
    | [] => pure (some (String.ofList key, ""))
    | '#' :: _ => pure (some (String.ofList key, ""))
    | value =>
      match ({} : ValueReader).read known value with
      | some r => pure (some (String.ofList key, String.ofList r.output))
      | none => .error ()

/-- Add the settings on some lines to those made; `stored` holds what the lines before said. -/
def addSettings (made stored : Assoc String String) :
    List (Option (List Char)) → Assoc String String
  | [] => made
  | none :: _ => made
  | some line :: rest =>
    match readSetting (fun name => (made.find? name).or (stored.find? name)) line with
    | .error () => made
    | .ok none => addSettings made stored rest
    | .ok (some (key, value)) =>
      addSettings (if (made.find? key).isSome then made else made.insert key value)
        (stored.insert key value) rest

/-- Add the settings of a file to those already made. -/
def loadSettings (made : Assoc String String) (text : String) : Assoc String String :=
  let cs := match text.toList with
    | '\uFEFF' :: rest => rest
    | cs => cs
  addSettings made [] (logicalLines [] .complete (physicalLines cs))

end EffectLoop.Text
