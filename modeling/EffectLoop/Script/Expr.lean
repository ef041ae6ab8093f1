import EffectLoop.Coroutine.Code

/-!
# Expressions

What a script computes with: JSON whose parts may name variables, arguments, the clock, and what is
known of a task. `Expr.eval` asks the world where it has to.
-/

namespace EffectLoop.Script

/-- What a variable holds. -/
inductive Binding
  | output (o : Output)
  | error (e : EffectError)
deriving Inhabited

/-- The variables and arguments of a script. -/
structure Env where
  vars : Assoc String Binding := []
  args : List Json := []
deriving Inhabited

namespace Env

def find? (env : Env) (x : String) : Option Binding := env.vars.find? x

/-- Bind a variable. -/
def bind (env : Env) (x : String) (b : Binding) : Env := { env with vars := env.vars.insert x b }

/-- Bind a variable if there is one to bind. -/
def bindAs (env : Env) (x : Option String) (b : Binding) : Env := x.elim env fun x => env.bind x b

/-- The output in a variable: an error is its report, an unset variable null. -/
def output (env : Env) (x : String) : Output :=
  match env.find? x with
  | some (.output o) => o
  | some (.error e) => .value e.report
  | none => .value .null

/-- A variable as it travels. -/
def wire (env : Env) (x : String) : Json := (env.output x).wire

/-- The task in a variable. -/
def task? (env : Env) (x : String) : Option TaskHandle :=
  match env.find? x with
  | some (.output (.task h)) => some h
  | _ => none

end Env

/-- An expression. -/
inductive Expr
  | quote (v : Json)
  | var (x : String)
  | arg (i : Nat)
  | args
  | now
  | add (a b : Expr)
  | less (a b : Expr)
  | equal (a b : Expr)
  | get (base key : Expr)
  /-- Whether the task in a variable is settled. -/
  | settled (x : String)
  | name (x : String)
  /-- The task for the eye. -/
  | outline (x : String)
  | result (x : String)
  /-- Whether two variables hold the same output. -/
  | same (x y : String)
  | arr (items : List Expr)
  | obj (members : List (String × Expr))
deriving Inhabited

/-- Addition and order see numbers only; what is none counts as zero. -/
def number (v : Json) : Int := v.asInt64?.getD 0

/-- The sum as a signed 64-bit word. -/
def addWords (a b : Int) : Int := (a + b).bmod (Nat.pow 2 64)

/-- A member by name, an element by place, else null. -/
def lookUp (base key : Json) : Json :=
  match key with
  | .str k => base.field k
  | .int i => if 0 ≤ i then (base.item? i.toNat).getD .null else .null
  | _ => .null

/-- What is known of the task in a variable; null if it holds none. -/
def ofTask (env : Env) (x : String) (f : TaskHandle → Option Outcome → Json) : Inquiry Json :=
  match env.task? x with
  | some h => do
    let o ← Inquiry.request (.outcome h)
    pure (f h o)
  | none => pure .null

/-- The outcome of a task as a value, null while it has none. -/
def reportOutcome (o : Option Outcome) : Json := (o.map Outcome.report).getD .null

namespace Expr

mutual

/-- The value of an expression. -/
def eval (env : Env) : Expr → Inquiry Json
  | .quote v => pure v
  | .var x => pure (env.wire x)
  | .arg i => pure ((env.args[i]?).getD .null)
  | .args => pure (.arr env.args)
  | .now => do
    let now ← Inquiry.request .now
    pure (.nat now)
  | .add a b => do
    let a ← a.eval env
    let b ← b.eval env
    pure (.int (addWords (number a) (number b)))
  | .less a b => do
    let a ← a.eval env
    let b ← b.eval env
    pure (.bool (number a < number b))
  | .equal a b => do
    let a ← a.eval env
    let b ← b.eval env
    pure (.bool (a == b))
  | .get base key => do
    let base ← base.eval env
    let key ← key.eval env
    pure (lookUp base key)
  | .settled x => ofTask env x fun _ o => .bool o.isSome
  | .name x => ofTask env x fun h _ => .str h.name
  | .outline x => ofTask env x fun h o => .str (h.outline o.isSome)
  | .result x => ofTask env x fun _ o => reportOutcome o
  | .same x y => pure (.bool (env.output x == env.output y))
  | .arr items => do
    let items ← evalItems env items
    pure (.arr items)
  | .obj members => do
    let members ← evalMembers env members
    pure (.object members)

/-- The values of expressions, from the left. -/
def evalItems (env : Env) : List Expr → Inquiry (List Json)
  | [] => pure []
  | e :: rest => do
    let v ← e.eval env
    let vs ← evalItems env rest
    pure (v :: vs)

def evalMembers (env : Env) : List (String × Expr) → Inquiry (List (String × Json))
  | [] => pure []
  | (k, e) :: rest => do
    let v ← e.eval env
    let vs ← evalMembers env rest
    pure ((k, v) :: vs)

end

end Expr

end EffectLoop.Script
