import EffectLoop.Script.Expr

/-!
# Scripts

Small programs for the bodies of targets and processors: actions that give an output, and the
statements that order them.
-/

namespace EffectLoop.Script

/-- An output: the value of an expression, or what a variable holds. -/
inductive Operand
  | value (e : Expr)
  | variable (x : String)
deriving Inhabited

/-- How an effect is built: by a creator, or directly. -/
inductive EffectSpec
  | put (event : Expr)
  | call (target : Target) (args : List Expr)
  | fork (target : Target) (args : List Expr)
  | join (task : Operand)
  | custom (tag : String) (payload : Expr)
  | rawPut (event : Expr)
  | rawCustom (tag : String) (payload : Expr)
deriving Inhabited

/-- What to fail with. -/
inductive FailSpec
  | failure (message detail : Expr)
  /-- The error that a description asks for. -/
  | described (spec : Expr)
deriving Inhabited

/-- Which task to end early. -/
inductive Victim
  | variable (x : String)
  | id (e : Expr)
deriving Inhabited

/-- Something done in one go, with an output. -/
inductive Action
  | put (event : Expr)
  | call (target : Target) (args : List Expr)
  | fork (target : Target) (args : List Expr)
  | join (x : String)
  | perform (spec : EffectSpec)
  | pass (what : Operand)
  | log (v : Expr)
  | set (v : Expr)
  | intoValue (x : String)
  | intoTask (x : String)
  | sleep (ms : Expr)
  | turn
  | never
  | gate (name : String)
  | openGate (name : String) (v : Expr)
  | publish (x key : String)
  | fetch (key : String)
  | active (host : SchedulerId)
  | terminate (host : SchedulerId) (victim : Victim)
  | start (host : SchedulerId) (target : Target) (args : List Expr)
  | spawn (host : SchedulerId) (name : String) (target : Target) (args : List Expr)
  | run (host : SchedulerId) (name : String) (target : Target) (args : List Expr)
  | dispatch (event : Expr)
  | delegate (b : Builtin) (spec : Option EffectSpec)
deriving Inhabited

/-- A statement. -/
inductive Stmt
  /-- Do something and bind its output. -/
  | act (a : Action) (bound : Option String)
  /-- Run the body; on an error bind it and run the handler. -/
  | attempt (body handler : List Stmt) (bound : Option String)
  /-- Run the body some times, counting in a variable. -/
  | times (count : Expr) (body : List Stmt) (index : Option String)
  | choose (condition : Expr) (yes no : List Stmt)
  /-- Run both scripts concurrently and bind their outcomes. -/
  | both (left right : List Stmt) (bound : Option String)
  | give (what : Operand)
  | fail (spec : FailSpec)
  /-- Fail with the very error in a variable. -/
  | rethrow (x : String)
  | panic
deriving Inhabited

end EffectLoop.Script
