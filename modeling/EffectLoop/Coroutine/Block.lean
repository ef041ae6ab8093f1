import EffectLoop.Loop.Program

/-!
# Coroutines made of sequential code

A block is a coroutine whose code runs top to bottom and suspends where it needs an answer, alone or
in concurrent branches. Every resume polls the code once, the branches in order. The code and the
resumes meet in an exchange that holds at most one yield and at most one input: the first suspension
point of a poll yields, a second one fails at once, and the next resume's input goes to whichever
suspension point first asks for it. Code that waits for anything else is polled again at the next
resume only; if a poll leaves nothing to yield, the block fails.
-/

namespace EffectLoop

/-- Where code stops for an answer. -/
inductive Stage (F : Type)
  | done (r : Resume)
  /-- A suspension point: yield and go on with the next input. -/
  | suspend (y : Yielded) (k : Resume → F)
  /-- A wait for something that no resume answers. -/
  | foreign (w : Wait) (k : Resume → F)
  /-- Both codes, concurrently. -/
  | both (left right : F) (k : Resume → Resume → F)

/-- Code at rest between polls. -/
inductive Tree (F : Type)
  | code (f : F)
  | suspended (k : Resume → F)
  | foreign (w : Wait) (k : Resume → F)
  | both (left right : Tree F) (k : Resume → Resume → F)
  | finished (r : Resume)

/-- A branch around the part being polled. -/
inductive Crumb (F : Type)
  | left (right : Tree F) (k : Resume → Resume → F)
  | right (left : Tree F) (k : Resume → Resume → F)

/-- A poll under way: the part being polled, the branches around it, innermost first, and whether the
part is still to be polled. -/
structure Poll (F : Type) where
  path : List (Crumb F)
  focus : Tree F
  down : Bool

/-- Where yields and inputs meet. -/
structure Exchange where
  yielded : Option Yielded := none
  input : Option Resume := none

/-- Where a block stands. -/
inductive BlockState (F : Type)
  | resting (tree : Tree F)
  | polling (poll : Poll F)
  | over
  /-- Its code panicked in an earlier resume. -/
  | broken

/-- A coroutine made of code `F`. -/
structure Block (F : Type) where
  exchange : Exchange := {}
  started : Bool := false
  state : BlockState F

namespace Block

variable {F Co Fu : Type}

/-- The block of some code. -/
def ofCode (f : F) : Block F := { state := .resting (.code f) }

def yieldedTwice : EffectError := .plain "coroutine yielded twice without resuming"

def completed : EffectError := .plain "coroutine resumed after it completed"

def foreignAwait : EffectError := .plain "coroutine body awaited a future outside its yield handle"

/-- Hand in an input and begin a poll. The very first input has no suspension point to go to. -/
def resume (b : Block F) (input : Resume) : Block F :=
  match b.state with
  | .resting tree =>
    { exchange := { yielded := none, input := if b.started then some input else b.exchange.input }
      started := true
      state := .polling ⟨[], tree, true⟩ }
  | .polling _ => { b with state := .broken }
  | .over | .broken => b

/-- Go on with the poll at `focus`. -/
def pollAt (b : Block F) (path : List (Crumb F)) (focus : Tree F) (down : Bool) : Block F :=
  { b with state := .polling ⟨path, focus, down⟩ }

/-- Code has come to a stop under `path`. -/
def stop (b : Block F) (path : List (Crumb F)) : Stage F → Block F
  | .done r => b.pollAt path (.finished r) false
  | .suspend y k =>
    if b.exchange.yielded.isSome then b.pollAt path (.code (k (.error yieldedTwice))) true
    else { b with exchange := ⟨some y, none⟩ }.pollAt path (.suspended k) false
  | .foreign .turn k => b.pollAt path (.foreign .turn k) false
  | .foreign w k => b.pollAt path (.foreign w k) true
  | .both left right k => b.pollAt path (.both (.code left) (.code right) k) true

/-- Poll the part in focus. -/
def descend (run : F → Act Co Fu (Stage F)) (b : Block F) (path : List (Crumb F)) :
    Tree F → Act Co Fu (Progress (Block F))
  | .code f => (run f).bind fun stage => .ret (.more (b.stop path stage))
  | .suspended k =>
    match b.exchange.input with
    | some r =>
      .ret (.more ({ b with exchange := { b.exchange with input := none } }.pollAt path (.code (k r)) true))
    | none => .ret (.more (b.pollAt path (.suspended k) false))
  | .foreign .turn k => .ret (.more (b.pollAt path (.code (k (.ok (.value .null)))) true))
  | .foreign (.nested key) k =>
    .ret (.poll key fun
      | some outcome => b.pollAt path (.code (k (outcome.map .value))) true
      | none => b.pollAt path (.foreign (.nested key) k) false)
  | .foreign w k => .ask (.peek w) fun
    | some r => .ret (.more (b.pollAt path (.code (k r)) true))
    | none => .ret (.more (b.pollAt path (.foreign w k) false))
  | .both left right k => .ret (.more (b.pollAt (.left right k :: path) left true))
  | .finished r => .ret (.more (b.pollAt path (.finished r) false))

/-- The part in focus has been polled: go to the next branch, join finished branches, or end the
poll. -/
def ascend (b : Block F) (focus : Tree F) : List (Crumb F) → Progress (Block F)
  | .left right k :: path => .more (b.pollAt (.right focus k :: path) right true)
  | .right left k :: path =>
    match left, focus with
    | .finished r, .finished r' => .more (b.pollAt path (.code (k r r')) true)
    | left, focus => .more (b.pollAt path (.both left focus k) false)
  | [] =>
    match focus with
    | .finished r => .done (r.map Output.wire) { b with state := .over }
    | focus =>
      match b.exchange.yielded with
      | some y =>
        .yield y { b with exchange := { b.exchange with yielded := none }, state := .resting focus }
      | none => .done (.error foreignAwait) { b with state := .over }

/-- Go on with a block that was handed an input. -/
def advance (run : F → Act Co Fu (Stage F)) (b : Block F) : Act Co Fu (Progress (Block F)) :=
  match b.state with
  | .resting tree => .ret (.more (b.pollAt [] tree true))
  | .polling ⟨path, focus, true⟩ => b.descend run path focus
  | .polling ⟨path, focus, false⟩ => .ret (b.ascend focus path)
  | .over => .ret (.done (.error completed) b)
  | .broken => .panic

end Block

end EffectLoop
