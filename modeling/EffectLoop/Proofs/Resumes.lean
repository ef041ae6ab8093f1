import EffectLoop.Proofs.Courses

/-!
# Coroutines resumed by hand

A coroutine that is resumed with one input after the other comes to one step after the other, or panics.
`ResumesTo` says that it does not panic and which steps these are, whatever state of the loop each resume
finds. `Code.Yields` says of code which steps the answers to its yields lead to, whatever the world replies to
what it asks in between. A block of such code comes to exactly these (`resumesTo_of_yields`): the first input
answers nothing, and each later one answers the yield before it.
-/

namespace EffectLoop

variable {Co Fu α β : Type}

/-! ## Acts that come to a value -/

/-- Whatever the world replies, the act asks on and obtains such a value. -/
inductive Act.Obtains (P : α → Prop) : Act Co Fu α → Prop
  | ret {v : α} (h : P v) : Obtains P (.ret v)
  | ask {q : Request} {k : q.Reply → Act Co Fu α} (h : ∀ r, Obtains P (k r)) : Obtains P (.ask q k)

theorem Act.Obtains.bind {P : α → Prop} {Q : β → Prop} {a : Act Co Fu α} {f : α → Act Co Fu β}
    (h : a.Obtains P) (hf : ∀ v, P v → (f v).Obtains Q) : (a.bind f).Obtains Q := by
  induction h with
  | ret hv => exact hf _ hv
  | ask _ ih => exact .ask ih

/-- A loop carries out an act that obtains a value with as much fuel as it takes. -/
theorem EventLoop.exists_runAct_of_obtains (p : Program Co Fu) {P : α → Prop} {a : Act Co Fu α}
    (h : a.Obtains P) (l : EventLoop Co Fu) :
    ∃ l' v, P v ∧ ∃ enough, ∀ fuel, enough ≤ fuel → l.runAct p fuel a = (l', some v) := by
  induction h generalizing l with
  | @ret v hv =>
    refine ⟨l, v, hv, 1, fun fuel hfuel => ?_⟩
    obtain ⟨fuel, rfl⟩ := Nat.exists_eq_add_of_le' hfuel
    rfl
  | @ask q k _ ih =>
    obtain ⟨l', v, hv, enough, hrun⟩ := ih _ (l.reply (l.spansOf none) q).1
    refine ⟨l', v, hv, enough + 1, fun fuel hfuel => ?_⟩
    obtain ⟨fuel, rfl⟩ := Nat.exists_eq_add_of_le' (Nat.le_of_add_left_le hfuel)
    exact hrun fuel (by omega)

/-! ## Resumes by hand -/

namespace EventLoop

/-- Resumed with these inputs, whatever loop each resume finds and if it is given fuel enough, the coroutine
comes to these steps; it does not panic. -/
def ResumesTo (p : Program Co Fu) : Co → List Resume → List Step → Prop
  | _, [], [] => True
  | co, r :: inputs, step :: steps => ∀ l : EventLoop Co Fu, ∃ l' co',
      (∃ enough, ∀ fuel, enough ≤ fuel → l.resumeByHand p fuel co r = (l', co', some step)) ∧
        ResumesTo p co' inputs steps
  | _, _, _ => False

/-- Handed an input, the coroutine comes to the first of the steps, and the answers lead it to the others. -/
def ComesTo (p : Program Co Fu) (l : EventLoop Co Fu) (co : Co) (answers : List Resume) (steps : List Step) :
    Prop :=
  ∃ step later l' co', steps = step :: later ∧ ResumesTo p co' answers later ∧
    ∃ enough, ∀ fuel, enough ≤ fuel → ∀ stages, enough ≤ stages →
      EventLoop.advanceByHand p fuel stages l co = (l', some (step, co'))

/-- A stage of a coroutine that comes to these steps. -/
inductive Heads (p : Program Co Fu) (answers : List Resume) : List Step → Progress Co → Prop
  | yield (y : Yielded) {co : Co} {later : List Step} (h : ResumesTo p co answers later) :
      Heads p answers (.yield y :: later) (.yield y co)
  | done (o : Outcome) {co : Co} {later : List Step} (h : ResumesTo p co answers later) :
      Heads p answers (.done o :: later) (.done o co)
  | more {co : Co} {steps : List Step} (h : ∀ l, ComesTo p l co answers steps) :
      Heads p answers steps (.more co)

section

variable {p : Program Co Fu} {co : Co} {answers : List Resume} {steps : List Step}

theorem comesTo_of_obtains (h : (p.advance co).Obtains (Heads p answers steps)) (l : EventLoop Co Fu) :
    ComesTo p l co answers steps := by
  obtain ⟨l', x, hx, enough, hrun⟩ := exists_runAct_of_obtains p h l
  cases hx with
  | yield y hrest =>
    refine ⟨_, _, l', _, rfl, hrest, enough + 1, fun fuel hfuel stages hstages => ?_⟩
    obtain ⟨stages, rfl⟩ := Nat.exists_eq_add_of_le' (Nat.le_of_add_left_le hstages)
    rw [advanceByHand, hrun fuel (by omega)]
  | done o hrest =>
    let left := l'.drivers.filter fun d => d.owner = .caller
    refine ⟨_, _, left.foldl (fun l d => l.cancel d.key) l', _, rfl, hrest, enough + 1,
      fun fuel hfuel stages hstages => ?_⟩
    obtain ⟨stages, rfl⟩ := Nat.exists_eq_add_of_le' (Nat.le_of_add_left_le hstages)
    rw [advanceByHand, hrun fuel (by omega)]
  | more hnext =>
    obtain ⟨step, later, l'', co', rfl, hrest, enough', hadvance⟩ := hnext l'
    refine ⟨step, later, l'', co', rfl, hrest, enough + enough' + 1, fun fuel hfuel stages hstages => ?_⟩
    obtain ⟨stages, rfl⟩ := Nat.exists_eq_add_of_le' (Nat.le_of_add_left_le hstages)
    rw [advanceByHand, hrun fuel (by omega)]
    exact hadvance fuel (by omega) stages (by omega)

theorem resumesTo_of_comesTo {r : Resume} (h : ∀ l, ComesTo p l (p.resume co r) answers steps) :
    ResumesTo p co (r :: answers) steps := by
  obtain ⟨step, later, _, _, rfl, _⟩ := h {}
  rw [ResumesTo]
  intro l
  obtain ⟨_, _, l', co', he, hrest, enough, hadvance⟩ := h l
  cases he
  refine ⟨l', co', ⟨enough, fun fuel hfuel => ?_⟩, hrest⟩
  rw [resumeByHand, hadvance fuel hfuel fuel hfuel]

end

end EventLoop

/-! ## Code that is answered -/

/-- The coroutine is done, and every answer that still comes fails. -/
def ending (o : Outcome) (answers : List Resume) : List Step :=
  .done o :: answers.map fun _ => .done (.error Block.completed)

/-- Whatever the world replies, the code comes to these steps if its yields get these answers. -/
inductive Code.Yields : Code → List Resume → List Step → Prop
  | done (r : Resume) (answers : List Resume) : Yields (.done r) answers (ending (r.map Output.wire) answers)
  | ask {q : Request} {k : q.Reply → Code} {answers : List Resume} {steps : List Step}
      (h : ∀ r, Yields (k r) answers steps) : Yields (.ask q k) answers steps
  | waits (y : Yielded) (k : Resume → Code) : Yields (.suspend y k) [] [.yield y]
  | goesOn (y : Yielded) {k : Resume → Code} {r : Resume} {answers : List Resume} {steps : List Step}
      (h : Yields (k r) answers steps) : Yields (.suspend y k) (r :: answers) (.yield y :: steps)

/-- Code at a stop from which the answers lead to the steps. -/
inductive Stage.Yields (answers : List Resume) (steps : List Step) : Stage Code → Prop
  | done {r : Resume} (h : (Code.done r).Yields answers steps) : Yields answers steps (.done r)
  | suspend {y : Yielded} {k : Resume → Code} (h : (Code.suspend y k).Yields answers steps) :
      Yields answers steps (.suspend y k)

/-- The code comes to such a stop. -/
theorem Code.Yields.stage {c : Code} {answers : List Resume} {steps : List Step} (h : c.Yields answers steps) :
    (c.stage : Act Co Code (Stage Code)).Obtains (Stage.Yields answers steps) := by
  induction h with
  | done r answers => exact .ret (.done (.done r answers))
  | ask _ ih => exact .ask ih
  | waits y k => exact .ret (.suspend (.waits y k))
  | goesOn y h _ => exact .ret (.suspend (.goesOn y h))

namespace EventLoop

section

variable {p : Program Co Code} {ofBlock : Block Code → Co} (hp : p.RunsBlocks ofBlock)
include hp

theorem comesTo_of_ret {b : Block Code} {x : Progress (Block Code)} {answers : List Resume} {steps : List Step}
    (hb : b.advance Code.stage = (.ret x : Act Co Code _)) (hx : Heads p answers steps (x.map ofBlock))
    (l : EventLoop Co Code) : ComesTo p l (ofBlock b) answers steps := by
  refine comesTo_of_obtains ?_ l
  rw [hp.advance, hb]
  exact .ret hx

/-- A coroutine that is over fails however it is resumed. -/
theorem resumesTo_of_over {b : Block Code} (hb : b.state = .over) (answers : List Resume) :
    ResumesTo p (ofBlock b) answers (answers.map fun _ => .done (.error Block.completed)) := by
  induction answers with
  | nil => exact True.intro
  | cons r answers ih =>
    refine resumesTo_of_comesTo fun l => ?_
    rw [hp.resume, show b.resume r = b by rw [Block.resume, hb]]
    exact comesTo_of_ret hp (x := .done (.error Block.completed) b) (by rw [Block.advance, hb]) (.done _ ih) l

section

variable {c : Code} {answers : List Resume} {steps : List Step} (h : c.Yields answers steps)
  (hrest : ∀ {y k later}, (Code.suspend y k).Yields answers (.yield y :: later) →
    ResumesTo p (ofBlock (.waiting k)) answers later)
include h hrest

/-- A block whose code runs comes to the steps of its code, if it does so from its next yield on. -/
theorem comesTo_of_running {ex : Exchange} (hex : ex.yielded = none) (l : EventLoop Co Code) :
    ComesTo p l (ofBlock ⟨ex, true, .polling ⟨[], .code c, true⟩⟩) answers steps := by
  let b : Block Code := ⟨ex, true, .polling ⟨[], .code c, true⟩⟩
  have hstop : ∀ stage, Stage.Yields answers steps stage →
      ∀ l, ComesTo p l (ofBlock (b.stop [] stage)) answers steps := by
    intro stage hstage l
    cases hstage with
    | done h =>
      cases h
      exact comesTo_of_ret hp rfl (.done _ (resumesTo_of_over hp rfl answers)) l
    | @suspend y k h =>
      have hlater : ∃ later, steps = .yield y :: later := by
        cases h <;> exact ⟨_, rfl⟩
      obtain ⟨later, rfl⟩ := hlater
      rw [Block.stop, hex]
      exact comesTo_of_ret hp rfl (.yield y (hrest h)) l
  refine comesTo_of_obtains ?_ l
  rw [hp.advance]
  exact .bind (P := fun x => Heads p answers steps (x.map ofBlock))
    (.bind h.stage fun stage hstage => .ret (.more (hstop stage hstage))) fun _ hx => .ret hx

end

/-- **A block of code comes to the steps of its code**, and the input of its first resume does not count. -/
theorem resumesTo_of_yields {b : Block Code} {r : Resume} {c : Code} {answers : List Resume}
    {steps : List Step} (hb : b.GoesOn r c) (h : c.Yields answers steps) :
    ResumesTo p (ofBlock b) (r :: answers) steps := by
  have hrest : ∀ {y k later}, (Code.suspend y k).Yields answers (.yield y :: later) →
      ResumesTo p (ofBlock (.waiting k)) answers later := by
    intro y k later hsuspend
    cases hsuspend with
    | waits => exact True.intro
    | goesOn _ h => exact resumesTo_of_yields (.waiting k _) h
  refine resumesTo_of_comesTo fun l => ?_
  rw [hp.resume]
  cases hb with
  | fresh => exact comesTo_of_running hp h hrest rfl l
  | waiting k => exact comesTo_of_ret hp rfl (.more (comesTo_of_running hp h hrest rfl)) l
termination_by answers.length

end

end EventLoop

end EffectLoop
