import EffectLoop.Proofs.Flows
import EffectLoop.Proofs.Nested

/-!
# Coroutines that hand on what they get

A coroutine that has called a target, or joined a task, may end with the outcome that it gets (`HandsOn`), and
one that has forked a target may join it and do the same (`Gathers`). A block of code does so that ends in the
flows for these effects (`handsOn_of_call`, `gathers_of_fork`, `handsOn_of_join`), since they take an outcome
out of an answer as it is.

In a run such a coroutine goes from one effect to the next and nothing comes between. A task that was forked is
joined (`joins_of_forked`), and once the call or the join is answered with an outcome (`Gets`) nothing is left
but to end with it (`Gets.ends`). Between polls a coroutine that has been resumed waits for a processor
(`halted_of_idle`), so it has ended as soon as it has got its outcome (`gone_of_gets`).
-/

namespace EffectLoop

variable {Co Fu : Type}

/-! ## What is done with an outcome -/

/-- Resumed with an outcome, the coroutine ends with it. -/
def HandsOn (p : Program Co Fu) (co : Co) : Prop :=
  ∀ (o : Outcome) x, StopsAt p (p.advance (p.resume co (o.map .value))) x → ∃ co', x = .done o co'

/-- Resumed with a handle, the coroutine joins the task and hands on what it gets. -/
def Gathers (p : Program Co Fu) (co : Co) : Prop :=
  ∀ t x, StopsAt p (p.advance (p.resume co (.ok (.task t)))) x →
    ∃ co', x = .yield (.effect (.join t)) co' ∧ HandsOn p co'

section

variable {p : Program Co Code} {ofBlock : Block Code → Co} (hp : p.RunsBlocks ofBlock) {b : Block Code} {r : Resume}
  {c : Code} {x : Progress Co}
include hp

/-- A block whose code yields at once yields that. -/
theorem eq_yield_of_suspend {y : Yielded} {k : Resume → Code} (hb : b.GoesOn r c) (hsequential : c.Sequential)
    (hc : c = .suspend y k) (hx : StopsAt p (p.advance (p.resume (ofBlock b) r)) x) :
    x = .yield y (ofBlock (.waiting k)) := by
  rcases stops_of_goesOn hp hb hsequential hx with ⟨_, _, rfl, hstops⟩ | ⟨_, _, _, hstops⟩
  · rw [hc] at hstops
    cases hstops
    rfl
  · rw [hc] at hstops
    cases hstops

/-- A block that waits for a value with which its code is done hands on what it gets. -/
theorem handsOn_waiting : HandsOn p (ofBlock (.waiting fun r => .done ((r.bind Output.intoValue).map .value))) := by
  intro o x hx
  let k : Resume → Code := fun r => .done ((r.bind Output.intoValue).map .value)
  rcases stops_of_goesOn hp (.waiting k (o.map .value)) (.done _) hx with ⟨_, _, _, hstops⟩ | ⟨_, co, rfl, hstops⟩
  · cases hstops
  · cases hstops
    exact ⟨co, by cases o <;> rfl⟩

/-- **A block that goes on with a call hands on its outcome.** -/
theorem handsOn_of_call {target : Target} {args : List Json} (hb : b.GoesOn r (Flow.call target args).code)
    (hx : StopsAt p (p.advance (p.resume (ofBlock b) r)) x) :
    ∃ co, x = .yield (.effect (.call target args)) co ∧ HandsOn p co :=
  ⟨_, eq_yield_of_suspend hp hb (Flow.Sequential.call target args).code (Flow.asks_call target args _) hx,
    handsOn_waiting hp⟩

/-- A block that goes on with a join hands on its outcome. -/
theorem handsOn_of_join {t : TaskHandle} (hb : b.GoesOn r (Flow.join t).code)
    (hx : StopsAt p (p.advance (p.resume (ofBlock b) r)) x) :
    ∃ co, x = .yield (.effect (.join t)) co ∧ HandsOn p co :=
  ⟨_, eq_yield_of_suspend hp hb (Flow.Sequential.join t).code (Flow.asks_join t _) hx, handsOn_waiting hp⟩

/-- **A block that goes on with a fork and a join of that hands on its outcome.** -/
theorem gathers_of_fork {target : Target} {args : List Json}
    (hb : b.GoesOn r (Flow.fork target args >>= Flow.join).code)
    (hx : StopsAt p (p.advance (p.resume (ofBlock b) r)) x) :
    ∃ co, x = .yield (.effect (.fork target args)) co ∧ Gathers p co := by
  have hsequential : (Flow.fork target args >>= Flow.join).Sequential :=
    (Flow.Sequential.fork target args).bind Flow.Sequential.join
  refine ⟨_, eq_yield_of_suspend hp hb hsequential.code (Flow.asks_fork target args _) hx, fun t x hx => ?_⟩
  exact handsOn_of_join hp (.waiting _ _) hx

end

/-! ## Where a coroutine may stop -/

/-- Whether a coroutine may stop here between polls, if it is not at its very start: an effect was given to its
processor, or it has come to its end. -/
def TaskEvent.halts : TaskEvent Co → Bool
  | .given _ _ | .ended _ => true
  | _ => false

/-- What is told ends where a coroutine may stop. -/
def Halted (told : List (TaskEvent Co)) : Prop := ∃ past e, told = past ++ [e] ∧ e.halts = true

/-- Where a coroutine does not stop something follows. -/
theorem Halted.next {past rest : List (TaskEvent Co)} {e : TaskEvent Co} (h : Halted (past ++ e :: rest))
    (he : e.halts = false) : ∃ e' rest', rest = e' :: rest' := by
  cases rest with
  | cons e' rest' => exact ⟨e', rest', rfl⟩
  | nil =>
    obtain ⟨_, e', hlast, he'⟩ := h
    cases (List.append_inj' hlast rfl).2
    cases he.symm.trans he'

namespace EventLoop

section

variable {p : Program Co Fu} {moves : List (Move Co Fu)} {key : DriverKey} {co : Co}
  {hist rest : List (TaskEvent Co)} {ref : ProcessorRef} {e : Effect} {o : Outcome}

theorem halted_of_ended (h : .ended o ∈ history p moves key) : Halted (history p moves key) := by
  obtain ⟨past, hpast⟩ := exists_of_ended p h
  exact ⟨past, _, hpast, rfl⟩

/-- Between polls a coroutine that has begun waits for a processor, where polls go by owners. -/
theorem halted_of_idle (hown : OwnersPollIn p moves) (hidle : (after p {} moves).focus = .idle)
    {d : Driver Co Fu} (hd : d ∈ (after p {} moves).drivers) (hbegun : 1 < (history p moves d.key).length) :
    Halted (history p moves d.key) := by
  have hjob : d.job ≠ .plain := job_of_history hd fun hnil => by simp [hnil] at hbegun
  have hobserved : Observed (after p {} moves) := by
    unfold Observed
    rw [hidle]
    trivial
  rcases seen_of_observed p moves hd hjob hobserved with ⟨_, _, hentered⟩ | ⟨_, _, _, _, _, hst⟩ |
    ⟨told, ref, e, hgiven⟩
  · simp [hentered] at hbegun
  · have haway := place_of_idle hidle d.key
    rcases resumes_of_running (wakeful_after p moves hown).1 hd hst hobserved with ⟨_, hplace⟩ | hplace
    · cases haway.symm.trans hplace
    · cases haway.symm.trans hplace
  · exact ⟨told, _, hgiven, rfl⟩

/-! ## From one effect to the next -/

/-- A coroutine goes on by the protocol after an event. -/
theorem exists_path_of_event {event : TaskEvent Co} (h : history p moves key = hist ++ event :: rest)
    (hevent : event.enters = false) :
    ∃ s co told ph ph', hist = .entered s co :: told ∧ Protocol (p.scheduler s) co (told ++ [event]) ph ∧
      Phase.Path (p.scheduler s) ph rest ph' := by
  rcases told_after p moves key with ⟨hnil, _⟩ | ⟨s, co, told, ph, htold, _, hprotocol, _⟩
  · exact absurd (hnil.symm.trans h) (by simp)
  · rw [h] at htold
    cases hist with
    | nil =>
      cases htold
      cases hevent
    | cons first past =>
      obtain ⟨rfl, rfl⟩ := List.cons.inj htold
      have hsplit : Protocol (p.scheduler s) co ((past ++ [event]) ++ rest) ph := by
        simpa using hprotocol
      obtain ⟨ph', hprotocol, hpath⟩ := hsplit.path
      exact ⟨s, co, past, ph', ph, rfl, hprotocol, hpath⟩

/-- A coroutine yields what it may when it is resumed. -/
theorem stops_of_yielded {input : Resume} {y : Yielded} {co' : Co}
    (h : history p moves key = hist ++ .resumed co input :: .yielded y co' :: rest) :
    StopsAt p (p.advance (p.resume co input)) (.yield y co') := by
  rcases stops_of_resumed h with ⟨_, _, hyield, hstops⟩ | ⟨_, _, hreturned, _⟩
  · cases hyield
    exact hstops
  · cases hreturned

/-- What goes on after an effect was given to a processor is what has yielded it. -/
theorem exists_path_of_given (h : history p moves key = hist ++ .yielded (.effect e) co :: .given ref e :: rest) :
    ∃ s ph, Phase.Path (p.scheduler s) (.processing co ref e) rest ph := by
  obtain ⟨s, _, told, _, ph, htold, hprotocol, hpath⟩ :=
    exists_path_of_event (h.trans (List.append_cons ..)) rfl
  obtain ⟨co', rfl⟩ := hprotocol.processing_of_given
  obtain ⟨past, hpast, _⟩ := hprotocol.yielded_of_processing
  rw [List.append_cons past] at hpast
  obtain rfl := (List.append_inj' hpast rfl).1
  rw [← List.cons_append] at htold
  cases (List.append_inj' htold rfl).2
  exact ⟨s, ph, hpath⟩

/-- What follows is its answer. -/
theorem resolved_of_given {event : TaskEvent Co}
    (h : history p moves key = hist ++ .yielded (.effect e) co :: .given ref e :: event :: rest) :
    ∃ r, event = .resolved r := by
  obtain ⟨_, _, hpath⟩ := exists_path_of_given h
  cases hpath with
  | cons hn _ =>
    cases hn
    exact ⟨_, rfl⟩

/-- A coroutine whose effect is answered is resumed with the answer, and yields or ends as its code may. -/
theorem stops_of_resolved {r : Resume}
    (h : history p moves key = hist ++ .yielded (.effect e) co :: .given ref e :: .resolved r :: rest)
    (hhalted : Halted (history p moves key)) :
    ∃ event rest' s ph, rest = .resumed co r :: event :: rest' ∧
      Phase.Path (p.scheduler s) (.running 0) (event :: rest') ph ∧
      ((∃ y co', event = .yielded y co' ∧ StopsAt p (p.advance (p.resume co r)) (.yield y co')) ∨
        ∃ o co', event = .returned o ∧ StopsAt p (p.advance (p.resume co r)) (.done o co')) := by
  obtain ⟨s, ph, hpath⟩ := exists_path_of_given h
  have hresolved : history p moves key =
      (hist ++ [.yielded (.effect e) co, .given ref e]) ++ .resolved r :: rest := by
    simp [h]
  obtain ⟨event, rest, rfl⟩ := (hresolved ▸ hhalted).next rfl
  cases hpath with
  | cons hn hpath =>
    cases hn
    cases hpath with
    | cons hn hpath =>
      cases hn
      have hresumed : history p moves key =
          (hist ++ [.yielded (.effect e) co, .given ref e, .resolved r]) ++ .resumed co r :: rest := by
        simp [h]
      obtain ⟨event, rest, rfl⟩ := (hresumed ▸ hhalted).next rfl
      exact ⟨event, rest, s, ph, rfl, hpath, stops_of_resumed hresumed⟩

/-- **Who has forked a task to gather its outcome joins it.** -/
theorem joins_of_forked (hbuiltin : ∀ s, (p.scheduler s).processors = .builtin) (hco : Gathers p co) {t : TaskHandle}
    (h : history p moves key = hist ++ .yielded (.effect e) co :: .given ref e :: .resolved (.ok (.task t)) :: rest)
    (hhalted : Halted (history p moves key)) :
    ∃ hist' co' rest', HandsOn p co' ∧ history p moves key =
      hist' ++ .yielded (.effect (.join t)) co' :: .given (.builtin .join) (.join t) :: rest' := by
  obtain ⟨event, rest, s, ph, rfl, hpath, ⟨_, co', rfl, hstops⟩ | ⟨_, _, rfl, hstops⟩⟩ :=
    stops_of_resolved h hhalted
  · obtain ⟨_, hyield, hhands⟩ := hco t _ hstops
    cases hyield
    have hyielded : history p moves key = (hist ++ [.yielded (.effect e) co, .given ref e,
        .resolved (.ok (.task t)), .resumed co (.ok (.task t))]) ++ .yielded (.effect (.join t)) co' :: rest := by
      simp [h]
    obtain ⟨event, rest, rfl⟩ := (hyielded ▸ hhalted).next rfl
    have hget : (p.scheduler s).processors.get? (Effect.join t).kind = some (.builtin .join) := by
      rw [hbuiltin]
      rfl
    cases hpath with
    | cons hn hpath =>
      cases hn with
      | unknown _ _ _ hnone => cases hnone.symm.trans hget
      | routed _ _ _ _ hsome =>
        cases hsome.symm.trans hget
        cases hpath with
        | cons hn _ =>
          cases hn
          exact ⟨_, co', rest, hhands, hyielded⟩
  · obtain ⟨_, hyield, _⟩ := hco t _ hstops
    cases hyield

/-- A coroutine that has returned an outcome has ended with that wherever it stops. -/
theorem ended_of_returned (h : history p moves key = hist ++ .returned o :: rest)
    (hhalted : Halted (history p moves key)) : rest = [.ended o] := by
  obtain ⟨event, rest, rfl⟩ := (h ▸ hhalted).next rfl
  obtain ⟨s, _, told, _, ph, _, hprotocol, hpath⟩ := exists_path_of_event h rfl
  obtain ⟨_, _, hnext⟩ := hprotocol.last
  cases hnext
  cases hpath with
  | cons hn hpath =>
    cases hn
    cases hpath with
    | nil => rfl
    | cons hn _ => cases hn

/-! ## Coroutines that have got what they hand on -/

/-- An effect of the coroutine of the driver was answered with the outcome, and it hands that on. -/
def Gets (p : Program Co Fu) (moves : List (Move Co Fu)) (key : DriverKey) (o : Outcome) : Prop :=
  ∃ hist co ref e rest, HandsOn p co ∧ history p moves key =
    hist ++ .yielded (.effect e) co :: .given ref e :: .resolved (o.map .value) :: rest

/-- **Who hands on what it gets has ended with that** wherever it stops. -/
theorem Gets.ends (h : Gets p moves key o) (hhalted : Halted (history p moves key)) :
    ∃ past, history p moves key = past ++ [.ended o] := by
  obtain ⟨hist, co, ref, e, rest, hco, h⟩ := h
  obtain ⟨event, rest, _, ph, rfl, hpath, ⟨_, _, rfl, hstops⟩ | ⟨_, _, rfl, hstops⟩⟩ := stops_of_resolved h hhalted
  · obtain ⟨_, hdone⟩ := hco o _ hstops
    cases hdone
  · obtain ⟨_, hdone⟩ := hco o _ hstops
    cases hdone
    have hreturned : history p moves key = (hist ++ [.yielded (.effect e) co, .given ref e,
        .resolved (o.map .value), .resumed co (o.map .value)]) ++ .returned o :: rest := by
      simp [h]
    obtain rfl := ended_of_returned hreturned hhalted
    exact ⟨_, hreturned.trans (List.append_cons ..)⟩

theorem Gets.eq_of_ended {o' : Outcome} (h : Gets p moves key o) (hended : .ended o' ∈ history p moves key) :
    o' = o := by
  obtain ⟨past, hpast⟩ := h.ends (halted_of_ended hended)
  exact EventLoop.eq_of_ended p hended (by simp [hpast])

/-- Between polls its driver is gone. -/
theorem gone_of_gets (hown : OwnersPollIn p moves) (hidle : (after p {} moves).focus = .idle)
    (h : Gets p moves key o) : ∀ d ∈ (after p {} moves).drivers, d.key ≠ key := by
  rintro d hd rfl
  have hbegun : 1 < (history p moves d.key).length := by
    obtain ⟨_, _, _, _, _, _, hgets⟩ := h
    rw [hgets, List.length_append, List.length_cons, List.length_cons]
    omega
  obtain ⟨_, hended⟩ := h.ends (halted_of_idle hown hidle hd hbegun)
  exact gone_of_ended p moves hended d hd rfl

end

end EventLoop

end EffectLoop
