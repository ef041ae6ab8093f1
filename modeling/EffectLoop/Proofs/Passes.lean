import EffectLoop.Proofs.Answers

/-!
# Passing on in a row

A scheduler may limit how many outputs its coroutines pass through in a row. `Passed` and `Passing`
say of the history of a coroutine alone that there are so many, with no effect between them, at some
time or at its end; the count that the driver keeps does not occur in them.

* `Protocol.passing_iff`: what the driver has counted is what was passed through since the last
  effect.
* `Protocol.resumes_le`: how often the coroutine is resumed is bounded by the effects that are given
  to processors.
* `passes_are_limited`: under a limit the driver ends the coroutine by itself for its yields exactly if
  it exceeds the limit, and at the very yield that does; without a limit it never does.
-/

namespace EffectLoop

variable {Co Fu : Type}

/-- What the coroutine yields. -/
@[simp] def TaskEvent.yield? : TaskEvent Co → Option Yielded
  | .yielded y _ => some y
  | _ => none

/-- At the end of this history the coroutine has passed through so many outputs or more, with no effect
after the first of them. -/
def Passing (n : Nat) (h : List (TaskEvent Co)) : Prop :=
  ∃ outputs : List Output, outputs.length = n ∧
    outputs.map .pass <:+ h.filterMap TaskEvent.yield?

/-- At some time in this history the coroutine has passed through so many outputs in a row, with no
effect between them. -/
def Passed (n : Nat) (h : List (TaskEvent Co)) : Prop :=
  ∃ outputs : List Output, outputs.length = n ∧
    outputs.map .pass <:+: h.filterMap TaskEvent.yield?

/-- The driver has ended with this outcome, and not because the coroutine returned one. -/
def EndsUnreturned (o : Outcome) (h : List (TaskEvent Co)) : Prop :=
  .ended o ∈ h ∧ ∀ o', .returned o' ∉ h

section

variable {h : List (TaskEvent Co)} {n : Nat}

theorem passing_zero (h : List (TaskEvent Co)) : Passing 0 h :=
  ⟨[], rfl, List.nil_suffix⟩

theorem passing_nil : Passing n ([] : List (TaskEvent Co)) ↔ n = 0 := by
  constructor
  · rintro ⟨outputs, rfl, hsuffix⟩
    simpa using hsuffix
  · rintro rfl
    exact passing_zero []

theorem passing_snoc_pass {o : Output} {co : Co} :
    Passing n (h ++ [.yielded (.pass o) co]) ↔ Passing (n - 1) h := by
  cases n with
  | zero => exact ⟨fun _ => passing_zero h, fun _ => passing_zero _⟩
  | succ n =>
    constructor
    · rintro ⟨outputs, hlength, hsuffix⟩
      obtain ⟨init, x, rfl⟩ : ∃ init x, outputs = init ++ [x] := by
        rcases List.eq_nil_or_concat outputs with rfl | ⟨init, x, rfl⟩
        · cases hlength
        · exact ⟨init, x, List.concat_eq_append⟩
      rw [List.filterMap_append, List.map_append] at hsuffix
      obtain ⟨before, hbefore⟩ := hsuffix
      rw [← List.append_assoc] at hbefore
      exact ⟨init, by simpa using hlength, before, (List.append_inj' hbefore rfl).1⟩
    · rintro ⟨outputs, rfl, before, hbefore⟩
      refine ⟨outputs ++ [o], by simp, before, ?_⟩
      rw [List.filterMap_append, List.map_append, ← List.append_assoc, hbefore]
      rfl

theorem passing_snoc_effect {e : Effect} {co : Co} :
    Passing n (h ++ [.yielded (.effect e) co]) ↔ n = 0 := by
  constructor
  · rintro ⟨outputs, rfl, hsuffix⟩
    rw [List.filterMap_append] at hsuffix
    rcases List.suffix_concat_iff.mp hsuffix with hnil | ⟨init, hinit, _⟩
    · simpa using hnil
    · have hmem : Yielded.effect e ∈ outputs.map Yielded.pass := by
        rw [hinit]
        simp
      obtain ⟨_, _, heq⟩ := List.mem_map.mp hmem
      cases heq
  · rintro rfl
    exact passing_zero _

theorem passing_snoc {e : TaskEvent Co} (he : e.yield? = none) :
    Passing n (h ++ [e]) ↔ Passing n h := by
  simp only [Passing, List.filterMap_append, List.filterMap_cons, he, List.filterMap_nil,
    List.append_nil]

theorem passed_of_passing (hpassing : Passing n h) : Passed n h := by
  obtain ⟨outputs, hlength, hsuffix⟩ := hpassing
  exact ⟨outputs, hlength, hsuffix.isInfix⟩

theorem passed_snoc {e : TaskEvent Co} : Passed n (h ++ [e]) ↔ Passing n (h ++ [e]) ∨ Passed n h := by
  constructor
  · rintro ⟨outputs, hlength, hinfix⟩
    rw [List.filterMap_append] at hinfix
    cases he : e.yield? with
    | none =>
      rw [List.filterMap_cons, he] at hinfix
      exact .inr ⟨outputs, hlength, by simpa using hinfix⟩
    | some y =>
      rw [List.filterMap_cons, he] at hinfix
      rcases List.infix_concat_iff.mp hinfix with hsuffix | hinfix
      · refine .inl ⟨outputs, hlength, ?_⟩
        rw [List.filterMap_append, List.filterMap_cons, he]
        exact hsuffix
      · exact .inr ⟨outputs, hlength, hinfix⟩
  · rintro (hpassing | ⟨outputs, hlength, hinfix⟩)
    · exact passed_of_passing hpassing
    · refine ⟨outputs, hlength, hinfix.trans ?_⟩
      rw [List.filterMap_append]
      exact (List.prefix_append _ _).isInfix

theorem passed_snoc_iff {e : TaskEvent Co} (he : e.yield? = none) : Passed n (h ++ [e]) ↔ Passed n h := by
  rw [passed_snoc, passing_snoc he]
  exact or_iff_right_of_imp passed_of_passing

/-- What came before a moment with nothing passed through since the last effect does not count. -/
theorem passing_append {past rest : List (TaskEvent Co)} (hpast : ∀ n, Passing n past ↔ n = 0) :
    Passing n (past ++ rest) ↔ Passing n rest := by
  induction rest using List.reverseRecOn generalizing n with
  | nil => rw [List.append_nil, hpast, passing_nil]
  | append_singleton rest e ih =>
    rw [← List.append_assoc]
    cases e with
    | yielded y co =>
      cases y with
      | pass o => rw [passing_snoc_pass, passing_snoc_pass, ih]
      | effect e => rw [passing_snoc_effect, passing_snoc_effect]
    | _ => rw [passing_snoc rfl, passing_snoc rfl, ih]

end

/-- The outputs in a row that the driver has counted, while the coroutine may still go on. -/
@[simp] def Phase.passes? : Phase Co → Option Nat
  | .owed _ _ passes | .running passes => some passes
  | .routed _ _ _ | .processing _ _ _ => some 0
  | .ending _ | .closed _ => none

/-- How many resumes there may have been since the last effect was given to its processor. -/
@[simp] def Phase.resumes (limit : Nat) : Phase Co → Nat
  | .owed _ _ passes => passes
  | .running passes => passes + 1
  | .processing _ _ _ => 0
  | .routed _ _ _ | .ending _ | .closed _ => limit + 1

/-- Under this specification the driver ends with this outcome after this event of the coroutine, which
has passed through so many outputs in a row before. -/
inductive EndsAfter (spec : SchedulerSpec) (passes : Nat) : TaskEvent Co → Outcome → Prop
  | exceeded (o : Output) (co : Co) (limit : Nat)
      (h : spec.config.passThroughLimit = some limit) (hlt : limit < passes + 1) :
      EndsAfter spec passes (.yielded (.pass o) co) (.error (EventLoop.exceeded limit))
  | unknown (e : Effect) (co : Co) :
      EndsAfter spec passes (.yielded (.effect e) co) (.error (.unknownKind e.kind.tag))
  | returned (o : Outcome) : EndsAfter spec passes (.returned o) o

namespace Protocol

variable {spec : SchedulerSpec} {co : Co} {h : List (TaskEvent Co)} {ph : Phase Co} {limit passes : Nat}

/-- **The driver counts what is passed through since the last effect.** -/
theorem passing_iff (hp : Protocol spec co h ph) (hpasses : ph.passes? = some passes) (n : Nat) :
    Passing n h ↔ n ≤ passes := by
  induction hp generalizing passes n with
  | start =>
    cases hpasses
    rw [passing_nil, Nat.le_zero]
  | next hp hn ih =>
    cases hn with
    | passed _ o co h =>
      cases hpasses
      rw [passing_snoc_pass, ih rfl]
      omega
    | routed _ e co ref h =>
      cases hpasses
      rw [passing_snoc_effect, Nat.le_zero]
    | resumed _ _ _ => rw [passing_snoc rfl, ih hpasses]
    | given _ _ _ => rw [passing_snoc rfl, ih hpasses]
    | resolved _ _ _ _ => rw [passing_snoc rfl, ih hpasses]
    | _ => cases hpasses

theorem passes_le (hlimit : spec.config.passThroughLimit = some limit) (hp : Protocol spec co h ph)
    (hpasses : ph.passes? = some passes) : passes ≤ limit := by
  induction hp generalizing passes with
  | start =>
    cases hpasses
    exact Nat.zero_le _
  | next hp hn ih =>
    cases hn with
    | passed _ o co h =>
      cases hpasses
      exact h limit hlimit
    | routed _ _ _ _ _ =>
      cases hpasses
      exact Nat.zero_le _
    | resumed _ _ _ => exact ih hpasses
    | given _ _ _ => exact ih hpasses
    | resolved _ _ _ _ => exact ih hpasses
    | _ => cases hpasses

/-- As long as the coroutine may go on it has not returned, and has not exceeded the limit. -/
theorem unexceeded (hp : Protocol spec co h ph) (hpasses : ph.passes? = some passes) :
    (∀ o, .returned o ∉ h) ∧
      ∀ limit, spec.config.passThroughLimit = some limit → ¬ Passed (limit + 1) h := by
  induction hp generalizing passes with
  | start =>
    refine ⟨fun _ => List.not_mem_nil, fun limit _ => ?_⟩
    rintro ⟨outputs, hlength, hinfix⟩
    have hnil := List.infix_nil.mp hinfix
    rw [List.map_eq_nil_iff.mp hnil] at hlength
    cases hlength
  | @next h ph ph' e hp hn ih =>
    have hbefore : ∃ passes, ph.passes? = some passes := by
      cases hn with
      | exceeded _ _ _ _ _ _ => cases hpasses
      | unknown _ _ _ _ => cases hpasses
      | returned _ _ => cases hpasses
      | ended _ => cases hpasses
      | _ => exact ⟨_, rfl⟩
    obtain ⟨_, hbefore⟩ := hbefore
    obtain ⟨hreturned, hpassed⟩ := ih hbefore
    refine ⟨fun o ho => ?_, fun limit hlimit => ?_⟩
    · rcases List.mem_append.mp ho with ho | ho
      · exact hreturned o ho
      · cases List.mem_singleton.mp ho
        cases hn
        cases hpasses
    · rw [passed_snoc, (hp.next hn).passing_iff hpasses]
      rintro (hle | h)
      · have := passes_le hlimit (hp.next hn) hpasses
        omega
      · exact hpassed limit hlimit h

/-- Before the coroutine is over it was running, and its last event is why. -/
theorem endsAfter_of_ending {o : Outcome} (hp : Protocol spec co h (.ending o)) :
    ∃ past e passes, h = past ++ [e] ∧ Protocol spec co past (.running passes) ∧
      EndsAfter spec passes e o := by
  cases hp with
  | next hp hn =>
    cases hn with
    | exceeded passes out co limit hlimit hlt =>
      exact ⟨_, _, passes, rfl, hp, .exceeded out co limit hlimit hlt⟩
    | unknown passes e co _ => exact ⟨_, _, passes, rfl, hp, .unknown e co⟩
    | returned passes o => exact ⟨_, _, passes, rfl, hp, .returned o⟩

/-- A coroutine that is to end has exceeded the limit if the driver says so by itself, and then it did
so by its last yield. -/
theorem passed_iff_of_ending {o : Outcome} (hlimit : spec.config.passThroughLimit = some limit)
    (hp : Protocol spec co h (.ending o)) :
    (Passed (limit + 1) h ↔ o = .error (EventLoop.exceeded limit) ∧ ∀ o', .returned o' ∉ h) ∧
      (Passed (limit + 1) h → ∃ past out co', h = past ++ [.yielded (.pass out) co'] ∧
        ¬ Passed (limit + 1) past) := by
  obtain ⟨past, e, passes, rfl, hrun, hafter⟩ := hp.endsAfter_of_ending
  obtain ⟨hreturned, hpassed⟩ := hrun.unexceeded rfl
  have hle := passes_le hlimit hrun rfl
  have hiff : Passed (limit + 1) (past ++ [e]) ↔ Passing (limit + 1) (past ++ [e]) :=
    passed_snoc.trans (or_iff_left (hpassed limit hlimit))
  rw [hiff]
  cases hafter with
  | exceeded out co' limit' hlimit' hlt =>
    cases hlimit.symm.trans hlimit'
    have hpassing : Passing (limit + 1) (past ++ [.yielded (.pass out) co']) := by
      rw [passing_snoc_pass, hrun.passing_iff rfl]
      omega
    exact ⟨iff_of_true hpassing ⟨rfl, fun o' ho => hreturned o' (by simpa using ho)⟩,
      fun _ => ⟨past, out, co', rfl, hpassed limit hlimit⟩⟩
  | unknown e co' =>
    rw [passing_snoc_effect]
    exact ⟨iff_of_false (Nat.succ_ne_zero limit) (fun h => nomatch h.1),
      fun h => absurd h (Nat.succ_ne_zero limit)⟩
  | returned o =>
    have hnot : ¬ Passing (limit + 1) (past ++ [.returned o]) := by
      rw [passing_snoc rfl, hrun.passing_iff rfl]
      omega
    exact ⟨iff_of_false hnot fun h => h.2 o (by simp), fun h => absurd h hnot⟩

theorem ended_of_closed {o : Outcome} (hp : Protocol spec co h (.closed o)) : .ended o ∈ h := by
  cases hp with
  | next hp hn =>
    cases hn
    simp

theorem ending_of_ended {o : Outcome} (hp : Protocol spec co h ph) (ho : .ended o ∈ h) :
    ∃ past, h = past ++ [.ended o] ∧ Protocol spec co past (.ending o) := by
  obtain ⟨_, past, rfl⟩ := hp.closed_of_ended ho
  obtain ⟨_, hp', hn⟩ := hp.last
  cases hn
  exact ⟨past, rfl, hp'⟩

/-- The yield that exceeds the limit is the last thing that the coroutine does. -/
theorem last_of_passed (hlimit : spec.config.passThroughLimit = some limit) (hp : Protocol spec co h ph)
    (hpassed : Passed (limit + 1) h) : ∃ past out co', ¬ Passed (limit + 1) past ∧
      (h = past ++ [.yielded (.pass out) co'] ∨
        h = past ++ [.yielded (.pass out) co', .ended (.error (EventLoop.exceeded limit))]) := by
  cases ph with
  | ending o =>
    obtain ⟨past, out, co', rfl, hpast⟩ := (hp.passed_iff_of_ending hlimit).2 hpassed
    exact ⟨past, out, co', hpast, .inl rfl⟩
  | closed o =>
    obtain ⟨past, rfl, hending⟩ := hp.ending_of_ended hp.ended_of_closed
    rw [passed_snoc_iff rfl] at hpassed
    obtain ⟨hiff, hlast⟩ := hending.passed_iff_of_ending hlimit
    obtain ⟨past, out, co', rfl, hpast⟩ := hlast hpassed
    rw [(hiff.mp hpassed).1]
    exact ⟨past, out, co', hpast, .inr (List.append_assoc ..)⟩
  | _ => exact absurd hpassed ((hp.unexceeded rfl).2 limit hlimit)

/-- What is passed through comes back, or is the end of the coroutine. -/
theorem next_of_pass {past : List (TaskEvent Co)} {out : Output} {co' : Co} {e : TaskEvent Co}
    {ph' : Phase Co} (hlimit : spec.config.passThroughLimit = some limit)
    (hp : Protocol spec co (past ++ [.yielded (.pass out) co']) ph) (hn : Phase.Next spec ph e ph') :
    (Passing (limit + 1) (past ++ [.yielded (.pass out) co']) ∧
        e = .ended (.error (EventLoop.exceeded limit))) ∨
      (¬ Passing (limit + 1) (past ++ [.yielded (.pass out) co']) ∧ e = .resumed co' (.ok out)) := by
  obtain ⟨_, hrun, hlast⟩ := hp.last
  cases hlast with
  | passed passes _ _ h =>
    cases hn
    have := h limit hlimit
    rw [hp.passing_iff rfl]
    exact .inr ⟨by omega, rfl⟩
  | exceeded passes _ _ limit' hlimit' hlt =>
    cases hlimit.symm.trans hlimit'
    cases hn
    rw [passing_snoc_pass, hrun.passing_iff rfl]
    exact .inl ⟨by omega, rfl⟩

theorem resumes_phase_le (hlimit : spec.config.passThroughLimit = some limit)
    (hp : Protocol spec co h ph) : ph.resumes limit ≤ limit + 1 := by
  cases ph with
  | owed co input passes => exact Nat.le_succ_of_le (passes_le hlimit hp rfl)
  | running passes => exact Nat.succ_le_succ (passes_le hlimit hp rfl)
  | processing co ref e => exact Nat.zero_le _
  | _ => exact Nat.le_refl _

/-- **Resumes are bounded by effects**, in every part at the end of a history. -/
theorem resumes_le (hlimit : spec.config.passThroughLimit = some limit) (hp : Protocol spec co h ph)
    {part : List (TaskEvent Co)} (hpart : part <:+ h) :
    (part.filterMap TaskEvent.input?).length ≤
      (part.filterMap TaskEvent.given?).length * (limit + 1) + ph.resumes limit := by
  induction hp generalizing part with
  | start =>
    rw [List.suffix_nil.mp hpart]
    exact Nat.zero_le _
  | next hp hn ih =>
    rcases List.suffix_concat_iff.mp hpart with rfl | ⟨part, rfl, hbefore⟩
    · exact Nat.zero_le _
    · have hle := ih hbefore
      have hphase := resumes_phase_le hlimit hp
      rw [List.filterMap_append, List.filterMap_append, List.length_append, List.length_append,
        Nat.add_mul]
      cases hn <;> simp [List.filterMap_cons] at hle hphase ⊢ <;> omega

end Protocol

namespace EventLoop

/-- In this state the only thing that can happen next is this event of this driver, which is the next
step. -/
def OnlyNext (p : Program Co Fu) (l : EventLoop Co Fu) (key : DriverKey) (e : TaskEvent Co) : Prop :=
  happenings p l .step = [(key, e)] ∧ ∀ m, m ≠ .step → l.move p m = l ∧ happenings p l m = []

/-- What follows from the limit of its scheduler for the driver `key` with this history. -/
structure PassesLimited (p : Program Co Fu) (moves : List (Move Co Fu)) (key : DriverKey) (limit : Nat)
    (told : List (TaskEvent Co)) : Prop where
  /-- A driver that is over has failed with the limit by itself exactly if it was exceeded. -/
  ends_iff : (∃ o, .ended o ∈ told) →
    (EndsUnreturned (.error (exceeded limit)) told ↔ Passed (limit + 1) told)
  /-- The first yield that exceeds the limit is the last thing the coroutine does. -/
  last : Passed (limit + 1) told → ∃ past o co, ¬ Passed (limit + 1) past ∧
    (told = past ++ [.yielded (.pass o) co] ∨
      told = past ++ [.yielded (.pass o) co, .ended (.error (exceeded limit))])
  /-- The driver ends at once after it. -/
  exceeds : ∀ past o co, told = past ++ [.yielded (.pass o) co] → Passing (limit + 1) told →
    OnlyNext p (after p {} moves) key (.ended (.error (exceeded limit)))
  /-- Up to the limit what is passed through comes straight back. -/
  goes_on : ∀ past o co, told = past ++ [.yielded (.pass o) co] → ¬ Passing (limit + 1) told →
    OnlyNext p (after p {} moves) key (.resumed co (.ok o))
  /-- After an answer, whatever it is, nothing counts that was passed through before. -/
  restarts : ∀ past r rest, told = past ++ .resolved r :: rest → ∀ n, Passing n told ↔ Passing n rest
  resumes_le : (told.filterMap TaskEvent.input?).length ≤
    ((told.filterMap TaskEvent.given?).length + 1) * (limit + 1)
  /-- Between two effects there are finitely many resumes. -/
  resumes_between : ∀ part, part <:+: told → part.filterMap TaskEvent.given? = [] →
    (part.filterMap TaskEvent.input?).length ≤ limit + 1

section

variable (p : Program Co Fu)

/-- What follows at once is the only thing that can happen next, and it is what the protocol says. -/
theorem onlyNext_of_urgent {moves : List (Move Co Fu)} {key : DriverKey} {s : SchedulerId} {co : Co}
    {past : List (TaskEvent Co)} {e : TaskEvent Co}
    (h : history p moves key = .entered s co :: (past ++ [e])) (hu : e.urgent = true) :
    ∃ ph e' ph', Protocol (p.scheduler s) co (past ++ [e]) ph ∧
      Phase.Next (p.scheduler s) ph e' ph' ∧ OnlyNext p (after p {} moves) key e' := by
  have hurgent := urgent_after p moves (h.trans (List.cons_append ..).symm) hu
  obtain ⟨pollers, d, doing, _, _, hd, _⟩ := id hurgent
  cases key_of_driver? hd
  rcases told_after p moves d.key with ⟨hnone, _⟩ | ⟨s', co', told, ph, htold, _, hp, hstands⟩
  · rw [hnone] at h
    cases h
  · cases h.symm.trans htold
    obtain ⟨rfl, hst⟩ := hstands d (mem_of_driver? hd) rfl
    obtain ⟨e', ph', hn, hnext⟩ :=
      next_of_urgent p (orderly_after p moves) hurgent (mem_of_driver? hd) hst
    exact ⟨ph, e', ph', hp, hn, hnext⟩

/-- **Passing on in a row ends at the limit**, in every run of every program. If its scheduler has a
limit, the driver of a coroutine fails with it exactly if the coroutine has passed through one output
more in a row, with no effect between them: it does so at that yield, and the coroutine is not resumed
again. Every effect that comes to an answer, good or bad, makes the count begin anew. The resumes are
bounded by the effects that reach a processor. Without a limit the driver never fails this way. -/
theorem passes_are_limited (moves : List (Move Co Fu)) (key : DriverKey) {s : SchedulerId} {co : Co}
    {told : List (TaskEvent Co)} (h : history p moves key = .entered s co :: told) :
    (∀ limit, (p.scheduler s).config.passThroughLimit = some limit →
      PassesLimited p moves key limit told) ∧
    ((p.scheduler s).config.passThroughLimit = none →
      ∀ n, ¬ EndsUnreturned (.error (exceeded n)) told) := by
  obtain ⟨ph, hp⟩ := protocol_of_history p h
  refine ⟨fun limit hlimit => ?_, fun hnone n => ?_⟩
  · exact
      { ends_iff := by
          rintro ⟨o, ho⟩
          obtain ⟨past, rfl, hending⟩ := hp.ending_of_ended ho
          rw [passed_snoc_iff rfl, (hending.passed_iff_of_ending hlimit).1]
          constructor
          · rintro ⟨hended, hreturned⟩
            obtain ⟨past', heq, _⟩ := hp.ending_of_ended hended
            cases (List.append_inj' heq rfl).2
            exact ⟨rfl, fun o' ho' => hreturned o' (List.mem_append_left _ ho')⟩
          · rintro ⟨rfl, hreturned⟩
            exact ⟨ho, fun o' ho' => hreturned o' (by simpa using ho')⟩
        last := fun hpassed => hp.last_of_passed hlimit hpassed
        exceeds := by
          rintro past o co' rfl hpassing
          obtain ⟨ph, e, ph', hp, hn, hnext⟩ := onlyNext_of_urgent p h rfl
          rcases hp.next_of_pass hlimit hn with ⟨_, rfl⟩ | ⟨hnot, _⟩
          · exact hnext
          · exact absurd hpassing hnot
        goes_on := by
          rintro past o co' rfl hpassing
          obtain ⟨ph, e, ph', hp, hn, hnext⟩ := onlyNext_of_urgent p h rfl
          rcases hp.next_of_pass hlimit hn with ⟨hpast, _⟩ | ⟨_, rfl⟩
          · exact absurd hpast hpassing
          · exact hnext
        restarts := by
          rintro past r rest rfl n
          rw [← List.singleton_append, ← List.append_assoc] at hp ⊢
          obtain ⟨ph', hpast⟩ := hp.front
          obtain ⟨co', rfl⟩ := hpast.owed_of_resolved
          exact passing_append fun n => (hpast.passing_iff rfl n).trans Nat.le_zero
        resumes_le := by
          have hle := hp.resumes_le hlimit List.suffix_rfl
          have := hp.resumes_phase_le hlimit
          rw [Nat.add_mul]
          omega
        resumes_between := by
          rintro part ⟨past, rest, rfl⟩ hgiven
          obtain ⟨ph', hfront⟩ := hp.front
          have hle := hfront.resumes_le hlimit (List.suffix_append past part)
          have := hfront.resumes_phase_le hlimit
          rw [hgiven, List.length_nil] at hle
          omega }
  · rintro ⟨hended, hreturned⟩
    obtain ⟨_, rfl, hending⟩ := hp.ending_of_ended hended
    obtain ⟨past, e, passes, rfl, _, hafter⟩ := hending.endsAfter_of_ending
    generalize ho : Except.error (exceeded n) = o at hafter
    cases hafter with
    | exceeded _ _ limit hlimit _ =>
      rw [hnone] at hlimit
      cases hlimit
    | unknown _ _ => cases ho
    | returned o => exact hreturned o (by simp)

end

/-- Every resume is answered by passing on, and one output in a row is allowed. -/
def passesForever : Program Nat Unit where
  scheduler := fun _ => { config := { passThroughLimit := some 1 }, sink := ⟨"sink"⟩ }
  resume := fun co _ => co
  advance := fun co => .ret (.yield (.pass (.value .null)) co)
  work := fun _ => .ret (.done (.ok (.value .null)))
  invoke := fun _ _ => .ret (.coroutine 0)
  process := fun _ _ _ => ()
  dispatch := fun _ _ => .ret .null

/-- It is started and polled, until its driver is over. -/
def untilOver : List (Move Nat Unit) :=
  [.act (.start ⟨0⟩ "passing" 0 fun _ => .ret ()), .poll ⟨1⟩] ++ List.replicate 6 .step

/-- The second output is one too many. -/
theorem passesForever_fails : ∃ told, history passesForever untilOver ⟨1⟩ = .entered ⟨0⟩ 0 :: told ∧
    EndsUnreturned (.error (exceeded 1)) told ∧ (told.filterMap TaskEvent.input?).length = 2 := by
  have hhistory : history passesForever untilOver ⟨1⟩ = .entered ⟨0⟩ 0 ::
      [.resumed 0 (.ok (.value .null)), .yielded (.pass (.value .null)) 0,
        .resumed 0 (.ok (.value .null)), .yielded (.pass (.value .null)) 0,
        .ended (.error (exceeded 1))] := rfl
  have hlimited := (passes_are_limited passesForever untilOver ⟨1⟩ hhistory).1 1 rfl
  refine ⟨_, hhistory, (hlimited.ends_iff ⟨.error (exceeded 1), by simp⟩).mpr ?_, rfl⟩
  exact ⟨[.value .null, .value .null], rfl, List.infix_rfl⟩

end EventLoop

end EffectLoop
