import EffectLoop.Proofs.FanOut
import EffectLoop.Proofs.Relays

/-!
# Outcomes travel along chains

In a chain each coroutine obtains the outcome of the next task, by a call (`Link.calls`) or by a fork and a join
(`Link.forks`, `Link.joins`), and hands it on; at the end of the chain is a target with an outcome of its own
(`Ends`). One link is crossed in two ways. Who has come to its end has got the outcome of the next task first
(`Link.gets`), so no task settles with anything else. And between polls it has got that if the task has settled
(`Link.gets_of_idle`): the answer to a call gets to the caller within the poll that the call is over in
(`Returning.arrives`), and the end of a joined task is not forgotten. By induction over the chain all its tasks
settle with the outcome of the target at its end (`outcomes_travel`).
-/

namespace EffectLoop

variable {Co Fu : Type}

namespace EventLoop

section

variable {p : Program Co Fu} {first before moves : List (Move Co Fu)} {key n : DriverKey} {t t' : TaskHandle}
  {d : Driver Co Fu} {pollers : List (Poller Co Fu)} {o r : Outcome}

/-! ## Who works on a task -/

/-- As long as the task has no outcome, its driver is there. -/
theorem WorksOn.exists_driver (h : WorksOn p moves key t) (hnone : (after p {} moves).outcome? t = none) :
    ∃ d ∈ (after p {} moves).drivers, d.key = key := by
  have hbalanced := (orderly_after p moves).balanced
  have hallotted : ((after p {} moves).activeTasks t.scheduler).Allotted t.id := by
    obtain ⟨first, d, ⟨rest, rfl⟩, hd, _, rfl⟩ := h
    exact allotted_after p first rest hd
  have hactive := ((hbalanced.sound t.scheduler).active_iff t.id hallotted).mpr hnone
  obtain ⟨d, hd, hs, hid, _⟩ := (tasks_live_by_their_states p moves).2 t.scheduler t.id hactive
  exact ⟨d, hd, h.key_eq (List.prefix_refl _) hd hs hid⟩

/-- Its coroutine, if it has one, has come to its end with the outcome of the task. -/
theorem WorksOn.ended (h : WorksOn p moves key t) (hspared : Spared p moves t) (hne : history p moves key ≠ [])
    (ho : (after p {} moves).outcome? t = some o) : .ended o ∈ history p moves key := by
  obtain ⟨before, hle, pollers, d, hfocus, hd⟩ := h.finishing hspared ho
  cases key_of_driver? hd
  have hbefore := history_ne_nil p ((List.prefix_append ..).trans hle) (mem_of_driver? hd) hne
  exact ( history_prefix p hle d.key).subset (ended_of_finish p ⟨hfocus, hd⟩ hbefore)

/-! ## What a task comes to that hands on an outcome -/

/-- A task whose coroutine has got the outcome that it hands on settles with no other, -/
theorem WorksOn.eq_of_gets (h : WorksOn p moves key t) (hspared : Spared p moves t) (hgets : Gets p moves key r)
    (ho : (after p {} moves).outcome? t = some o) : o = r := by
  have hne : history p moves key ≠ [] := by
    obtain ⟨_, _, _, _, _, _, hgets⟩ := hgets
    simp [hgets]
  exact hgets.eq_of_ended (h.ended hspared hne ho)

/-- and with that one before the poll is over. -/
theorem WorksOn.outcome_of_gets (h : WorksOn p moves key t) (hspared : Spared p moves t)
    (hown : OwnersPollIn p moves) (hidle : (after p {} moves).focus = .idle) (hgets : Gets p moves key r) :
    (after p {} moves).outcome? t = some r := by
  cases ho : (after p {} moves).outcome? t with
  | some o => rw [h.eq_of_gets hspared hgets ho]
  | none =>
    obtain ⟨d, hd, hk⟩ := h.exists_driver ho
    exact absurd hk (gone_of_gets hown hidle hgets d hd)

/-! ## What a poll under way comes to -/

/-- Nothing happens in a move that has to wait for the poll under way. -/
theorem history_of_refused {doing : Doing Co Fu} {m : Move Co Fu}
    (hfocus : (after p {} moves).focus = .active pollers n doing) (hm : m ≠ .step) :
    history p (moves ++ [m]) key = history p moves key := by
  rw [history_snoc, happenings, acting_of_ne_step hm, move_of_active p hfocus hm,
    newcomers_eq_nil (orderly_after p moves).proper rfl]
  exact List.append_nil _

/-- What every move keeps or turns into something that lasts is kept in a run, or has turned into that. -/
theorem kept_or_turned {P Q : List (Move Co Fu) → Prop} (hmove : ∀ upto m, P upto → P (upto ++ [m]) ∨ Q (upto ++ [m]))
    (hlasts : ∀ upto m, Q upto → Q (upto ++ [m])) (hle : before <+: moves) (h : P before) : P moves ∨ Q moves := by
  obtain ⟨more, rfl⟩ := hle
  induction more using List.reverseRecOn with
  | nil => exact .inl (by rwa [List.append_nil])
  | append_singleton more m ih =>
    rw [← List.append_assoc]
    exact ih.elim (hmove _ m) fun hturned => .inr (hlasts _ m hturned)

/-! ## Answers on their way to a caller -/

/-- The answer to the call of the coroutine of the driver is on its way there. -/
inductive Returning (l : EventLoop Co Fu) (d : Driver Co Fu) (r : Resume) : Prop
  | concludes {pollers : List (Poller Co Fu)} (h : CallOver l pollers d.key r) (hd : l.driver? d.key = some d)
  | returns {pollers : List (Poller Co Fu)} {r₀ : Resume} (hr : r₀.wired = r)
      (h : Acts l pollers d (.answer r₀ ⟨[.call], []⟩))
  | answers {pollers : List (Poller Co Fu)} (h : Acts l pollers d (.answer r {}))

theorem Returning.active {l : EventLoop Co Fu} {r : Resume} (h : Returning l d r) :
    ∃ pollers key doing, l.focus = .active pollers key doing := by
  cases h with
  | concludes h hd =>
    cases h with
    | computed h => exact ⟨_, _, _, h⟩
    | driven h => exact ⟨_, _, _, h⟩
  | returns hr h => exact ⟨_, _, _, h.focus⟩
  | answers h => exact ⟨_, _, _, h.focus⟩

/-- A move takes the answer further, or to the coroutine, or has to wait. -/
theorem Returning.move {r : Resume} (h : Returning (after p {} moves) d r) (hjob : d.job ≠ .plain) (m : Move Co Fu) :
    (history p (moves ++ [m]) d.key = history p moves d.key ∧ Returning (after p {} (moves ++ [m])) d r) ∨
      history p (moves ++ [m]) d.key = history p moves d.key ++ [.resolved r] := by
  by_cases hm : m = .step
  · subst hm
    obtain ⟨co, passes, kind, hjob⟩ : ∃ co passes kind, d.job = .coroutine co passes kind := by
      cases hd : d.job with
      | plain => exact absurd hd hjob
      | coroutine co passes kind => exact ⟨co, passes, kind, rfl⟩
    cases h with
    | concludes hover hd =>
      obtain ⟨hsame, r₀, hr, hacts⟩ := hover.step p hd
      exact .inl ⟨hsame, .returns hr hacts⟩
    | @returns pollers r₀ hr hacts =>
      have hanswers : Acts (after p {} (moves ++ [.step])) pollers d (.answer r₀.wired {}) := by
        rw [after_snoc, move_step_of_driver p hacts.focus hacts.driver nofun]
        exact ⟨rfl, hacts.driver⟩
      refine .inl ⟨?_, .answers (hr ▸ hanswers)⟩
      rw [history_step p hacts.focus hacts.driver]
      simp [Doing.event?, hjob]
    | answers hacts =>
      right
      rw [history_step p hacts.focus hacts.driver]
      simp [Doing.event?, hjob]
  · obtain ⟨_, _, _, hfocus⟩ := h.active
    left
    rw [history_of_refused hfocus hm, after_snoc, move_of_active p hfocus hm]
    exact ⟨rfl, h⟩

/-- **An answer on its way to a caller gets there**, before the poll is over. -/
theorem Returning.arrives {r : Resume} (h : Returning (after p {} before) d r) (hjob : d.job ≠ .plain)
    (hle : before <+: moves) :
    (history p moves d.key = history p before d.key ∧ (after p {} moves).focus ≠ .idle) ∨
      ∃ rest, history p moves d.key = history p before d.key ++ .resolved r :: rest := by
  have hrun := kept_or_turned (P := fun upto => history p upto d.key = history p before d.key ∧
      Returning (after p {} upto) d r)
    (Q := fun upto => ∃ rest, history p upto d.key = history p before d.key ++ .resolved r :: rest)
    (fun upto m ⟨hsame, hreturning⟩ => ?_) (fun upto m ⟨rest, hrest⟩ => ?_) hle ⟨rfl, h⟩
  · refine hrun.imp_left (And.imp_right fun hreturning hidle => ?_)
    obtain ⟨_, _, _, hfocus⟩ := hreturning.active
    cases hidle.symm.trans hfocus
  · rw [← hsame]
    exact (hreturning.move hjob m).imp_right fun hresolved => ⟨[], hresolved⟩
  · rw [history_snoc, hrest, List.append_assoc, List.cons_append]
    exact ⟨_, rfl⟩

/-! ## A called coroutine and its caller -/

/-- A called coroutine belongs to its caller. -/
theorem owner_of_called {co : Co} (h : Enters (after p {} first) key .call (.coroutine co) n t)
    (hle : first ++ [.step] <+: moves) (hd : d ∈ (after p {} moves).drivers) (hk : d.key = n) :
    d.owner = .driver key := by
  obtain ⟨x, hx, _, rfl, _⟩ := h.arrival p
  have hmem : x.driver p (after p {} first) (some key) ∈ (after p {} (first ++ [.step])).drivers := by
    rw [after_snoc, (drivers_move_of_arrival p hx).1]
    exact List.mem_append_right _ List.mem_cons_self
  have ho := orderly_after p (first ++ [.step])
  obtain ⟨rest, rfl⟩ := hle
  rw [after_append] at hd
  obtain ⟨d₀, hd₀, hk₀, howner, _⟩ := exists_earlier p ho.proper rest hd (hk ▸ (ho.proper _ hmem).1)
  cases ho.eq_of_key hd₀ hmem (hk₀.trans hk)
  have hnested : x.nested = true := by
    cases h with
    | intro hfocus hf _ =>
      cases key_of_driver? hf
      rw [arrival?_of_driver hfocus hf] at hx
      cases hx
      rfl
  rw [← howner, Arrival.owner_driver, Arrival.owner, hnested]
  rfl

/-- Who polls the coroutine that it has called, where polls go by owners, does so for the call. -/
theorem waiting_of_ladder {l : EventLoop Co Fu} {home : DriverKey} {doing : Doing Co Fu} {f : Driver Co Fu}
    (hladder : Ladder l home f.key pollers) (hfocus : l.focus = .active pollers f.key doing) (hf : f ∈ l.drivers)
    (howner : f.owner = .driver d.key) (hne : d.key ≠ f.key) (hcalls : Calls f.key (l.seat d)) :
    ∃ ps, pollers = .waiting d.key ⟨[.call], []⟩ :: ps := by
  cases hladder with
  | floor _ h => exact absurd howner ((h f hf rfl).2 d.key)
  | @rung _ k poller ps hp h _ =>
    cases howner.symm.trans (h f hf rfl).2
    rw [seat_of_ne hfocus hne] at hcalls
    cases poller with
    | hand => cases hp
    | body k k' =>
      cases hp
      rw [seatIn, if_pos rfl] at hcalls
      exact hcalls.elim
    | waiting k spot =>
      cases hp
      rw [seatIn, if_pos rfl] at hcalls
      obtain ⟨_, rfl⟩ := hcalls
      exact ⟨ps, rfl⟩

section

variable {co co' : Co} {target : Target} {hist : List (TaskEvent Co)} {args : List Json}
  (henters : Enters (after p {} first) key .call (.coroutine co') n t)
  (hfocus : (after p {} first).focus = .active pollers key (.invoke .call target (.ret (.coroutine co')) {}))
  (hcall : history p first key = hist ++ [.yielded (.effect (.call target args)) co,
    .given (.builtin .call) (.call target args)])
  (hle : first ++ [.step] <+: moves)

include hcall in
/-- The caller is there from its call on. -/
theorem exists_caller_of_part {part : List (Move Co Fu)} (hd : d ∈ (after p {} moves).drivers) (hk : d.key = key)
    (hpart : first ++ [.step] <+: part) (hmoves : part <+: moves) :
    ∃ x ∈ (after p {} part).drivers, x.key = key ∧ x.job ≠ .plain := by
  subst hk
  have hne : history p part d.key ≠ [] := by
    obtain ⟨told, htold⟩ := history_prefix p ((List.prefix_append ..).trans hpart) d.key
    simp [← htold, hcall]
  obtain ⟨more, rfl⟩ := hmoves
  rw [after_append] at hd
  obtain ⟨x, hx, hxk, _⟩ := exists_earlier p (orderly_after p part).proper more hd (old_of_history p hne)
  exact ⟨x, hx, hxk, job_of_history hx (hxk ▸ hne)⟩

include henters hfocus

theorem exists_caller : n = ⟨(after p {} first).lastKey + 1⟩ ∧ ∃ d, d.key = key ∧
    Acts (after p {} first) pollers d (.invoke .call target (.ret (.coroutine co')) {}) := by
  cases henters with
  | intro _ hd _ =>
    cases key_of_driver? hd
    exact ⟨rfl, _, rfl, hfocus, hd⟩

include hcall hle

/-- What follows for the caller is its answer, with the outcome of the task that was entered. -/
theorem outcome_of_called {e : TaskEvent Co} {rest : List (TaskEvent Co)}
    (h : history p moves key = history p first key ++ e :: rest) :
    ∃ o : Outcome, e = .resolved (o.map .value) ∧ (after p {} moves).outcome? t = some o := by
  have hn := Nests.of_called p henters
  obtain ⟨_, d, rfl, hacts⟩ := exists_caller henters hfocus
  have hjob : d.job ≠ .plain := job_of_history (mem_of_driver? hacts.driver) (by simp [hcall])
  obtain ⟨o, hover, rfl, _⟩ := (callsNested_of_nests p hn hacts hle).resumed rfl hjob e rest h
  exact ⟨o, rfl, ((nested_runs_settle p hn hle).settled o hover).1⟩

/-- Where polls go by owners, it is the caller that polls the called coroutine, and for the call. -/
theorem waiting_of_called (hown : OwnersPollIn p moves) {ps : List (Poller Co Fu)} {doing : Doing Co Fu}
    {f caller : Driver Co Fu} (hactive : (after p {} moves).focus = .active ps n doing)
    (hf : f ∈ (after p {} moves).drivers) (hn : f.key = n) (hcaller : caller ∈ (after p {} moves).drivers)
    (hk : caller.key = key) : ∃ ps', ps = .waiting key ⟨[.call], []⟩ :: ps' := by
  subst hn hk
  have howner := owner_of_called henters hle hf rfl
  obtain ⟨hnew, x, hx, hacts⟩ := exists_caller henters hfocus
  have hcalled : CalledBy p moves f.key caller.key := by
    obtain ⟨rest, rfl⟩ := hle
    rw [List.append_cons] at hcall
    exact ⟨first, rest, pollers, _, target, args, co', x, by simp, hcall, hfocus, hx ▸ hacts.driver, hnew⟩
  have hcalls := (given_of_called p hcalled ⟨f, hf, rfl⟩).2 caller hcaller rfl
  have hne : caller.key ≠ f.key := by
    have hold := ((orderly_after p first).proper x (mem_of_driver? hacts.driver)).1
    rw [hx] at hold
    intro hsame
    rw [hsame, hnew] at hold
    exact Nat.not_succ_le_self _ hold
  obtain ⟨home, hladder⟩ := (wakeful_after p moves hown).1.laddered _ _ _ hactive
  exact waiting_of_ladder hladder hactive hf howner hne hcalls

/-- **A caller has got its answer between polls**, if the coroutine that it has called has come to its end. -/
theorem answered_of_finishing (hown : OwnersPollIn p moves) (hidle : (after p {} moves).focus = .idle)
    (hd : d ∈ (after p {} moves).drivers) (hk : d.key = key) (hbefore : before ++ [.step] <+: moves)
    (hfinishing : Finishing (after p {} before) n o) :
    ∃ e rest, history p moves key = history p first key ++ e :: rest := by
  obtain ⟨ps, f, hends, hf⟩ := hfinishing
  obtain rfl := key_of_driver? hf
  have hmem := mem_of_driver? hf
  have hto := (List.prefix_append before [.step]).trans hbefore
  have hentered := henters.before p hle hto ((orderly_after p before).proper f hmem).1
  have hlater := hentered.trans (List.prefix_append before [.step])
  obtain ⟨caller, hcaller, hck, _⟩ := exists_caller_of_part hcall hd hk hentered hto
  obtain ⟨ps, rfl⟩ := waiting_of_called henters hfocus hcall hentered
    (fun part hpart => hown part (hpart.trans hto)) hends hmem rfl hcaller hck
  obtain ⟨o', hleft⟩ := left_of_finish p ⟨hends, hf⟩
  obtain ⟨caller, hcaller, rfl, hjob⟩ := exists_caller_of_part hcall hd hk hlater hbefore
  have hreturning : Returning (after p {} (before ++ [.step])) caller (o'.map .value) :=
    .concludes (.driven hleft) (driver?_of_mem (orderly_after p _) hcaller)
  rcases hreturning.arrives hjob hbefore with ⟨_, hactive⟩ | ⟨rest, hrest⟩
  · exact absurd hidle hactive
  · obtain ⟨told, htold⟩ := history_prefix p ((List.prefix_append ..).trans hlater) caller.key
    rw [← htold, List.append_assoc] at hrest
    cases told with
    | nil => exact ⟨_, _, hrest⟩
    | cons e told => exact ⟨_, _, hrest⟩

end

/-! ## Links -/

/-- The coroutine of the driver `key` obtains the outcome of the task `t`, and hands it on. -/
inductive Link (p : Program Co Fu) (moves : List (Move Co Fu)) (key : DriverKey) : TaskHandle → Prop
  /-- It has called a coroutine that was entered as `t`, -/
  | calls {first : List (Move Co Fu)} {pollers : List (Poller Co Fu)} {hist : List (TaskEvent Co)} {target : Target}
      {args : List Json} {co co' : Co} {n : DriverKey} {t : TaskHandle} (hco : HandsOn p co)
      (hle : first ++ [.step] <+: moves)
      (hcall : history p first key = hist ++ [.yielded (.effect (.call target args)) co,
        .given (.builtin .call) (.call target args)])
      (hfocus : (after p {} first).focus = .active pollers key (.invoke .call target (.ret (.coroutine co')) {}))
      (henters : Enters (after p {} first) key .call (.coroutine co') n t) : Link p moves key t
  /-- or it has forked `t` and joins it next, -/
  | forks {hist rest : List (TaskEvent Co)} {target : Target} {args : List Json} {co : Co} {t : TaskHandle}
      (hco : Gathers p co)
      (hfork : history p moves key = hist ++ .yielded (.effect (.fork target args)) co ::
        .given (.builtin .fork) (.fork target args) :: .resolved (.ok (.task t)) :: rest) : Link p moves key t
  /-- or it has come to join `t`, which it has forked, after whatever else. -/
  | joins {hist rest : List (TaskEvent Co)} {target : Target} {args : List Json} {co : Co} {t : TaskHandle}
      (hco : HandsOn p co)
      (hfork : [.given (.builtin .fork) (.fork target args), .resolved (.ok (.task t))] <:+: hist)
      (hjoin : history p moves key = hist ++ .yielded (.effect (.join t)) co ::
        .given (.builtin .join) (.join t) :: rest) : Link p moves key t

theorem Link.begun (h : Link p moves key t) : 1 < (history p moves key).length := by
  cases h with
  | calls _ hle hcall _ _ =>
    have hlength := ( history_prefix p ((List.prefix_append ..).trans hle) key).length_le
    simp only [hcall, List.length_append, List.length_cons, List.length_nil] at hlength
    omega
  | forks _ hfork =>
    simp only [hfork, List.length_append, List.length_cons]
    omega
  | joins _ _ hjoin =>
    simp only [hjoin, List.length_append, List.length_cons]
    omega

/-- Who has joined a task gets the outcome of the task. -/
theorem gets_of_joined {hist rest : List (TaskEvent Co)} {co : Co} {event : TaskEvent Co} (hco : HandsOn p co)
    (h : history p moves key = hist ++ .yielded (.effect (.join t)) co :: .given (.builtin .join) (.join t) ::
      event :: rest) : ∃ o, Gets p moves key o ∧ (after p {} moves).outcome? t = some o := by
  obtain ⟨r, rfl⟩ := resolved_of_given h
  obtain ⟨o, ho, rfl⟩ := outcome_of_joined p (h.trans (List.append_cons ..))
  exact ⟨o, ⟨hist, co, _, _, rest, hco, h⟩, ho⟩

/-- On what was given to a processor something has followed when the coroutine has come to its end. -/
theorem next_of_ended {hist rest : List (TaskEvent Co)} {ref : ProcessorRef} {e : Effect}
    (hended : .ended o ∈ history p moves key) (h : history p moves key = hist ++ .given ref e :: rest) :
    ∃ event rest', rest = event :: rest' := by
  cases rest with
  | cons event rest' => exact ⟨event, rest', rfl⟩
  | nil =>
    obtain ⟨past, hpast⟩ := exists_of_ended p hended
    cases (List.append_inj' (hpast.symm.trans h) rfl).2

/-- **Who has come to its end has got the outcome of the task first.** -/
theorem Link.gets (h : Link p moves key t) (hbuiltin : ∀ s, (p.scheduler s).processors = .builtin)
    (hended : .ended o ∈ history p moves key) :
    ∃ o', Gets p moves key o' ∧ (after p {} moves).outcome? t = some o' := by
  cases h with
  | @calls first pollers hist target args co _ n _ hco hle hcall hfocus henters =>
    obtain ⟨told, htold⟩ := history_prefix p ((List.prefix_append ..).trans hle) key
    have hgiven : history p moves key = hist ++ .yielded (.effect (.call target args)) co ::
        .given (.builtin .call) (.call target args) :: told := by
      simp [← htold, hcall]
    obtain ⟨event, rest, rfl⟩ := next_of_ended hended (hgiven.trans (List.append_cons ..))
    obtain ⟨o', rfl, ho'⟩ := outcome_of_called henters hfocus hcall hle htold.symm
    exact ⟨o', ⟨hist, co, _, _, rest, hco, hgiven⟩, ho'⟩
  | forks hco hfork =>
    obtain ⟨hist, co, rest, hco, hjoin⟩ := joins_of_forked hbuiltin hco hfork (halted_of_ended hended)
    obtain ⟨event, rest, rfl⟩ := next_of_ended hended (hjoin.trans (List.append_cons ..))
    exact gets_of_joined hco hjoin
  | joins hco _ hjoin =>
    obtain ⟨event, rest, rfl⟩ := next_of_ended hended (hjoin.trans (List.append_cons ..))
    exact gets_of_joined hco hjoin

/-- **Between polls it has got the outcome of a task that has settled**, unless somebody is about to poll it. -/
theorem Link.gets_of_idle (h : Link p moves key t) (hbuiltin : ∀ s, (p.scheduler s).processors = .builtin)
    (hown : OwnersPollIn p moves) (hidle : (after p {} moves).focus = .idle)
    (hd : Attended (HeardIn p moves) (after p {} moves) d) (hk : d.key = key)
    (hqueue : d.home ∉ (after p {} moves).queue) (hspared : Spared p moves t)
    (ho : (after p {} moves).outcome? t = some r) : Gets p moves key r := by
  have hjoined : ∀ {hist rest : List (TaskEvent Co)} {co : Co}, HandsOn p co →
      history p moves key = hist ++ .yielded (.effect (.join t)) co :: .given (.builtin .join) (.join t) :: rest →
      Gets p moves key r := by
    intro hist rest co hco hjoin
    cases rest with
    | nil =>
      rw [← hk, List.append_cons] at hjoin
      cases (unsettled_of_joining p hown hidle hd hqueue hjoin).symm.trans ho
    | cons event rest =>
      obtain ⟨o, hgets, ho'⟩ := gets_of_joined hco hjoin
      cases ho.symm.trans ho'
      exact hgets
  have hbegun := h.begun
  cases h with
  | @calls first pollers hist target args co _ n _ hco hle hcall hfocus henters =>
    obtain ⟨before, hbefore, hfinishing⟩ :=
      finishing_of_settled p hle henters hspared (List.prefix_refl _) ho
    obtain ⟨event, rest, htold⟩ :=
      answered_of_finishing henters hfocus hcall hle hown hidle hd.mem hk hbefore hfinishing
    obtain ⟨o', rfl, ho'⟩ := outcome_of_called henters hfocus hcall hle htold
    cases ho.symm.trans ho'
    rw [hcall, List.append_assoc] at htold
    exact ⟨hist, co, _, _, rest, hco, htold⟩
  | forks hco hfork =>
    obtain ⟨_, _, _, hco, hjoin⟩ :=
      joins_of_forked hbuiltin hco hfork (hk ▸ halted_of_idle hown hidle hd.mem (hk ▸ hbegun))
    exact hjoined hco hjoin
  | joins hco _ hjoin => exact hjoined hco hjoin

/-! ## Ends -/

/-- The target on which the driver works has come to its end with the outcome. -/
inductive Ends (p : Program Co Fu) (moves : List (Move Co Fu)) (key : DriverKey) (r : Outcome) : Prop
  /-- It is a coroutine, and has returned the outcome, -/
  | returns (h : .returned r ∈ history p moves key)
  /-- or it is a plain computation that has come to it, -/
  | computes {before : List (Move Co Fu)} {pollers : List (Poller Co Fu)} {d : Driver Co Fu} {x : Resume}
      (hle : before <+: moves) (hk : d.key = key) (hjob : d.job = .plain)
      (h : Acts (after p {} before) pollers d (.work (.ret (.done x)) {})) (hx : x.map Output.wire = r)
  /-- or its driver ends for a reason of its own, as on the yield of an effect that nobody serves. -/
  | finishes {before : List (Move Co Fu)} (hle : before ++ [.step] <+: moves)
      (h : Finishing (after p {} before) key r)

/-- A plain computation has come to its end, and its driver is about to. -/
inductive Concluding (l : EventLoop Co Fu) (d : Driver Co Fu) (r : Outcome) : Prop
  | works {pollers : List (Poller Co Fu)} {x : Resume} (h : Acts l pollers d (.work (.ret (.done x)) {}))
      (hx : x.map Output.wire = r)
  | answers {pollers : List (Poller Co Fu)} {x : Resume} (h : Acts l pollers d (.answer x {}))
      (hx : x.map Output.wire = r)
  | finishes {pollers : List (Poller Co Fu)} (h : Acts l pollers d (.finish r))

theorem Concluding.acts {l : EventLoop Co Fu} (h : Concluding l d r) : ∃ pollers doing, Acts l pollers d doing := by
  cases h with
  | works h _ | answers h _ | finishes h => exact ⟨_, _, h⟩

theorem Concluding.move (h : Concluding (after p {} moves) d r) (hjob : d.job = .plain) (m : Move Co Fu) :
    Concluding (after p {} (moves ++ [m])) d r ∨
      ∃ before, before ++ [.step] <+: moves ++ [m] ∧ Finishing (after p {} before) d.key r := by
  by_cases hm : m = .step
  · subst hm
    cases h with
    | works hacts hx =>
      left
      rw [after_snoc, move_step_of_driver p hacts.focus hacts.driver nofun]
      exact .answers ⟨rfl, hacts.driver⟩ hx
    | @answers pollers x hacts hx =>
      have hstep : (after p {} moves).move p .step =
          (after p {} moves).focusOn pollers d.key (.finish (x.map Output.wire)) := by
        rw [move_step_of_driver p hacts.focus hacts.driver nofun]
        simp [stepDriver, stepAnswer, hjob]
      left
      rw [after_snoc, hstep, ← hx]
      exact .finishes ⟨rfl, hacts.driver⟩
    | finishes hacts => exact .inr ⟨moves, List.prefix_refl _, _, d, hacts.focus, hacts.driver⟩
  · obtain ⟨_, _, hacts⟩ := h.acts
    left
    rwa [after_snoc, move_of_active p hacts.focus hm]

/-- The driver of a plain computation that has come to its end is on its way to its own. -/
theorem finishing_of_computed {x : Resume} (hle : before <+: moves) (hjob : d.job = .plain)
    (hacts : Acts (after p {} before) pollers d (.work (.ret (.done x)) {})) :
    (∃ pollers doing, Acts (after p {} moves) pollers d doing) ∨
      ∃ upto, upto ++ [.step] <+: moves ∧ Finishing (after p {} upto) d.key (x.map Output.wire) := by
  refine (kept_or_turned (P := fun part => Concluding (after p {} part) d (x.map Output.wire))
    (Q := fun part => ∃ upto, upto ++ [.step] <+: part ∧ Finishing (after p {} upto) d.key (x.map Output.wire))
    (fun part m h => h.move hjob m) (fun part m h => ?_) hle (.works hacts rfl)).imp_left Concluding.acts
  obtain ⟨upto, hupto, hfinishing⟩ := h
  exact ⟨upto, hupto.trans (List.prefix_append ..), hfinishing⟩

/-- **A task settles with nothing but the outcome that its target has come to**, -/
theorem Ends.eq (h : Ends p moves key r) (hworks : WorksOn p moves key t) (hspared : Spared p moves t)
    (ho : (after p {} moves).outcome? t = some o) : o = r := by
  cases h with
  | returns hreturned =>
    have hended := hworks.ended hspared (List.ne_nil_of_mem hreturned) ho
    obtain ⟨past, rest, hpast⟩ := List.append_of_mem hreturned
    have hr : .ended r ∈ history p moves key := by
      rw [hpast, ended_of_returned hpast (halted_of_ended hended)]
      simp
    exact eq_of_ended p hended hr
  | computes hle hk hjob hacts hx =>
    subst hk hx
    rcases finishing_of_computed hle hjob hacts with ⟨_, _, hacts⟩ | ⟨upto, hupto, hfinishing⟩
    · have hnone := hworks.unsettled hspared (List.prefix_refl _) (mem_of_driver? hacts.driver) rfl
      cases hnone.symm.trans ho
    · exact Option.some.inj (ho.symm.trans (hworks.outcome_of_finishing hspared hupto hfinishing))
  | finishes hle hfinishing =>
    exact Option.some.inj (ho.symm.trans (hworks.outcome_of_finishing hspared hle hfinishing))

/-- and does so before the poll is over. -/
theorem Ends.outcome (h : Ends p moves key r) (hworks : WorksOn p moves key t) (hspared : Spared p moves t)
    (hown : OwnersPollIn p moves) (hidle : (after p {} moves).focus = .idle) :
    (after p {} moves).outcome? t = some r := by
  cases ho : (after p {} moves).outcome? t with
  | some o => rw [h.eq hworks hspared ho]
  | none =>
    exfalso
    cases h with
    | returns hreturned =>
      obtain ⟨d, hd, rfl⟩ := hworks.exists_driver ho
      obtain ⟨past, rest, hpast⟩ := List.append_of_mem hreturned
      have hbegun : 1 < (history p moves d.key).length := by
        obtain ⟨_, _, _, _, _, rfl, _⟩ := exists_path_of_event hpast rfl
        rw [hpast, List.length_append, List.length_cons, List.length_cons]
        omega
      obtain rfl := ended_of_returned hpast (halted_of_idle hown hidle hd hbegun)
      exact gone_of_ended p moves (hpast.trans (List.append_cons ..)) d hd rfl
    | computes hle hk hjob hacts hx =>
      subst hk
      rcases finishing_of_computed hle hjob hacts with ⟨_, _, hacts⟩ | ⟨upto, hupto, hfinishing⟩
      · cases hidle.symm.trans hacts.focus
      · cases ho.symm.trans (hworks.outcome_of_finishing hspared hupto hfinishing)
    | finishes hle hfinishing => cases ho.symm.trans (hworks.outcome_of_finishing hspared hle hfinishing)

/-! ## Chains -/

/-- The tasks of a chain, from the outermost one on, each with a coroutine that hands on the outcome of the next.
The target at its end has come to the outcome `r`. -/
inductive Chain (p : Program Co Fu) (moves : List (Move Co Fu)) (r : Outcome) : List TaskHandle → Prop
  /-- That is a task itself, -/
  | ends {key : DriverKey} {t : TaskHandle} (hworks : WorksOn p moves key t) (hends : Ends p moves key r) :
      Chain p moves r [t]
  /-- or a plain computation on which the last coroutine works for its call. -/
  | computes {d : Driver Co Fu} {before : List (Move Co Fu)} {pollers : List (Poller Co Fu)}
      {hist : List (TaskEvent Co)} {target : Target} {args : List Json} {co : Co} {x : Resume} (hco : HandsOn p co)
      (hle : before <+: moves)
      (hcall : history p before d.key = hist ++ [.yielded (.effect (.call target args)) co,
        .given (.builtin .call) (.call target args)])
      (hacts : Acts (after p {} before) pollers d (.work (.ret (.done x)) ⟨[.call], []⟩))
      (hx : x.map Output.wire = r) : Chain p moves r [d.task]
  | link {key : DriverKey} {t t' : TaskHandle} {rest : List TaskHandle} (hworks : WorksOn p moves key t)
      (hlink : Link p moves key t') (hchain : Chain p moves r (t' :: rest)) : Chain p moves r (t :: t' :: rest)

/-- Who works on a plain computation for a call gets what that comes to, before the poll is over. -/
theorem gets_of_computed {hist : List (TaskEvent Co)} {target : Target} {args : List Json} {co : Co} {x : Resume}
    (hco : HandsOn p co) (hle : before <+: moves)
    (hcall : history p before d.key = hist ++ [.yielded (.effect (.call target args)) co,
      .given (.builtin .call) (.call target args)])
    (hacts : Acts (after p {} before) pollers d (.work (.ret (.done x)) ⟨[.call], []⟩)) :
    (history p moves d.key = history p before d.key ∧ (after p {} moves).focus ≠ .idle) ∨
      Gets p moves d.key (x.map Output.wire) := by
  have hjob : d.job ≠ .plain := job_of_history (mem_of_driver? hacts.driver) (by simp [hcall])
  have hreturning : Returning (after p {} before) d x.wired := .concludes (.computed hacts.focus) hacts.driver
  refine (hreturning.arrives hjob hle).imp_right fun ⟨rest, hrest⟩ => ?_
  have hwired : x.wired = (x.map Output.wire).map .value := by cases x <;> rfl
  rw [hcall, List.append_assoc, hwired] at hrest
  exact ⟨hist, co, _, _, rest, hco, hrest⟩

/-- **No task of a chain settles with anything but the outcome of the target at its end.** -/
theorem Chain.settles {chain : List TaskHandle} (hchain : Chain p moves r chain)
    (hbuiltin : ∀ s, (p.scheduler s).processors = .builtin) (hspared : ∀ t ∈ chain, Spared p moves t) :
    ∀ t ∈ chain, ∀ o, (after p {} moves).outcome? t = some o → o = r := by
  induction hchain with
  | ends hworks hends =>
    intro t' ht o ho
    cases List.mem_singleton.mp ht
    exact hends.eq hworks (hspared _ ht) ho
  | @computes d before pollers hist target args co x hco hle hcall hacts hx =>
    intro t' ht o ho
    cases List.mem_singleton.mp ht
    have hworks : WorksOn p moves d.key d.task := .of_driver? hle hacts.driver rfl
    obtain ⟨told, htold⟩ := history_prefix p hle d.key
    have hended := hworks.ended (hspared _ ht) (by simp [← htold, hcall]) ho
    rcases gets_of_computed hco hle hcall hacts with ⟨hsame, _⟩ | hgets
    · obtain ⟨_, _, hnext⟩ := next_of_ended hended (hsame.trans (hcall.trans (List.append_cons ..)))
      cases hnext
    · rw [hx] at hgets
      exact hgets.eq_of_ended hended
  | @link key t t' rest hworks hlink hchain ih =>
    have hinner := ih fun t ht => hspared t (List.mem_cons_of_mem _ ht)
    intro t₁ ht o ho
    rcases List.mem_cons.mp ht with rfl | ht
    · have hne : history p moves key ≠ [] := fun hnil => by simpa [hnil] using hlink.begun
      have hended := hworks.ended (hspared _ List.mem_cons_self) hne ho
      obtain ⟨o', hgets, ho'⟩ := hlink.gets hbuiltin hended
      rw [hgets.eq_of_ended hended]
      exact hinner t' List.mem_cons_self o' ho'
    · exact hinner t₁ ht o ho

/-- **All the tasks of a chain settle with the outcome of the target at its end.** -/
theorem Chain.arrives {chain : List TaskHandle} (hchain : Chain p moves r chain)
    (hbuiltin : ∀ s, (p.scheduler s).processors = .builtin) (hspared : ∀ t ∈ chain, Spared p moves t)
    (hown : OwnersPollIn p moves) (hidle : (after p {} moves).focus = .idle)
    (hrest : ∀ d ∈ (after p {} moves).drivers, d.task ∈ chain →
      Attended (HeardIn p moves) (after p {} moves) d ∧ d.home ∉ (after p {} moves).queue) :
    ∀ t ∈ chain, (after p {} moves).outcome? t = some r := by
  induction hchain with
  | ends hworks hends =>
    intro t' ht
    cases List.mem_singleton.mp ht
    exact hends.outcome hworks (hspared _ ht) hown hidle
  | @computes d before pollers hist target args co x hco hle hcall hacts hx =>
    intro t' ht
    cases List.mem_singleton.mp ht
    have hworks : WorksOn p moves d.key d.task := .of_driver? hle hacts.driver rfl
    rcases gets_of_computed hco hle hcall hacts with ⟨_, hactive⟩ | hgets
    · exact absurd hidle hactive
    · exact hworks.outcome_of_gets (hspared _ ht) hown hidle (hx ▸ hgets)
  | @link key t t' rest hworks hlink hchain ih =>
    have hinner := ih (fun t ht => hspared t (List.mem_cons_of_mem _ ht))
      fun d hd ht => hrest d hd (List.mem_cons_of_mem _ ht)
    intro t₁ ht
    rcases List.mem_cons.mp ht with rfl | ht
    · cases ho : (after p {} moves).outcome? t₁ with
      | some o =>
        have hsettles := (Chain.link hworks hlink hchain).settles hbuiltin hspared
        rw [hsettles t₁ List.mem_cons_self o ho]
      | none =>
        -- the driver would have got the outcome, and so be gone
        obtain ⟨d, hd, hk⟩ := hworks.exists_driver ho
        have htask := hworks.task_eq (List.prefix_refl _) hd hk
        obtain ⟨hattended, hqueue⟩ := hrest d hd (htask ▸ List.mem_cons_self)
        have hgets := hlink.gets_of_idle hbuiltin hown hidle hattended hk hqueue
          (hspared t' (List.mem_cons_of_mem _ List.mem_cons_self)) (hinner t' List.mem_cons_self)
        exact absurd hk (gone_of_gets hown hidle hgets d hd)
    · exact hinner t₁ ht

/-- What can be relied on about the tasks of a chain whose innermost target has come to an outcome. -/
structure Travels (p : Program Co Fu) (moves : List (Move Co Fu)) (r : Outcome) (chain : List TaskHandle) :
    Prop where
  /-- A task that has settled has settled with exactly this outcome, -/
  settles : ∀ t ∈ chain, ∀ o, (after p {} moves).outcome? t = some o → o = r
  /-- and is not left in the register. -/
  left : ∀ t ∈ chain, (after p {} moves).outcome? t ≠ none →
    ((after p {} moves).activeTasks t.scheduler).contains t.id = false
  /-- They all have, up to the outermost one, when no poll is under way and nobody is about to poll one of
  their coroutines. -/
  arrives : OwnersPollIn p moves → (after p {} moves).focus = .idle →
    (∀ d ∈ (after p {} moves).drivers, d.task ∈ chain →
      Attended (HeardIn p moves) (after p {} moves) d ∧ d.home ∉ (after p {} moves).queue) →
    ∀ t ∈ chain, (after p {} moves).outcome? t = some r

/-- **Results and errors travel unchanged through chains of any depth**, in which calls alternate with forks
and joins as they may. -/
theorem outcomes_travel {chain : List TaskHandle} (hbuiltin : ∀ s, (p.scheduler s).processors = .builtin)
    (hchain : Chain p moves r chain) (hspared : ∀ t ∈ chain, Spared p moves t) : Travels p moves r chain where
  settles := hchain.settles hbuiltin hspared
  left := by
    intro t _ hsettled
    obtain ⟨o, ho⟩ := Option.ne_none_iff_exists'.mp hsettled
    exact ((orderly_after p moves).balanced.sound t.scheduler).not_contains_of_outcome ho
  arrives := hchain.arrives hbuiltin hspared

end

/-! ## A chain of three -/

/-- It is called, forks the innermost target and joins it. -/
def middle : Target := ⟨"middle", .coroutine, ⟨"middle", []⟩⟩

/-- It fails. -/
def innermost : Target := ⟨"innermost", .function, ⟨"innermost", []⟩⟩

def declined : EffectError := .failure "declined" (.object [("code", .nat 7)])

def callsMiddle : Block Code := .ofCode (Flow.call middle []).code

def forksInnermost : Block Code := .ofCode (Flow.fork innermost [] >>= Flow.join).code

def relaying : Program (Block Code) Code where
  scheduler _ := { sink := ⟨"sink"⟩ }
  resume := Block.resume
  advance := Block.advance Code.stage
  work := Code.await
  invoke target _ :=
    .ret (if target.name = "middle" then .coroutine forksInnermost else .pending (.done (.error declined)))
  process _ _ _ := .panic
  dispatch _ _ := .ret .null

/-- Everything is polled until the outermost coroutine is over. -/
def relayed : List (Move (Block Code) Code) :=
  .act (.start ⟨0⟩ "outermost" callsMiddle fun _ => .ret ()) ::
    (.poll ⟨1⟩ :: List.replicate 24 .step ++ .poll ⟨3⟩ :: List.replicate 6 .step ++
      .poll ⟨1⟩ :: List.replicate 19 .step)

def tasksRelayed : List TaskHandle :=
  [⟨⟨0⟩, ⟨1⟩, "outermost"⟩, ⟨⟨0⟩, ⟨2⟩, "middle"⟩, ⟨⟨0⟩, ⟨3⟩, "innermost"⟩]

/-- The coroutines of the example hand on what they get, and the innermost target fails. -/
theorem chain_relayed : Chain relaying relayed (.error declined) tasksRelayed := by
  have hblocks : relaying.RunsBlocks id := .of_eq rfl rfl
  obtain ⟨_, hcalls, hcaller⟩ := handsOn_of_call hblocks (.fresh _ _)
    (stops_of_yielded (show history relaying (relayed.take 7) ⟨1⟩ = [_] ++ _ :: _ :: [_] from rfl))
  obtain ⟨_, hforks, hforker⟩ := gathers_of_fork hblocks (.fresh _ _)
    (stops_of_yielded (show history relaying relayed ⟨2⟩ = [_] ++ _ :: _ :: _ from rfl))
  cases hcalls
  cases hforks
  have houtermost : WorksOn relaying relayed ⟨1⟩ ⟨⟨0⟩, ⟨1⟩, "outermost"⟩ :=
    .of_driver? (show relayed.take 1 <+: relayed from ⟨relayed.drop 1, rfl⟩) rfl rfl
  have hmiddle : WorksOn relaying relayed ⟨2⟩ ⟨⟨0⟩, ⟨2⟩, "middle"⟩ :=
    .of_driver? (show relayed.take 8 <+: relayed from ⟨relayed.drop 8, rfl⟩) rfl rfl
  have hfails : relayed.take 29 <+: relayed := ⟨relayed.drop 29, rfl⟩
  have hends : Ends relaying relayed ⟨3⟩ (.error declined) := .computes hfails rfl rfl ⟨rfl, rfl⟩ rfl
  have hinnermost : Chain relaying relayed (.error declined) [⟨⟨0⟩, ⟨3⟩, "innermost"⟩] :=
    .ends (.of_driver? hfails rfl rfl) hends
  have hcall : Link relaying relayed ⟨1⟩ ⟨⟨0⟩, ⟨2⟩, "middle"⟩ :=
    .calls hcaller (show relayed.take 7 ++ [.step] <+: relayed from ⟨relayed.drop 8, rfl⟩)
      (show _ = [_, _] ++ [_, _] from rfl) rfl (.of_eq rfl rfl (.inr ⟨_, rfl⟩) rfl rfl)
  have hfork : Link relaying relayed ⟨2⟩ ⟨⟨0⟩, ⟨3⟩, "innermost"⟩ :=
    .forks hforker (show _ = [_, _] ++ _ :: _ from rfl)
  exact .link houtermost hcall (.link hmiddle hfork hinnermost)

/-- The error of the innermost target gets to the outermost task with its details. -/
theorem declined_travels : (∀ s, (relaying.scheduler s).processors = .builtin) ∧
    Chain relaying relayed (.error declined) tasksRelayed ∧ (∀ t ∈ tasksRelayed, Spared relaying relayed t) ∧
    Travels relaying relayed (.error declined) tasksRelayed ∧
    ∀ t ∈ tasksRelayed, (after relaying {} relayed).outcome? t = some (.error declined) := by
  have hbuiltin : ∀ s, (relaying.scheduler s).processors = .builtin := fun _ => rfl
  have hspared : ∀ t ∈ tasksRelayed, Spared relaying relayed t :=
    fun _ _ => spared_of_ledger relaying (by decide +kernel)
  have htravels := outcomes_travel hbuiltin chain_relayed hspared
  have hover : (after relaying {} relayed).drivers = [] := rfl
  refine ⟨hbuiltin, chain_relayed, hspared, htravels, htravels.arrives (by decide +kernel) rfl fun d hd => ?_⟩
  rw [hover] at hd
  cases hd

end EventLoop

end EffectLoop
