import EffectLoop.Proofs.Handles

/-!
# Forked targets are joined with their own outcomes

A coroutine forks some targets one after another, and then whoever likes joins their handles, in any order
and as often as they like, before or after the targets have settled. What is known of a target is that it
comes to the same in every run of a class (`Steady`). Then each join of a handle is answered with the
outcome of its own target, in every run of that class, and the register forgets the targets (`FansIn`).
-/

namespace EffectLoop

variable {Co Fu : Type}

namespace EventLoop

variable (p : Program Co Fu)

/-- In the runs of a class, whatever is forked for `target` and `args` comes to the outcome `o` when it
comes to its end. -/
def Steady (runs : List (Move Co Fu) → Prop) (target : Target) (args : List Json) (o : Outcome) : Prop :=
  ∀ moves, runs moves → ∀ parent hist work key t, Forked p moves parent hist target args work key t →
    ∀ before o', before ++ [.step] <+: moves → Finishing (after p {} before) key o' → o' = o

/-- The coroutine of the driver `key` has forked `n` targets, the `i`-th after `hist i`, and got their
handles. -/
structure FansOut (moves : List (Move Co Fu)) (key : DriverKey) {n : Nat} (target : Fin n → Target)
    (args : Fin n → List Json) (handle : Fin n → TaskHandle) (hist : Fin n → List (TaskEvent Co)) :
    Prop where
  forks : ∀ i, hist i ++ [.given (.builtin .fork) (.fork (target i) (args i)),
    .resolved (.ok (.task (handle i)))] <+: history p moves key
  /-- These are forks of their own. -/
  apart : Function.Injective hist

/-- What can be relied on about the handles of `n` targets that come to these outcomes. -/
structure FansIn (moves : List (Move Co Fu)) {n : Nat} (handle : Fin n → TaskHandle)
    (outcome : Fin n → Outcome) : Prop where
  /-- No two of them have the same handle. -/
  distinct : ∀ i j, (handle i == handle j) = true → i = j
  settles : ∀ i o, (after p {} moves).outcome? (handle i) = some o → o = outcome i
  /-- What follows on a join of the handle, by whatever coroutine and after whatever else has happened to
  it, is that it is resumed with the outcome of the target, and nothing comes between. -/
  joined : ∀ i t joiner past rest, (t == handle i) = true →
    history p moves joiner = past ++ .given (.builtin .join) (.join t) :: rest →
    rest = [] ∨ rest = [.resolved ((outcome i).map .value)] ∨
      ∃ co more, rest =
        .resolved ((outcome i).map .value) :: .resumed co ((outcome i).map .value) :: more
  /-- Once the target has settled the next poll of a joiner resumes it. -/
  answered : ∀ i t pollers d past branch, (t == handle i) = true →
    (after p {} moves).outcome? (handle i) ≠ none →
    history p moves d.key = past ++ [.given (.builtin .join) (.join t)] →
    Acts (after p {} moves) pollers d .poll → d.activity = .pending branch →
    ∃ co, history p (moves ++ [.step] ++ [.step] ++ [.step] ++ [.step]) d.key =
      history p moves d.key ++
        [.resolved ((outcome i).map .value), .resumed co ((outcome i).map .value)]
  /-- That poll is not forgotten: a joiner that nobody is about to poll waits for a target that has not
  settled. -/
  unforgotten : OwnersPollIn p moves → (after p {} moves).focus = .idle →
    ∀ i t d past, (t == handle i) = true → Attended (HeardIn p moves) (after p {} moves) d →
      d.home ∉ (after p {} moves).queue →
      history p moves d.key = past ++ [.given (.builtin .join) (.join t)] →
      (after p {} moves).outcome? (handle i) = none
  /-- No target that has settled is left in the register. -/
  left : ∀ i, (after p {} moves).outcome? (handle i) ≠ none →
    ((after p {} moves).activeTasks (handle i).scheduler).contains (handle i).id = false

section

variable {moves : List (Move Co Fu)} {runs : List (Move Co Fu) → Prop} {n : Nat} {key : DriverKey}
  {target : Fin n → Target} {args : Fin n → List Json} {handle : Fin n → TaskHandle}
  {hist : Fin n → List (TaskEvent Co)} {outcome : Fin n → Outcome}

/-- The handle that the coroutine got is that of a task that was entered for the fork. -/
theorem FansOut.forked (h : FansOut p moves key target args handle hist) (i : Fin n) :
    ∃ work child, Forked p moves key (hist i) (target i) (args i) work child (handle i) := by
  obtain ⟨rest, hrest⟩ := h.forks i
  have hevents : history p moves key = hist i ++ .given (.builtin .fork) (.fork (target i) (args i)) ::
      .resolved (.ok (.task (handle i))) :: rest := by
    rw [← hrest, List.append_assoc]
    rfl
  obtain ⟨t, ht, work, child, _, hforked⟩ := forked_of_resolved p hevents
  cases ht
  exact ⟨work, child, hforked⟩

/-- Different forks have different handles. -/
theorem FansOut.distinct (h : FansOut p moves key target args handle hist) {i j : Fin n}
    (hsame : (handle i == handle j) = true) : i = j := by
  obtain ⟨_, _, first, hfirst, hgiven, he⟩ := h.forked p i
  obtain ⟨_, _, first', hfirst', hgiven', he'⟩ := h.forked p j
  cases enters_unique p hfirst hfirst' he he' (.inr (eq_of_beq_handle hsame))
  exact h.apart (List.append_inj' (hgiven.symm.trans hgiven') rfl).1

/-- A target that is left to its driver settles with the outcome that it always comes to. -/
theorem FansOut.settles (h : FansOut p moves key target args handle hist) (hruns : runs moves)
    (hsteady : ∀ i, Steady p runs (target i) (args i) (outcome i))
    (hspared : ∀ i, Spared p moves (handle i)) {i : Fin n} {o : Outcome}
    (ho : (after p {} moves).outcome? (handle i) = some o) : o = outcome i := by
  obtain ⟨work, child, hforked⟩ := h.forked p i
  obtain ⟨first, hfirst, _, he⟩ := id hforked
  obtain ⟨before, hbefore, hfinishing⟩ :=
    finishing_of_settled p hfirst he (hspared i) (List.prefix_refl _) ho
  exact hsteady i moves hruns key _ work child _ hforked before o hbefore hfinishing

theorem outcome_of_beq {l : EventLoop Co Fu} {t t' : TaskHandle} (h : (t == t') = true) :
    l.outcome? t = l.outcome? t' := by
  obtain ⟨hs, hi⟩ := eq_of_beq_handle h
  unfold outcome?
  rw [hs, hi]

/-- A joiner that rests while nobody is about to poll it joins a task that has not settled. -/
theorem unsettled_of_joining (hown : OwnersPollIn p moves) (hidle : (after p {} moves).focus = .idle)
    {t : TaskHandle} {d : Driver Co Fu} {past : List (TaskEvent Co)}
    (hd : Attended (HeardIn p moves) (after p {} moves) d) (hqueue : d.home ∉ (after p {} moves).queue)
    (hjoin : history p moves d.key = past ++ [.given (.builtin .join) (.join t)]) :
    (after p {} moves).outcome? t = none := by
  obtain ⟨hregular, hwakeful⟩ := wakeful_after p moves hown
  have hrest := rest_of_joining p hregular hidle hd.mem hjoin
  by_contra hsettled
  have hwaits : .task t ∈ d.rest := by
    rw [hrest]
    exact List.mem_singleton.mpr rfl
  rcases hwakeful.rest d hd t hwaits hsettled with hq | hc
  · exact hqueue hq
  · exact hc.not_idle hidle

end

/-! ## Two targets in two orders -/

def slow : Target := ⟨"slow", .coroutine, ⟨"slow", []⟩⟩

def quick : Target := ⟨"quick", .function, ⟨"quick", []⟩⟩

def slowTask : TaskHandle := ⟨⟨0⟩, ⟨2⟩, "slow"⟩

def quickTask : TaskHandle := ⟨⟨0⟩, ⟨3⟩, "quick"⟩

/-- The slow target fails after a turn. -/
def failed : Outcome := .error (.unknownKind "slow")

/-- Coroutine 0 forks the slow target and the quick one, and joins them the other way round. -/
def forksTwo : Program Nat Unit where
  scheduler := fun _ => { sink := ⟨"sink"⟩ }
  resume := fun co _ => co + 1
  advance := fun co =>
    match co with
    | 1 => .ret (.yield (.effect (.fork slow [])) 1)
    | 2 => .ret (.yield (.effect (.fork quick [])) 2)
    | 3 => .ret (.yield (.effect (.join quickTask)) 3)
    | 4 => .ret (.yield (.effect (.join slowTask)) 4)
    | 11 => .ret (.yield (.effect (.put .null)) 11)
    | 12 => .ret (.done failed 12)
    | co => .ret (.done (.ok .null) co)
  work := fun _ => .ret (.done (.ok (.value (.bool true))))
  invoke := fun target _ => .ret (if target.name = "slow" then .coroutine 10 else .pending ())
  process := fun _ _ _ => ()
  dispatch := fun _ _ => .ret .null

def polled (key steps : Nat) : List (Move Nat Unit) := .poll ⟨key⟩ :: List.replicate steps .step

/-- The coroutine is polled until it waits for the quick target. -/
def toForks : List (Move Nat Unit) :=
  .act (.start ⟨0⟩ "main" 0 fun _ => .ret ()) :: polled 1 17

def toSlow : List (Move Nat Unit) := polled 2 7 ++ .flush :: polled 2 9

/-- Both targets have settled before the coroutine is polled again. -/
def slowFirst : List (Move Nat Unit) := toForks ++ (toSlow ++ (polled 3 6 ++ polled 1 12))

/-- The coroutine is resumed with what the quick target has come to before the slow one is polled. -/
def quickFirst : List (Move Nat Unit) :=
  toForks ++ (polled 3 6 ++ (polled 1 9 ++ (toSlow ++ polled 1 6)))

/-- The driver that comes to this. -/
def whose : Outcome → Nat
  | .error (.unknownKind "slow") => 2
  | .ok (.bool true) => 3
  | _ => 1

theorem eq_failed_of_whose {o : Outcome} (h : whose o = 2) : o = failed := by
  unfold whose at h
  split at h
  · rfl
  · cases h
  · cases h

theorem eq_true_of_whose {o : Outcome} (h : whose o = 3) : o = .ok (.bool true) := by
  unfold whose at h
  split at h
  · cases h
  · rfl
  · cases h

/-- The slow target is entered as driver 2 and the quick one as driver 3, and each comes to its own
outcome. -/
def Paired (l : EventLoop Nat Unit) : Prop :=
  match l.focus with
  | .active _ _ (.invoke .fork target _ _) => l.lastKey + 1 = if target.name = "slow" then 2 else 3
  | .active _ key (.finish o) => key.val = whose o
  | _ => True

instance : DecidablePred Paired := fun l => by
  unfold Paired
  split <;> infer_instance

instance (moves : List (Move Nat Unit)) :
    Decidable (∀ first, first <+: moves → Paired (after forksTwo {} first)) :=
  decidableAlong forksTwo (P := Paired) {} moves

theorem whose_of_paired {moves : List (Move Nat Unit)}
    (h : ∀ first, first <+: moves → Paired (after forksTwo {} first)) {parent key : DriverKey}
    {hist : List (TaskEvent Nat)} {work : Invoked Nat Unit} {t : TaskHandle} {target : Target}
    (hforked : Forked forksTwo moves parent hist target [] work key t) {before : List (Move Nat Unit)}
    {o : Outcome} (hbefore : before ++ [.step] <+: moves)
    (hfinishing : Finishing (after forksTwo {} before) key o) :
    whose o = if target.name = "slow" then 2 else 3 := by
  obtain ⟨first, pollers, hfirst, hfocus, rfl, _⟩ := hforked.invoking
  obtain ⟨pollers', _, hfocus', _⟩ := hfinishing
  have hinvoked := h first ((List.prefix_append _ _).trans hfirst)
  have hended := h before ((List.prefix_append _ _).trans hbefore)
  unfold Paired at hinvoked hended
  rw [hfocus] at hinvoked
  rw [hfocus'] at hended
  exact hended.symm.trans hinvoked

/-- The two orders in which the targets settle. -/
def InSomeOrder (moves : List (Move Nat Unit)) : Prop := moves = slowFirst ∨ moves = quickFirst

theorem paired_in_some_order {moves : List (Move Nat Unit)} (h : InSomeOrder moves) :
    ∀ first, first <+: moves → Paired (after forksTwo {} first) := by
  rcases h with rfl | rfl
  · decide +kernel
  · decide +kernel

theorem spared_in_some_order {moves : List (Move Nat Unit)} (h : InSomeOrder moves) (t : TaskHandle) :
    Spared forksTwo moves t := by
  rcases h with rfl | rfl
  · exact spared_of_ledger forksTwo (by decide +kernel)
  · exact spared_of_ledger forksTwo (by decide +kernel)

/-- What happens to the coroutine in either order. -/
def story : List (TaskEvent Nat) :=
  [.entered ⟨0⟩ 0, .resumed 0 (.ok (.value .null)),
    .yielded (.effect (.fork slow [])) 1, .given (.builtin .fork) (.fork slow []),
    .resolved (.ok (.task slowTask)), .resumed 1 (.ok (.task slowTask)),
    .yielded (.effect (.fork quick [])) 2, .given (.builtin .fork) (.fork quick []),
    .resolved (.ok (.task quickTask)), .resumed 2 (.ok (.task quickTask)),
    .yielded (.effect (.join quickTask)) 3, .given (.builtin .join) (.join quickTask),
    .resolved (.ok (.value (.bool true))), .resumed 3 (.ok (.value (.bool true))),
    .yielded (.effect (.join slowTask)) 4, .given (.builtin .join) (.join slowTask),
    .resolved (.error (.unknownKind "slow")), .resumed 4 (.error (.unknownKind "slow")),
    .returned (.ok .null), .ended (.ok .null)]

theorem history_in_some_order {moves : List (Move Nat Unit)} (h : InSomeOrder moves) :
    history forksTwo moves ⟨1⟩ = story := by
  rcases h with rfl | rfl
  · rfl
  · rfl

def bothTargets (i : Fin 2) : Target := if i = 0 then slow else quick

def bothTasks (i : Fin 2) : TaskHandle := if i = 0 then slowTask else quickTask

def bothOutcomes (i : Fin 2) : Outcome := if i = 0 then failed else .ok (.bool true)

/-- What has happened to the coroutine before each fork. -/
def bothPasts (i : Fin 2) : List (TaskEvent Nat) := story.take (if i = 0 then 3 else 7)

theorem steady_in_some_order (i : Fin 2) :
    Steady forksTwo InSomeOrder (bothTargets i) [] (bothOutcomes i) := by
  intro moves hmoves parent hist work key t hforked before o hbefore hfinishing
  have ho := whose_of_paired (paired_in_some_order hmoves) hforked hbefore hfinishing
  unfold bothTargets at ho
  unfold bothOutcomes
  split
  · rename_i hi
    rw [if_pos hi, if_pos (show slow.name = "slow" from rfl)] at ho
    exact eq_failed_of_whose ho
  · rename_i hi
    rw [if_neg hi, if_neg (show quick.name ≠ "slow" by decide)] at ho
    exact eq_true_of_whose ho

theorem fansOut_in_some_order {moves : List (Move Nat Unit)} (h : InSomeOrder moves) :
    FansOut forksTwo moves ⟨1⟩ bothTargets (fun _ => []) bothTasks bothPasts := by
  constructor
  · intro i
    rw [history_in_some_order h]
    unfold bothPasts bothTargets bothTasks
    by_cases hi : i = 0
    · simp only [if_pos hi]
      exact ⟨story.drop 5, rfl⟩
    · simp only [if_neg hi]
      exact ⟨story.drop 9, rfl⟩
  · have hlength : ∀ i, (bothPasts i).length = if i = 0 then 3 else 7 := by decide
    intro i j hij
    have hlengths := congrArg List.length hij
    rw [hlength, hlength] at hlengths
    clear hij hlength
    revert i j
    decide

end EventLoop

end EffectLoop
