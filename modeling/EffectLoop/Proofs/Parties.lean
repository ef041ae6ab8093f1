import EffectLoop.Proofs.Answers
import EffectLoop.Proofs.Callees

/-!
# Who acts on behalf of a coroutine

For an effect of a coroutine a task may be entered, and for an effect of that task another. The party of a
coroutine are its own driver and the drivers of all these tasks (`party`), and what is dispatched on its
behalf are the events that the members of the party hand to the sink (`dispatched`).

While an effect of a simple kind is processed, a driver hands to the sink the event of a put and nothing else
(`delivers_of_simple`), and whom it enters is known (`work_of_simple`): drivers of work that idles, and a
coroutine that is called. For a closed effect it enters nobody (`quiet_of_closed`).
-/

namespace EffectLoop

variable {Co Fu : Type}

/-- The event that the driver is about to hand to the sink. -/
def Doing.delivers? : Doing Co Fu → Option Json
  | .answer _ ⟨.deliver event :: _, _⟩ => some event
  | _ => none

/-- The driver is about to enter a task for an effect. -/
def Doing.recruits : Doing Co Fu → Bool
  | .invoke .fork _ (.ret _) _ | .invoke _ _ (.ret (.coroutine _)) _ => true
  | _ => false

/-- The event of a put that is yielded. -/
def TaskEvent.puts? : TaskEvent Co → Option Json
  | .yielded (.effect (.put event)) _ => some event
  | _ => none

theorem Doing.recruits_iff {doing : Doing Co Fu} : doing.recruits = true ↔
    ∃ b target work spot, doing = .invoke b target (.ret work) spot ∧ (b = .fork ∨ ∃ co, work = .coroutine co) := by
  constructor
  · intro h
    unfold Doing.recruits at h
    split at h
    · exact ⟨_, _, _, _, rfl, .inl rfl⟩
    · exact ⟨_, _, _, _, rfl, .inr ⟨_, rfl⟩⟩
    · cases h
  · rintro ⟨b, target, work, spot, rfl, rfl | ⟨co, rfl⟩⟩
    · cases work <;> rfl
    · cases b <;> rfl

namespace EventLoop

/-! ## What is dispatched on behalf of a coroutine -/

/-- The driver that takes the step, and what it does. -/
def takes? (l : EventLoop Co Fu) : Move Co Fu → Option (Driver Co Fu × Doing Co Fu)
  | .step =>
    match l.focus with
    | .active _ key doing => (l.driver? key).map fun d => (d, doing)
    | .idle => none
  | _ => none

/-- The event that a move hands to a sink, and by whom. -/
def delivery? (l : EventLoop Co Fu) (m : Move Co Fu) : Option (DriverKey × Json) :=
  (l.takes? m).bind fun x => x.2.delivers?.map fun event => (x.1.key, event)

/-- The driver that a move enters for an effect of one of these. -/
def recruits (l : EventLoop Co Fu) (m : Move Co Fu) (keys : List DriverKey) : List DriverKey :=
  match l.takes? m with
  | some (d, doing) => if d.key ∈ keys ∧ doing.recruits = true then [⟨l.lastKey + 1⟩] else []
  | none => []

/-- The events that are handed to sinks from a state on, and by whom. -/
def deliveriesFrom (p : Program Co Fu) (l : EventLoop Co Fu) : List (Move Co Fu) → List (DriverKey × Json)
  | [] => []
  | m :: moves => (l.delivery? m).toList ++ deliveriesFrom p (l.move p m) moves

/-- The events that are handed to sinks in a run, and by whom. -/
def deliveries (p : Program Co Fu) (moves : List (Move Co Fu)) : List (DriverKey × Json) :=
  deliveriesFrom p {} moves

def partyFrom (p : Program Co Fu) (l : EventLoop Co Fu) (keys : List DriverKey) :
    List (Move Co Fu) → List DriverKey
  | [] => keys
  | m :: moves => partyFrom p (l.move p m) (keys ++ l.recruits m keys) moves

/-- The driver and all that are entered in the run for its effects, and for theirs in turn. -/
def party (p : Program Co Fu) (moves : List (Move Co Fu)) (key : DriverKey) : List DriverKey :=
  partyFrom p {} [key] moves

/-- The events that are handed to sinks by certain drivers. -/
def eventsBy (keys : List DriverKey) (xs : List (DriverKey × Json)) : List Json :=
  xs.filterMap fun x => if x.1 ∈ keys then some x.2 else none

/-- **What is dispatched in a run on behalf of the coroutine of a driver.** -/
def dispatched (p : Program Co Fu) (moves : List (Move Co Fu)) (key : DriverKey) : List Json :=
  eventsBy (party p moves key) (deliveries p moves)

/-- An effect was given to a processor on behalf of the coroutine of the driver. -/
def ProcessedFor (p : Program Co Fu) (moves : List (Move Co Fu)) (key : DriverKey) (e : Effect) : Prop :=
  ∃ k ∈ party p moves key, ∃ ref, .given ref e ∈ history p moves k

section

variable {p : Program Co Fu} {l : EventLoop Co Fu} {m : Move Co Fu} {d : Driver Co Fu}
  {doing : Doing Co Fu} {keys : List DriverKey} {moves : List (Move Co Fu)} {key k : DriverKey}

theorem takes?_eq_some : l.takes? m = some (d, doing) ↔
    m = .step ∧ ∃ pollers, l.focus = .active pollers d.key doing ∧ l.driver? d.key = some d := by
  constructor
  · intro h
    cases m with
    | step =>
      unfold takes? at h
      cases hfocus : l.focus with
      | idle => simp [hfocus] at h
      | active pollers key doing' =>
        simp only [hfocus, Option.map_eq_some_iff] at h
        obtain ⟨d', hd', he⟩ := h
        cases he
        cases key_of_driver? hd'
        exact ⟨rfl, pollers, rfl, hd'⟩
    | _ => cases h
  · rintro ⟨rfl, pollers, hfocus, hd⟩
    simp [takes?, hfocus, hd]

theorem mem_recruits : k ∈ l.recruits m keys ↔
    m = .step ∧ ∃ parent b work t, parent ∈ keys ∧ Enters l parent b work k t := by
  unfold recruits
  constructor
  · intro h
    split at h
    · rename_i d doing htakes
      obtain ⟨rfl, pollers, hfocus, hd⟩ := takes?_eq_some.mp htakes
      split at h
      · rename_i hrecruits
        obtain ⟨b, target, work, spot, rfl, hown⟩ := Doing.recruits_iff.mp hrecruits.2
        cases List.mem_singleton.mp h
        exact ⟨rfl, d.key, b, work, _, hrecruits.1, .intro hfocus hd hown⟩
      · cases h
    · cases h
  · rintro ⟨rfl, parent, b, work, t, hparent, henters⟩
    obtain ⟨hfocus, hd, hown⟩ := henters
    cases key_of_driver? hd
    rw [takes?_eq_some.mpr ⟨rfl, _, hfocus, hd⟩]
    simp [hparent, Doing.recruits_iff.mpr ⟨b, _, work, _, rfl, hown⟩]

theorem deliveriesFrom_append (p : Program Co Fu) (l : EventLoop Co Fu) (first rest : List (Move Co Fu)) :
    deliveriesFrom p l (first ++ rest) = deliveriesFrom p l first ++ deliveriesFrom p (l.after p first) rest := by
  induction first generalizing l with
  | nil => rfl
  | cons m first ih =>
    rw [List.cons_append, deliveriesFrom, deliveriesFrom, ih, List.append_assoc]
    rfl

theorem deliveries_append (p : Program Co Fu) (first rest : List (Move Co Fu)) :
    deliveries p (first ++ rest) = deliveries p first ++ deliveriesFrom p (after p {} first) rest :=
  deliveriesFrom_append p {} first rest

theorem partyFrom_append (p : Program Co Fu) (l : EventLoop Co Fu) (keys : List DriverKey)
    (first rest : List (Move Co Fu)) :
    partyFrom p l keys (first ++ rest) = partyFrom p (l.after p first) (partyFrom p l keys first) rest := by
  induction first generalizing l keys with
  | nil => rfl
  | cons m first ih => exact ih _ _

theorem party_snoc (p : Program Co Fu) (moves : List (Move Co Fu)) (m : Move Co Fu) (key : DriverKey) :
    party p (moves ++ [m]) key = party p moves key ++ (after p {} moves).recruits m (party p moves key) :=
  partyFrom_append p {} [key] moves [m]

/-- A party only grows. -/
theorem party_subset {first : List (Move Co Fu)} (hle : first <+: moves) (key : DriverKey) :
    party p first key ⊆ party p moves key := by
  obtain ⟨rest, rfl⟩ := hle
  induction rest using List.reverseRecOn with
  | nil => simp
  | append_singleton rest m ih =>
    rw [← List.append_assoc, party_snoc]
    exact List.Subset.trans ih (List.subset_append_left ..)

theorem mem_party_self (p : Program Co Fu) (moves : List (Move Co Fu)) (key : DriverKey) :
    key ∈ party p moves key := party_subset (List.nil_prefix) key (List.mem_singleton_self key)

/-- Who is entered for an effect of a member is a member. -/
theorem mem_party_of_enters {first : List (Move Co Fu)} {parent : DriverKey} {b : Builtin}
    {work : Invoked Co Fu} {t : TaskHandle} (hle : first ++ [.step] <+: moves)
    (hparent : parent ∈ party p first key) (h : Enters (after p {} first) parent b work k t) :
    k ∈ party p moves key := by
  refine party_subset hle key ?_
  rw [party_snoc]
  exact List.mem_append_right _ (mem_recruits.mpr ⟨rfl, parent, b, work, t, hparent, h⟩)

/-- An event is handed to a sink by a driver that takes a step. -/
theorem exists_of_mem_deliveries {event : Json} (h : (k, event) ∈ deliveries p moves) :
    ∃ first pollers d doing, first ++ [.step] <+: moves ∧ d.key = k ∧
      (after p {} first).focus = .active pollers d.key doing ∧
      (after p {} first).driver? d.key = some d ∧ doing.delivers? = some event := by
  induction moves using List.reverseRecOn with
  | nil => cases h
  | append_singleton moves m ih =>
    rw [deliveries_append] at h
    rcases List.mem_append.mp h with h | h
    · obtain ⟨first, pollers, d, doing, hle, h⟩ := ih h
      exact ⟨first, pollers, d, doing, hle.trans (List.prefix_append ..), h⟩
    · simp only [deliveriesFrom, List.append_nil, Option.mem_toList, delivery?,
        Option.bind_eq_some_iff, Option.map_eq_some_iff, Prod.exists] at h
      obtain ⟨d, doing, htakes, event', hevent, he⟩ := h
      cases he
      obtain ⟨rfl, pollers, hfocus, hd⟩ := takes?_eq_some.mp htakes
      exact ⟨moves, pollers, d, doing, List.prefix_refl _, rfl, hfocus, hd, hevent⟩

end

section

variable {p : Program Co Fu} {moves : List (Move Co Fu)} {key : DriverKey} {target : Target}
  {args : List Json} {past rest : List (TaskEvent Co)} {r r' : Resume} {l : EventLoop Co Fu}
  {d : Driver Co Fu} {doing : Doing Co Fu} {job : Job Co} {seat : Seat Co Fu} {event : Json}

/-! ## What a driver does for an effect -/

/-- The seats of a driver whose coroutine has put an event. -/
inductive Puts (event : Json) : Seat Co Fu → Prop
  | defers {seat : Seat Co Fu} (h : seat.Defers event) : Puts event seat
  | dispatches (a : Act Co Fu Json) : Puts event (.working (.dispatch a {}))
  | answers (r : Resume) : Puts event (.working (.answer r {}))
  | crashes : Puts event (.working .crash)
  | busy : Puts event (.resting .busy)

theorem puts_stride (h : Puts event (.working doing)) (hs : Stride p l d doing job seat)
    (hjob : d.job ≠ .plain) (hevent : doing.event? d = none) : Puts event seat := by
  cases h with
  | defers h =>
    cases h with
    | awaits =>
      cases hs with
      | awaitsReady _ hpeek => cases hpeek
      | awaits _ _ => exact .defers .pauses
    | pauses =>
      cases hs with
      | rests _ => exact .defers .rests
    | visits =>
      cases hs with
      | visitsTurn _ _ => exact .defers (.answers _)
      | visitsReady _ _ hpeek => cases hpeek
      | visitsWaiting _ _ hturn _ => exact absurd rfl hturn
    | answers _ =>
      cases hs with
      | delivers _ _ _ _ => exact .dispatches _
  | dispatches a =>
    cases hs with
    | dispatches _ _ => exact .dispatches _
    | dispatchPanics _ => exact .crashes
    | dispatched _ _ => exact .answers _
  | answers _ => exact (not_answer_of_event hjob hevent).elim
  | crashes => cases hs

theorem stays_putting {hist : List (TaskEvent Co)} (hne : hist ≠ []) :
    Stays p key hist fun _ => Puts event where
  later := fun _ _ _ h => h
  busy := fun _ => .busy
  fresh := by
    intro moves h
    cases h with
    | defers h => cases h
  pending := by
    intro moves branch h
    cases h with
    | defers h =>
      cases h with
      | rests => exact .defers .visits
  back := by
    intro moves m polled spot outcome pollers doing h
    cases h with
    | defers h => cases h
  bodyBack := by
    intro moves polled k outcome h
    cases h with
    | defers h => cases h
  stride := by
    intro moves d pollers doing job seat hk hd hhist _ h hevent hs
    have hjob : d.job ≠ .plain := job_of_history hd (by rwa [hk, hhist])
    exact puts_stride h hs hjob hevent

theorem putting_after (h : history p moves key = past ++ [.given (.builtin .put) (.put event)]) :
    ∀ d ∈ (after p {} moves).drivers, d.key = key → Puts event ((after p {} moves).seat d) := by
  refine stays_since (stays_putting (by simp)) h rfl ?_
  intro first d pollers doing job seat _ _ _ hevent hs
  cases process_of_given hevent
  cases hs with
  | processes _ _ _ => exact .defers .awaits

/-- An effect for which no task is entered: a put, a join, or a call of work that idles. -/
inductive Closed (p : Program Co Fu) : Effect → Prop
  | put (event : Json) : Closed p (.put event)
  | join (t : TaskHandle) : Closed p (.join t)
  | call {target : Target} {args : List Json} {r : Resume} (h : GivesIdle p target args r) :
      Closed p (.call target args)

/-- An effect for which nothing is entered but work that idles. -/
inductive Leafy (p : Program Co Fu) : Effect → Prop
  | closed {e : Effect} (h : Closed p e) : Leafy p e
  | fork {target : Target} {args : List Json} {r : Resume} (h : GivesIdle p target args r) :
      Leafy p (.fork target args)

/-- An effect for which nothing is entered but work that idles, or a coroutine that is called. -/
inductive Simple (p : Program Co Fu) : Effect → Prop
  | leafy {e : Effect} (h : Leafy p e) : Simple p e
  | call {target : Target} {args : List Json} (h : GivesCoroutine p target args) :
      Simple p (.call target args)

/-- The driver is in the midst of an effect that its coroutine had processed by a built-in processor. -/
structure Serves (p : Program Co Fu) (moves : List (Move Co Fu)) (d : Driver Co Fu) (doing : Doing Co Fu)
    (past : List (TaskEvent Co)) (b : Builtin) (e : Effect) : Prop where
  focus : ∃ pollers, (after p {} moves).focus = .active pollers d.key doing
  driver : (after p {} moves).driver? d.key = some d
  computes : doing.computes = true
  kind : b.kind = e.kind
  given : history p moves d.key = past ++ [.given (.builtin b) e]
  joins : ∀ t, JoinOf (.builtin b) e t → (after p {} moves).Joins t doing

variable {b : Builtin} {e : Effect}

theorem Serves.seat_eq (h : Serves p moves d doing past b e) :
    (after p {} moves).seat d = .working doing := by
  obtain ⟨pollers, hfocus⟩ := h.focus
  exact seat_of_works hfocus (Doing.works_of_computes h.computes)

/-- What the driver does enters nobody and hands nothing to the sink but the event of a put. -/
def Quiet (doing : Doing Co Fu) : Prop :=
  doing.recruits = false ∧ ∀ event, doing.delivers? = some event → ∃ r, doing = .answer r ⟨[.deliver event], []⟩

/-- **For a closed effect a driver enters nobody**, and calls the sink for puts only. -/
theorem quiet_of_closed (h : Serves p moves d doing past b e) (he : Closed p e) : Quiet doing := by
  have hmem := mem_of_driver? h.driver
  have hkind := h.kind
  have hgiven := h.given
  have hseat := h.seat_eq
  cases he with
  | put event =>
    obtain rfl : b = .put := by cases b <;> first | rfl | cases hkind
    have hputs := putting_after hgiven d hmem rfl
    rw [hseat] at hputs
    cases hputs with
    | defers h => cases h <;> simp [Quiet, Doing.recruits, Doing.delivers?]
    | _ => simp [Quiet, Doing.recruits, Doing.delivers?]
  | join t =>
    obtain rfl : b = .join := by cases b <;> first | rfl | cases hkind
    have hjoins := h.joins t ⟨rfl, rfl⟩
    cases doing with
    | invoke _ _ _ _ => exact hjoins.elim
    | answer r spot =>
      obtain ⟨rfl, _⟩ := hjoins
      simp [Quiet, Doing.recruits, Doing.delivers?]
    | _ => simp [Quiet, Doing.recruits, Doing.delivers?]
  | call hgives =>
    obtain rfl : b = .call := by cases b <;> first | rfl | cases hkind
    have hcalls := callsIdle_after hgives hgiven d hmem rfl
    rw [hseat] at hcalls
    cases hcalls with
    | @invokes a hwork =>
      cases a with
      | ret invoked =>
        obtain ⟨fu, rfl, _⟩ := hgives _ (hwork _ (.ret _))
        simp [Quiet, Doing.recruits, Doing.delivers?]
      | _ => simp [Quiet, Doing.recruits, Doing.delivers?]
    | idles h => cases h <;> simp [Quiet, Doing.recruits, Doing.delivers?]
    | _ => simp [Quiet, Doing.recruits, Doing.delivers?]

/-- **For a simple effect a driver hands nothing to the sink but the event of a put.** -/
theorem delivers_of_simple (h : Serves p moves d doing past b e) (he : Simple p e)
    (hdelivers : doing.delivers? = some event) : ∃ r, doing = .answer r ⟨[.deliver event], []⟩ := by
  have hmem := mem_of_driver? h.driver
  have hkind := h.kind
  have hgiven := h.given
  have hseat := h.seat_eq
  cases he with
  | leafy he =>
    cases he with
    | closed he => exact (quiet_of_closed h he).2 event hdelivers
    | fork hgives =>
      obtain rfl : b = .fork := by cases b <;> first | rfl | cases hkind
      have hforking := forking_after p hgiven hmem rfl
      rw [hseat] at hforking
      cases hforking <;> cases hdelivers
  | call hgives =>
    obtain rfl : b = .call := by cases b <;> first | rfl | cases hkind
    have hcalls := callsCoroutine_after hgives hgiven d hmem rfl
    rw [hseat] at hcalls
    cases hcalls with
    | awaits _ hawaits => cases hawaits <;> cases hdelivers
    | _ => cases hdelivers

/-- What a task is entered for on behalf of a leafy effect is work that idles. -/
theorem work_of_leafy (h : Serves p moves d doing past b e) (he : Leafy p e) {b' : Builtin}
    {work : Invoked Co Fu} {k : DriverKey} {t : TaskHandle}
    (henters : Enters (after p {} moves) d.key b' work k t) :
    ∃ fu r, work = .pending fu ∧ Idles p r (p.work fu) := by
  have hmem := mem_of_driver? h.driver
  have hkind := h.kind
  have hgiven := h.given
  obtain ⟨pollers, hfocus⟩ := h.focus
  obtain ⟨hfocus', _, hown⟩ := henters
  cases he with
  | closed he =>
    have hrecruits := (quiet_of_closed h he).1
    cases hfocus.symm.trans hfocus'
    rw [Doing.recruits_iff.mpr ⟨_, _, _, _, rfl, hown⟩] at hrecruits
    cases hrecruits
  | fork hgives =>
    obtain rfl : b = .fork := by cases b <;> first | rfl | cases hkind
    have hforking := forking_after p hgiven hmem rfl
    rw [seat_of_works hfocus' rfl] at hforking
    cases hforking with
    | invokes hwork =>
      obtain ⟨fu, rfl, hidles⟩ := hgives _ (hwork _ (.ret _))
      exact ⟨fu, _, rfl, hidles⟩

/-- What a task is entered for on behalf of a simple effect is work that idles, or the coroutine of a called
target. -/
theorem work_of_simple (h : Serves p moves d doing past b e) (he : Simple p e) {b' : Builtin}
    {work : Invoked Co Fu} {k : DriverKey} {t : TaskHandle}
    (henters : Enters (after p {} moves) d.key b' work k t) :
    (∃ fu r, work = .pending fu ∧ Idles p r (p.work fu)) ∨
      ∃ target args co, b = .call ∧ e = .call target args ∧ GivesCoroutine p target args ∧
        work = .coroutine co ∧ (p.invoke target args).Gives p (.coroutine co) := by
  cases he with
  | leafy he => exact .inl (work_of_leafy h he henters)
  | call hgives =>
    have hkind := h.kind
    obtain rfl : b = .call := by cases b <;> first | rfl | cases hkind
    obtain ⟨_, co, rfl, hco, _⟩ := invoking_of_enters hgives h.given henters
    exact .inr ⟨_, _, co, rfl, rfl, hgives, rfl, hco⟩

end

/-! ## Drivers that have nothing but such effects processed -/

/-- The built-in processors have processed all effects of the coroutine of the driver, and each of them is
such. -/
structure Confined (p : Program Co Fu) (moves : List (Move Co Fu)) (key : DriverKey) (P : Effect → Prop) :
    Prop where
  builtin : ∃ s co told, history p moves key = .entered s co :: told ∧ (p.scheduler s).processors = .builtin
  effects : ∀ ref e, .given ref e ∈ history p moves key → P e

section

variable {p : Program Co Fu} {first moves : List (Move Co Fu)} {key k n : DriverKey} {P : Effect → Prop}
  {d : Driver Co Fu} {doing : Doing Co Fu} {event : Json} {r : Resume} {parent : DriverKey} {b : Builtin}
  {work : Invoked Co Fu} {t : TaskHandle}

/-- A driver that computes does so for an effect of its coroutine. -/
theorem Confined.serves (h : Confined p moves key P) (hle : first <+: moves)
    {pollers : List (Poller Co Fu)} (hfocus : (after p {} first).focus = .active pollers d.key doing)
    (hd : (after p {} first).driver? d.key = some d) (hk : d.key = key) (hc : doing.computes = true) :
    ∃ past b e, Serves p first d doing past b e ∧ P e := by
  subst hk
  obtain ⟨s, co, told, htold, hbuiltin⟩ := h.builtin
  have hmem := mem_of_driver? hd
  have hne := history_ne_nil p hle hmem (by rw [htold]; simp)
  have hprefix := history_prefix p hle d.key
  rcases told_after p first d.key with ⟨hnil, _⟩ | ⟨s', co₀, told', ph, htold', _, hprotocol, hstands⟩
  · exact absurd hnil hne
  · obtain ⟨_, hstands⟩ := hstands d hmem rfl
    obtain ⟨co', passes, kind, _, hdoes⟩ := does_of_stands hfocus (Doing.works_of_computes hc) hstands
    obtain ⟨_, ref, e, rfl, hjoins⟩ := computes_of_does hc hdoes
    obtain ⟨past, rfl, href⟩ := hprotocol.yielded_of_processing
    obtain rfl : s' = s := by
      rw [htold, htold'] at hprefix
      cases (List.cons_prefix_cons.mp hprefix).1
      rfl
    rw [hbuiltin] at href
    obtain ⟨b, rfl, hkind⟩ := ProcessorTable.eq_of_get?_builtin href
    have hgiven : history p first d.key =
        (.entered s' co₀ :: past ++ [.yielded (.effect e) co']) ++ [.given (.builtin b) e] := by
      simp [htold']
    refine ⟨_, b, e, ⟨⟨_, hfocus⟩, hd, hc, hkind, hgiven, hjoins⟩, h.effects (.builtin b) e ?_⟩
    exact hprefix.subset (by simp [hgiven])

theorem computes_of_delivers (h : doing.delivers? = some event) : doing.computes = true := by
  unfold Doing.delivers? at h
  split at h
  · rfl
  · cases h

theorem Enters.exists_computing (h : Enters (after p {} first) parent b work k t) :
    ∃ pollers d doing, (after p {} first).focus = .active pollers d.key doing ∧ d.key = parent ∧
      (after p {} first).driver? d.key = some d ∧ doing.computes = true ∧ doing.recruits = true := by
  obtain ⟨hfocus, hd, hown⟩ := h
  cases key_of_driver? hd
  exact ⟨_, _, _, hfocus, rfl, hd, rfl, Doing.recruits_iff.mpr ⟨_, _, _, _, rfl, hown⟩⟩

/-- Who has nothing but closed effects enters nobody. -/
theorem Confined.not_enters (h : Confined p moves parent (Closed p)) (hle : first <+: moves) :
    ¬ Enters (after p {} first) parent b work k t := by
  intro henters
  obtain ⟨pollers, d, doing, hfocus, hk, hd, hc, hrecruits⟩ := henters.exists_computing
  obtain ⟨past, b', e, hserves, he⟩ := h.serves hle hfocus hd hk hc
  rw [(quiet_of_closed hserves he).1] at hrecruits
  cases hrecruits

end

end EventLoop

end EffectLoop
