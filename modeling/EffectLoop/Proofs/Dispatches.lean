import EffectLoop.Proofs.Parties

/-!
# What is dispatched on behalf of a coroutine

A driver of simple effects hands to the sink the events of the puts of its coroutine, in their order
(`eventsBy_of_simple`), and the drivers that were entered for work that idles hand over nothing. So nothing
is dispatched on behalf of a coroutine that calls no other but what it puts (`dispatched_of_leafy`). If it
calls one other, then what that one puts comes in at the call: before the call the callee is not there,
during the call the caller waits, and after it the callee is gone (`dispatched_of_called`).
-/

namespace EffectLoop

variable {Co Fu : Type}

/-- A put is under way after the event. -/
def TaskEvent.putting : TaskEvent Co → Bool
  | .yielded (.effect (.put _)) _ | .given _ (.put _) => true
  | _ => false

/-- The events that a coroutine has put. -/
def putsIn (hist : List (TaskEvent Co)) : List Json := hist.filterMap TaskEvent.puts?

@[simp] theorem putsIn_nil : putsIn ([] : List (TaskEvent Co)) = [] := rfl

@[simp] theorem putsIn_cons (e : TaskEvent Co) (hist : List (TaskEvent Co)) :
    putsIn (e :: hist) = e.puts?.toList ++ putsIn hist := by
  rw [putsIn, List.filterMap_cons]
  cases e.puts? <;> rfl

@[simp] theorem putsIn_append (hist rest : List (TaskEvent Co)) :
    putsIn (hist ++ rest) = putsIn hist ++ putsIn rest := List.filterMap_append

/-- No put is under way when this has happened. -/
def Rested (hist : List (TaskEvent Co)) : Prop := ∀ past e, hist = past ++ [e] → e.putting = false

theorem Rested.nil : Rested ([] : List (TaskEvent Co)) := fun past e h => by simp at h

theorem Rested.snoc {e : TaskEvent Co} (he : e.putting = false) (hist : List (TaskEvent Co)) :
    Rested (hist ++ [e]) := by
  intro past e' h
  cases (List.append_inj' h rfl).2
  exact he

theorem Rested.tail {e : TaskEvent Co} {hist : List (TaskEvent Co)} (h : Rested (e :: hist)) : Rested hist :=
  fun past e' hhist => h (e :: past) e' (by rw [hhist, List.cons_append])

/-- The puts of a log are those of the history in it. -/
theorem putsIn_told (log : List (PutEvent Co)) :
    putsIn (log.filterMap PutEvent.told?) = log.filterMap PutEvent.yielded? := by
  rw [putsIn, List.filterMap_filterMap]
  refine List.filterMap_congr fun x _ => ?_
  cases x with
  | told e =>
    cases e with
    | yielded y co =>
      cases y with
      | effect e => cases e <;> rfl
      | pass o => rfl
    | _ => rfl
  | _ => rfl

/-- An event is uncalled only as long as its put is the last thing that has happened. -/
theorem PutPhase.Goes.uncalled_eq_nil {dispatch : Json → Act Co Fu Json} {xs : List (PutEvent Co)}
    {ph : PutPhase} (h : Goes dispatch .free xs ph) (hrested : Rested (xs.filterMap PutEvent.told?)) :
    ph.uncalled = [] := by
  rcases List.eq_nil_or_concat xs with rfl | ⟨past, x, hxs⟩
  · cases h
    rfl
  · rw [List.concat_eq_append] at hxs
    subst hxs
    obtain ⟨ph', _, hlast⟩ := h.split
    cases hlast with
    | cons hn hnil =>
      cases hnil
      cases hn with
      | yielded event co =>
        cases hrested (past.filterMap PutEvent.told?) (.yielded (.effect (.put event)) co)
          (by simp [PutEvent.told?])
      | given event =>
        cases hrested (past.filterMap PutEvent.told?) (.given (.builtin .put) (.put event))
          (by simp [PutEvent.told?])
      | _ => rfl

namespace EventLoop

section

variable {p : Program Co Fu} {first moves : List (Move Co Fu)} {key k n : DriverKey}

@[simp] theorem eventsBy_append (keys : List DriverKey) (xs ys : List (DriverKey × Json)) :
    eventsBy keys (xs ++ ys) = eventsBy keys xs ++ eventsBy keys ys := List.filterMap_append

/-- Among these events no other member has any than `k`. -/
theorem eventsBy_eq {keys : List DriverKey} {xs : List (DriverKey × Json)} (hk : k ∈ keys)
    (h : ∀ x ∈ xs, x.1 ∈ keys → x.1 = k) : eventsBy keys xs = eventsBy [k] xs := by
  refine List.filterMap_congr fun x hx => ?_
  by_cases hxk : x.1 = k
  · simp [hxk, hk]
  · have hother : x.1 ∉ keys := fun hmem => hxk (h x hx hmem)
    simp [hxk, hother]

theorem ne_of_eventsBy_eq_nil {xs : List (DriverKey × Json)} (h : eventsBy [k] xs = []) :
    ∀ x ∈ xs, x.1 ≠ k := by
  intro x hx hk
  have hnone := List.filterMap_eq_nil_iff.mp h x hx
  simp [hk] at hnone

/-! ## What one driver hands to the sink -/

/-- A driver of a coroutine that hands events to the sink for its own puts only calls the sink with what it
hands over. -/
theorem called_putEvents {d : Driver Co Fu} {doing : Doing Co Fu} (hjob : d.job ≠ .plain)
    (h : ∀ event, doing.delivers? = some event → ∃ r, doing = .answer r ⟨[.deliver event], []⟩) :
    (doing.putEvents d).filterMap PutEvent.called? = doing.delivers?.toList := by
  have htold : ∀ e : Option (TaskEvent Co), (e.toList.map PutEvent.told).filterMap PutEvent.called? = [] := by
    intro e
    cases e <;> rfl
  rw [Doing.putEvents, List.filterMap_append, htold, List.nil_append]
  cases hd : d.job with
  | plain => exact absurd hd hjob
  | coroutine _ _ _ =>
    cases hdelivers : doing.delivers? with
    | some event =>
      obtain ⟨r, rfl⟩ := h event hdelivers
      simp [Doing.sink?, hd, PutEvent.called?]
    | none =>
      unfold Doing.sink?
      split
      · cases hdelivers
      · simp [PutEvent.called?]
      · rfl

/-- What a driver of simple effects hands to the sink in a move is what it has come to call the sink with. -/
theorem eventsBy_delivery (h : Confined p moves k (Simple p)) {m : Move Co Fu} (hle : first ++ [m] <+: moves) :
    eventsBy [k] ((after p {} first).delivery? m).toList =
      ((after p {} first).putEvents m k).filterMap PutEvent.called? := by
  cases htakes : (after p {} first).takes? m with
  | none =>
    have hquiet : (after p {} first).putEvents m k = [] := by
      unfold putEvents
      split
      · rename_i pollers k' doing hfocus
        split
        · cases hd : (after p {} first).driver? k' with
          | none => rfl
          | some d => simp [takes?, hfocus, hd] at htakes
        · rfl
      · rfl
    simp [delivery?, htakes, hquiet, eventsBy]
  | some x =>
    obtain ⟨d, doing⟩ := x
    obtain ⟨rfl, pollers, hfocus, hd⟩ := takes?_eq_some.mp htakes
    by_cases hk : d.key = k
    · subst hk
      have hjob : d.job ≠ .plain := by
        obtain ⟨_, _, _, hhist, _⟩ := h.builtin
        have hmem := mem_of_driver? hd
        exact job_of_history hmem
          (history_ne_nil p ((List.prefix_append ..).trans hle) hmem (by rw [hhist]; simp))
      rw [putEvents_of_driver hfocus hd, called_putEvents hjob fun event hdelivers => ?_]
      · cases hdelivers : doing.delivers? with
        | none => simp [delivery?, htakes, hdelivers, eventsBy]
        | some event => simp [delivery?, htakes, hdelivers, eventsBy]
      · obtain ⟨past, b, e, hserves, he⟩ := h.serves ((List.prefix_append ..).trans hle) hfocus hd rfl
          (computes_of_delivers hdelivers)
        exact delivers_of_simple hserves he hdelivers
    · have hother : (after p {} first).putEvents .step k = [] := by
        simp [putEvents, hfocus, hk]
      rw [hother]
      cases hdelivers : doing.delivers? with
      | none => simp [delivery?, htakes, hdelivers, eventsBy]
      | some event => simp [delivery?, htakes, hdelivers, eventsBy, hk]

theorem eventsBy_deliveries (h : Confined p moves k (Simple p)) (hle : first <+: moves) :
    eventsBy [k] (deliveries p first) = (putLog p first k).filterMap PutEvent.called? := by
  induction first using List.reverseRecOn with
  | nil => rfl
  | append_singleton first m ih =>
    have hnew : ∀ events : List (TaskEvent Co),
        (events.map PutEvent.told).filterMap PutEvent.called? = [] := by
      intro events
      rw [List.filterMap_map]
      exact List.filterMap_eq_nil_iff.mpr fun _ _ => rfl
    rw [deliveries_append, eventsBy_append, ih ((List.prefix_append ..).trans hle), putLog_snoc,
      List.filterMap_append, List.filterMap_append, hnew, List.append_nil, ← eventsBy_delivery h hle]
    simp [deliveriesFrom]

/-- **A driver of simple effects has handed over what its coroutine has put**, when no put is under way. -/
theorem eventsBy_of_simple (h : Confined p moves k (Simple p)) (hle : first <+: moves)
    (hrested : Rested (history p first k)) :
    eventsBy [k] (deliveries p first) = putsIn (history p first k) := by
  have htold := told_putLog p first k
  rw [eventsBy_deliveries h hle, ← htold]
  rcases posted_after p first k with ⟨hlog, _⟩ | ⟨s, co, rest, hlog, _, hgoes⟩
  · simp [hlog, putsIn]
  · obtain ⟨s', co', told', hmoves, hbuiltin⟩ := h.builtin
    have hprefix := history_prefix p hle k
    rw [← htold, hlog, hmoves] at hprefix
    cases (List.cons_prefix_cons.mp hprefix).1
    have hserves : ServesPuts p s := by
      rw [ServesPuts, hbuiltin]
      rfl
    obtain ⟨ph, hgoes, _⟩ := hgoes hserves
    rw [← htold, hlog] at hrested
    have hcalls := hgoes.calls
    rw [hgoes.uncalled_eq_nil hrested.tail, List.append_nil] at hcalls
    rw [hlog, putsIn_told, List.filterMap_cons_none rfl, List.filterMap_cons_none rfl, ← hcalls]
    rfl

/-! ## Who is there to hand anything over -/

/-- The driver was entered for work that idles. -/
def Loiterer (p : Program Co Fu) (moves : List (Move Co Fu)) (k : DriverKey) : Prop :=
  ∃ before parent b fu t r, before ++ [.step] <+: moves ∧
    Enters (after p {} before) parent b (.pending fu) k t ∧ Idles p r (p.work fu)

/-- A driver of work that idles enters nobody and hands over nothing. -/
theorem Loiterer.still (h : Loiterer p moves k) (hle : first <+: moves) {pollers : List (Poller Co Fu)}
    {d : Driver Co Fu} {doing : Doing Co Fu} (hk : d.key = k)
    (hfocus : (after p {} first).focus = .active pollers d.key doing)
    (hd : (after p {} first).driver? d.key = some d) :
    doing.recruits = false ∧ doing.delivers? = none := by
  subst hk
  obtain ⟨before, parent, b, fu, t, r, hbefore, henters, hidles⟩ := h
  have hmem := mem_of_driver? hd
  have hentered := henters.before p hbefore hle ((orderly_after p first).proper d hmem).1
  have hloiters := loitering_after p hentered henters hidles d hmem rfl
  by_cases hw : doing.works = true
  · rw [seat_of_works hfocus hw] at hloiters
    cases hloiters with
    | idles h => cases h <;> simp [Doing.recruits, Doing.delivers?]
    | _ => simp [Doing.recruits, Doing.delivers?]
  · cases doing <;> simp_all [Doing.works, Doing.recruits, Doing.delivers?]

/-- No coroutine is driven there. -/
theorem Loiterer.history_eq_nil (h : Loiterer p moves k) : history p moves k = [] := by
  obtain ⟨before, parent, b, fu, t, r, hbefore, henters, _⟩ := h
  have hold := (henters.allotted p (orderly_after p before)).1
  rw [← after_snoc] at hold
  exact (plain_after p hbefore hold (history_of_pending p henters)).1

/-- The driver was entered for a coroutine that the coroutine of `key` has called. -/
def Callee (p : Program Co Fu) (moves : List (Move Co Fu)) (key k : DriverKey) : Prop :=
  ∃ before b co t, before ++ [.step] <+: moves ∧ Enters (after p {} before) key b (.coroutine co) k t

/-- **The party of a coroutine of simple effects**, whose callees have closed effects: its driver, these
callees, and drivers of work that idles. -/
theorem cases_of_mem_party (h : Confined p moves key (Simple p))
    (hcallees : ∀ n, Callee p moves key n → Confined p moves n (Closed p)) (hle : first <+: moves)
    (hk : k ∈ party p first key) : k = key ∨ Callee p moves key k ∨ Loiterer p moves k := by
  induction first using List.reverseRecOn generalizing k with
  | nil => exact .inl (List.mem_singleton.mp hk)
  | append_singleton first m ih =>
    have hbefore : first <+: moves := (List.prefix_append ..).trans hle
    rw [party_snoc] at hk
    rcases List.mem_append.mp hk with hk | hk
    · exact ih hbefore hk
    · obtain ⟨rfl, parent, b, work, t, hparent, henters⟩ := mem_recruits.mp hk
      obtain ⟨pollers, d, doing, hfocus, rfl, hd, hc, hrecruits⟩ := henters.exists_computing
      rcases ih hbefore hparent with rfl | hcallee | hloiterer
      · obtain ⟨past, b', e, hserves, he⟩ := h.serves hbefore hfocus hd rfl hc
        rcases work_of_simple hserves he henters with
          ⟨fu, r, rfl, hidles⟩ | ⟨_, _, co, _, _, _, rfl, _⟩
        · exact .inr (.inr ⟨first, _, b, fu, t, r, hle, henters, hidles⟩)
        · exact .inr (.inl ⟨first, b, co, t, hle, henters⟩)
      · exact absurd henters ((hcallees _ hcallee).not_enters hbefore)
      · rw [(hloiterer.still hbefore rfl hfocus hd).1] at hrecruits
        cases hrecruits

/-- Who hands events over on behalf of such a coroutine is its driver or a callee. -/
theorem cases_of_mem_deliveries (h : Confined p moves key (Simple p))
    (hcallees : ∀ n, Callee p moves key n → Confined p moves n (Closed p)) {x : DriverKey × Json}
    (hx : x ∈ deliveries p moves) (hk : x.1 ∈ party p moves key) : x.1 = key ∨ Callee p moves key x.1 := by
  obtain ⟨first, pollers, d, doing, hle, hdk, hfocus, hd, hdelivers⟩ := exists_of_mem_deliveries hx
  rcases cases_of_mem_party h hcallees (List.prefix_refl _) hk with hkey | hcallee | hloiterer
  · exact .inl hkey
  · exact .inr hcallee
  · rw [(hloiterer.still ((List.prefix_append ..).trans hle) hdk hfocus hd).2] at hdelivers
    cases hdelivers

/-- An effect on behalf of such a coroutine is its own or that of a callee. -/
theorem cases_of_processed (h : Confined p moves key (Simple p))
    (hcallees : ∀ n, Callee p moves key n → Confined p moves n (Closed p)) {e : Effect}
    (he : ProcessedFor p moves key e) :
    (∃ ref, .given ref e ∈ history p moves key) ∨
      ∃ n, Callee p moves key n ∧ ∃ ref, .given ref e ∈ history p moves n := by
  obtain ⟨k, hk, ref, he⟩ := he
  rcases cases_of_mem_party h hcallees (List.prefix_refl _) hk with rfl | hcallee | hloiterer
  · exact .inl ⟨ref, he⟩
  · exact .inr ⟨k, hcallee, ref, he⟩
  · rw [hloiterer.history_eq_nil] at he
    cases he

theorem processedFor_of_given {e : Effect} {ref : ProcessorRef} (h : .given ref e ∈ history p moves key) :
    ProcessedFor p moves key e := ⟨key, mem_party_self p moves key, ref, h⟩

theorem Confined.simple (h : Confined p moves key (Leafy p)) : Confined p moves key (Simple p) :=
  ⟨h.builtin, fun ref e he => .leafy (h.effects ref e he)⟩

/-- A coroutine of leafy effects calls no other. -/
theorem Confined.not_callee (h : Confined p moves key (Leafy p)) (n : DriverKey) : ¬ Callee p moves key n := by
  rintro ⟨before, b, co, t, hle, henters⟩
  obtain ⟨pollers, d, doing, hfocus, rfl, hd, hc, _⟩ := henters.exists_computing
  obtain ⟨past, b', e, hserves, he⟩ := h.serves ((List.prefix_append ..).trans hle) hfocus hd rfl hc
  obtain ⟨_, _, hwork, _⟩ := work_of_leafy hserves he henters
  cases hwork

/-- **What is dispatched on behalf of a coroutine that calls no other** is what it has put. -/
theorem dispatched_of_leafy (h : Confined p moves key (Leafy p)) (hrested : Rested (history p moves key)) :
    dispatched p moves key = putsIn (history p moves key) := by
  rw [dispatched, eventsBy_eq (mem_party_self p moves key), eventsBy_of_simple h.simple (List.prefix_refl _) hrested]
  intro x hx hk
  exact (cases_of_mem_deliveries h.simple (fun n hn => absurd hn (h.not_callee n)) hx hk).resolve_right
    (h.not_callee _)

theorem processed_of_leafy (h : Confined p moves key (Leafy p)) {e : Effect} :
    ProcessedFor p moves key e ↔ ∃ ref, .given ref e ∈ history p moves key := by
  refine ⟨fun he => ?_, fun ⟨ref, he⟩ => processedFor_of_given he⟩
  exact (cases_of_processed h.simple (fun n hn => absurd hn (h.not_callee n)) he).resolve_right
    fun ⟨n, hn, _⟩ => h.not_callee n hn

/-- What is handed over on behalf of the caller before, during and after the call, if nobody else than the
callee hands over anything. -/
theorem eventsBy_of_callee {keys : List DriverKey} {xs ys zs : List (DriverKey × Json)} {before callee all : List Json}
    (hkey : key ∈ keys) (hn : n ∈ keys)
    (hcases : ∀ x ∈ xs ++ ys ++ zs, x.1 ∈ keys → x.1 = key ∨ x.1 = n)
    (hxs : eventsBy [key] xs = before) (hys : eventsBy [key] (xs ++ ys) = before)
    (hzs : eventsBy [key] (xs ++ ys ++ zs) = before ++ all)
    (nxs : eventsBy [n] xs = []) (nys : eventsBy [n] (xs ++ ys) = callee)
    (nzs : eventsBy [n] (xs ++ ys ++ zs) = callee) :
    eventsBy keys (xs ++ ys ++ zs) = before ++ callee ++ all := by
  rw [eventsBy_append, hxs] at hys
  have hys : eventsBy [key] ys = [] := List.append_right_eq_self.mp hys
  rw [eventsBy_append, eventsBy_append, hxs, hys, List.append_nil] at hzs
  have hzs : eventsBy [key] zs = all := List.append_cancel_left hzs
  rw [eventsBy_append, nxs, List.nil_append] at nys
  rw [eventsBy_append, eventsBy_append, nxs, nys, List.nil_append] at nzs
  have nzs : eventsBy [n] zs = [] := List.append_right_eq_self.mp nzs
  have hfirst : eventsBy keys xs = eventsBy [key] xs := eventsBy_eq hkey fun x hx hk =>
    (hcases x (by simp [hx]) hk).resolve_right (ne_of_eventsBy_eq_nil nxs x hx)
  have hsecond : eventsBy keys ys = eventsBy [n] ys := eventsBy_eq hn fun x hx hk =>
    (hcases x (by simp [hx]) hk).resolve_left (ne_of_eventsBy_eq_nil hys x hx)
  have hthird : eventsBy keys zs = eventsBy [key] zs := eventsBy_eq hkey fun x hx hk =>
    (hcases x (by simp [hx]) hk).resolve_right (ne_of_eventsBy_eq_nil nzs x hx)
  rw [eventsBy_append, eventsBy_append, hfirst, hsecond, hthird, hxs, nys, hzs]

variable {s : SchedulerId} {co₀ : Co} {past rest : List (TaskEvent Co)} {target : Target} {args : List Json}
  {r : Resume}

theorem eq_of_snoc_prefix {α : Type} {hist past rest : List α} {e g : α} (h : hist ++ [e] <+: past ++ g :: rest)
    (hpast : e ∉ past) (hrest : e ∉ rest) : hist ++ [e] = past ++ [g] := by
  obtain ⟨more, hmore⟩ := h
  rw [List.append_assoc] at hmore
  rcases List.append_eq_append_iff.mp hmore with ⟨between, rfl, hmid⟩ | ⟨between, rfl, hmid⟩
  · cases between with
    | nil =>
      cases hmid
      rw [List.append_nil]
    | cons x between =>
      cases hmid
      exact absurd (by simp) hpast
  · cases between with
    | nil =>
      cases hmid
      rw [List.append_nil]
    | cons x between =>
      cases hmid
      exact absurd (by simp) hrest

/-- The callee of the only call of a coroutine is the driver that was entered for it. -/
theorem eq_of_callee (hgives : GivesCoroutine p target args) (h : Confined p moves key (Simple p))
    (hhist : history p moves key = past ++ .given (.builtin .call) (.call target args) :: rest)
    (hleafy : ∀ ref e, .given ref e ∈ past ∨ .given ref e ∈ rest → Leafy p e) {b : Builtin}
    {work : Invoked Co Fu} {t : TaskHandle} (hle : first ++ [.step] <+: moves)
    (hfirst : history p first key = past ++ [.given (.builtin .call) (.call target args)])
    (henters : Enters (after p {} first) key b work n t) (hk : Callee p moves key k) : k = n := by
  obtain ⟨before, b', co, t', hbefore, henters'⟩ := hk
  have hbefore' : before <+: moves := (List.prefix_append ..).trans hbefore
  obtain ⟨pollers, d, doing, hfocus, rfl, hd, hc, _⟩ := henters'.exists_computing
  obtain ⟨past', b'', e', hserves, he⟩ := h.serves hbefore' hfocus hd rfl hc
  have hnot : ¬ Leafy p e' := by
    intro he
    obtain ⟨_, _, hwork, _⟩ := work_of_leafy hserves he henters'
    cases hwork
  have hprefix := history_prefix p hbefore' d.key
  rw [hserves.given, hhist] at hprefix
  have hhere := eq_of_snoc_prefix hprefix (fun hmem => hnot (hleafy _ _ (.inl hmem)))
    (fun hmem => hnot (hleafy _ _ (.inr hmem)))
  cases called_once hgives hbefore hle (hserves.given.trans hhere) hfirst henters' henters
  exact (henters'.unique henters).2.2.1

/-- No task that was entered for an effect of the coroutine is terminated, and the driver of none is dropped. -/
def Unhindered (p : Program Co Fu) (moves : List (Move Co Fu)) (key : DriverKey) : Prop :=
  ∀ first b work n t, first ++ [.step] <+: moves → Enters (after p {} first) key b work n t →
    ¬ Terminated p moves t ∧ ∀ before, ¬ before ++ [.drop n] <+: moves

/-- What there is to know about the callee of a call that was answered with `r`: it has come to its end, and
`told` is all that has happened to its coroutine `co`. -/
structure Serving (p : Program Co Fu) (moves : List (Move Co Fu)) (key n : DriverKey) (s : SchedulerId) (co : Co)
    (told : List (TaskEvent Co)) (own : Outcome) (r : Resume) : Prop where
  history : history p moves n = .entered s co :: told
  ended : .ended own ∈ told
  result : ∀ v, r = .ok v → r = own.map .value
  unhindered : Unhindered p moves key → r = own.map .value

/-- The callee `n` was entered after the moves `first` of the run and had come to its end by the moves `upto`,
and meanwhile nothing has happened to its caller. -/
structure Spans (p : Program Co Fu) (first upto : List (Move Co Fu)) (key n : DriverKey) (b : Builtin) (co : Co)
    (t : TaskHandle) (own : Outcome) : Prop where
  le : first ++ [.step] <+: upto
  enters : Enters (after p {} first) key b (.coroutine co) n t
  still : history p upto key = history p first key
  ended : .ended own ∈ history p upto n

/-- A call of a coroutine that was answered has a callee that has come to its end. -/
theorem serving_of_resolved (hgives : GivesCoroutine p target args) (hhist : history p moves key =
      .entered s co₀ :: past ++ .given (.builtin .call) (.call target args) :: .resolved r :: rest) :
    ∃ first upto n b co t told own, upto <+: moves ∧ Spans p first upto key n b co t own ∧
      history p first key = .entered s co₀ :: past ++ [.given (.builtin .call) (.call target args)] ∧
      (p.invoke target args).Gives p (.coroutine co) ∧ Serving p moves key n s co told own r := by
  obtain ⟨upto, n, o, hupto, hstill, ⟨first, co, t, hfirst, hgiven, henters, hco⟩, hover, rfl⟩ :=
    driven_of_resolved hgives hhist
  have hle : upto <+: moves := (List.prefix_append ..).trans hupto
  obtain ⟨own, hended, hok, hkept⟩ := ended_of_over p hfirst henters hover
  obtain rfl : t.scheduler = s := by
    have htold := told_after p first key
    rw [hgiven] at htold
    obtain ⟨_, hd, _⟩ := henters
    cases key_of_driver? hd
    exact (coroutine_of_entered p htold (mem_of_driver? hd)).2
  have hprefix := history_prefix p (hfirst.trans hle) n
  rw [entered_of_enters p henters] at hprefix
  obtain ⟨told, htold⟩ := hprefix
  have hendedTold : .ended own ∈ told := by
    have hmem := ( history_prefix p hle n).subset hended
    rw [← htold] at hmem
    simpa using hmem
  refine ⟨first, upto, n, _, co, t, told, own, hle, ⟨hfirst, henters, hstill.trans hgiven.symm, hended⟩, hgiven,
    hco, ⟨htold.symm, hendedTold, fun v hv => ?_, fun hall => ?_⟩⟩
  · cases o with
    | ok v => rw [hok v rfl]
    | error e => cases hv
  · have hnot := (hall _ _ _ _ _ (hfirst.trans hle) henters).1
    rw [hkept fun ⟨before, m, hm, h⟩ => hnot ⟨before, m, hm.trans hle, h⟩]

/-- What the callee puts comes in where it is called. -/
theorem dispatched_of_spans {upto : List (Move Co Fu)} {b : Builtin} {co : Co} {t : TaskHandle} {own : Outcome}
    (h : Confined p moves key (Simple p)) (hcallee : Confined p moves n (Closed p))
    (hone : ∀ k, Callee p moves key k → k = n) (hspans : Spans p first upto key n b co t own)
    (hle : upto <+: moves) (hfirst : Rested (history p first key)) (hrested : Rested (history p moves key))
    (hhist : history p moves key = history p first key ++ rest) :
    dispatched p moves key = putsIn (history p first key) ++ putsIn (history p moves n) ++ putsIn rest := by
  have hsimple : Confined p moves n (Simple p) :=
    ⟨hcallee.builtin, fun ref e he => .leafy (.closed (hcallee.effects ref e he))⟩
  have hbegins : first <+: upto := (List.prefix_append ..).trans hspans.le
  -- when the call is over, the callee has put what it ever puts
  have hafter : ∀ moves', moves' <+: moves → .ended own ∈ history p moves' n →
      eventsBy [n] (deliveries p moves') = putsIn (history p moves n) := by
    intro moves' hmoves hended
    obtain ⟨past, hpast⟩ := exists_of_ended p hended
    rw [history_of_ended p hmoves hended,
      eventsBy_of_simple hsimple hmoves (hpast ▸ Rested.snoc rfl past)]
  have hnew : history p first n = [] :=
    history_eq_nil p first (by rw [hspans.enters.key_eq]; exact Nat.lt_succ_self _)
  have hnone := eventsBy_of_simple hsimple (hbegins.trans hle) (hnew ▸ Rested.nil)
  have hbefore := eventsBy_of_simple h (hbegins.trans hle) hfirst
  have hduring := eventsBy_of_simple h hle (hspans.still ▸ hfirst)
  have hall := eventsBy_of_simple h (List.prefix_refl moves) hrested
  have hover := hafter upto hle hspans.ended
  have hfinally := hafter moves (List.prefix_refl _) (( history_prefix p hle n).subset hspans.ended)
  have hcases : ∀ x ∈ deliveries p moves, x.1 ∈ party p moves key → x.1 = key ∨ x.1 = n := fun x hx hk =>
    (cases_of_mem_deliveries h (fun k hk => hone k hk ▸ hcallee) hx hk).imp_right (hone x.1)
  have hn := mem_party_of_enters (hspans.le.trans hle) (mem_party_self p first key) hspans.enters
  rw [hhist, putsIn_append] at hall
  rw [hspans.still] at hduring
  rw [hnew] at hnone
  have hkey := mem_party_self p moves key
  rw [dispatched]
  obtain ⟨during, rfl⟩ := hbegins
  obtain ⟨later, rfl⟩ := hle
  simp only [deliveries_append] at hduring hall hover hfinally hcases ⊢
  exact eventsBy_of_callee hkey hn hcases hbefore hduring hall hnone hover hfinally

/-- **What is dispatched on behalf of a coroutine that calls one other** is what it has put before the call,
what the callee has put, and what it has put after the call. -/
theorem dispatched_of_called (hbuiltin : (p.scheduler s).processors = .builtin)
    (hgives : GivesCoroutine p target args) (hhist : history p moves key = .entered s co₀ :: past ++
      .given (.builtin .call) (.call target args) :: .resolved r :: rest)
    (hrested : Rested (history p moves key))
    (hleafy : ∀ ref e, .given ref e ∈ past ∨ .given ref e ∈ rest → Leafy p e)
    (hcallee : ∀ n co told own, (p.invoke target args).Gives p (.coroutine co) →
      Serving p moves key n s co told own r → ∀ ref e, .given ref e ∈ told → Closed p e) :
    ∃ n co told own, (p.invoke target args).Gives p (.coroutine co) ∧
      Serving p moves key n s co told own r ∧
      dispatched p moves key = putsIn past ++ putsIn told ++ putsIn rest ∧
      ∀ e, ProcessedFor p moves key e ↔
        (∃ ref, .given ref e ∈ history p moves key) ∨ ∃ ref, .given ref e ∈ told := by
  have hleafy' : ∀ ref e, .given ref e ∈ .entered s co₀ :: past ∨ .given ref e ∈ .resolved r :: rest →
      Leafy p e := fun ref e he => hleafy ref e (by simpa using he)
  have hconfined : Confined p moves key (Simple p) := by
    refine ⟨⟨s, co₀, _, hhist, hbuiltin⟩, fun ref e he => ?_⟩
    rw [hhist] at he
    rcases List.mem_append.mp he with he | he
    · exact .leafy (hleafy' ref e (.inl he))
    · rcases List.mem_cons.mp he with he | he
      · cases he
        exact .call hgives
      · exact .leafy (hleafy' ref e (.inr he))
  obtain ⟨first, upto, n, b, co, t, told, own, hle, hspans, hgiven, hco, hserving⟩ :=
    serving_of_resolved hgives hhist
  have hgivenIn : ∀ ref e, .given ref e ∈ history p moves n ↔ .given ref e ∈ told := by
    rw [hserving.history]
    simp
  have hclosed : Confined p moves n (Closed p) :=
    ⟨⟨s, co, told, hserving.history, hbuiltin⟩, fun ref e he =>
      hcallee n co told own hco hserving ref e ((hgivenIn ref e).mp he)⟩
  have hone : ∀ k, Callee p moves key k → k = n := fun k hk =>
    eq_of_callee hgives hconfined hhist hleafy' (hspans.le.trans hle) hgiven hspans.enters hk
  refine ⟨n, co, told, own, hco, hserving, ?_, fun e => ⟨fun he => ?_, ?_⟩⟩
  · have hsplit : history p moves key = history p first key ++ .resolved r :: rest := by
      rw [hhist, hgiven, List.append_assoc, List.singleton_append]
    rw [dispatched_of_spans hconfined hclosed hone hspans hle (hgiven ▸ Rested.snoc rfl _) hrested hsplit, hgiven,
      hserving.history]
    simp [TaskEvent.puts?]
  · refine (cases_of_processed hconfined (fun k hk => hone k hk ▸ hclosed) he).imp_right ?_
    rintro ⟨k, hk, ref, he⟩
    exact ⟨ref, (hgivenIn ref e).mp (hone k hk ▸ he)⟩
  · rintro (⟨ref, he⟩ | ⟨ref, he⟩)
    · exact processedFor_of_given he
    · exact ⟨n, mem_party_of_enters (hspans.le.trans hle) (mem_party_self p first key) hspans.enters, ref,
        (hgivenIn ref e).mpr he⟩

end

end EventLoop

end EffectLoop
