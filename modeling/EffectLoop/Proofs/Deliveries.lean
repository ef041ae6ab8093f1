import EffectLoop.Proofs.Turns

/-!
# Puts are delivered

A driver that has yielded a put rests until its turn, and each of its callers rests at the call of the
next (`AtRest`). Nothing but the surroundings can change that before their home is polled: not even the
end of the task, since a driver goes on whatever became of its task. While they rest the home is
deferred or queued (`Owing`), and a poll of the home goes down from caller to callee to the call of the
sink. `puts_are_delivered` puts this together with the order of events in `putLog` and the turn that a
put waits for.
-/

namespace EffectLoop

variable {Co Fu : Type}

namespace EventLoop

/-! ## The drivers at rest -/

/-- What a driver rests at while a put is due: its turn, with the event to deliver, or the call of the
driver above which the others rest. -/
def due (event : Json) : List DriverKey → Branch Fu
  | [] => .waiting .turn [.deliver event]
  | key :: _ => .waiting (.nested key) [.call]

/-- The drivers, the last of them with a put that is due, rest each at the call of the next. -/
def AtRest (l : EventLoop Co Fu) (event : Json) : List DriverKey → Prop
  | [] => True
  | key :: below => (∀ d ∈ l.drivers, d.key = key → d.activity = .pending (due event below)) ∧
    AtRest l event below

/-- The next thing the driver does is to call its sink with the event. -/
def AtCall (l : EventLoop Co Fu) (event : Json) (key : DriverKey) : Prop :=
  ∃ pollers r, l.focus = .active pollers key (.answer r ⟨[.deliver event], []⟩)

/-- A poll has come to the first of the drivers and goes down to the last, with this many steps left to
the call of the sink. -/
inductive Sinking (l : EventLoop Co Fu) (event : Json) (n : Nat) : List DriverKey → Prop
  | comes {pollers : List (Poller Co Fu)} {key : DriverKey} {below : List DriverKey}
      (hn : n = 2 * below.length + 2) (hf : l.focus = .active pollers key .poll)
      (hrest : AtRest l event (key :: below)) : Sinking l event n (key :: below)
  | visits {pollers : List (Poller Co Fu)} {key : DriverKey} {below : List DriverKey}
      (hn : n = 2 * below.length + 1)
      (hf : l.focus = .active pollers key (.visit (due event below) []))
      (hrest : AtRest l event below) : Sinking l event n (key :: below)

/-- A put of the last of the drivers is due: `chain` are the driver that lives in a task of its own and
those that call each other below it. -/
inductive Owing (l : EventLoop Co Fu) (event : Json) (home : DriverKey) (chain : List DriverKey) : Prop
  | yielded (above : List DriverKey) {key : DriverKey} (hchain : chain = above.reverse ++ [key])
      (hf : l.focus = .active (callers above) key (.process (.builtin .put) (.put event) {}))
  | given (above : List DriverKey) {key : DriverKey} (hchain : chain = above.reverse ++ [key])
      (hf : l.focus = .active (callers above) key (.await .turn ⟨[.deliver event], []⟩))
  /-- The poll that has yielded the put comes to its end. -/
  | pauses (above below : List DriverKey) {key : DriverKey}
      (hchain : chain = above.reverse ++ key :: below)
      (hf : l.focus = .active (callers above) key (.pause (due event below) []))
      (hrest : AtRest l event below) (hdeferred : home ∈ l.deferred)
  | ends (above below : List DriverKey) {key : DriverKey}
      (hchain : chain = above.reverse ++ key :: below)
      (hf : l.focus = .active (callers above) key (.leave none))
      (hrest : AtRest l event (key :: below)) (hdeferred : home ∈ l.deferred)
  /-- Others are polled. -/
  | rests (hrest : AtRest l event chain) (haside : Aside l home)
      (hdue : home ∈ l.deferred ∨ home ∈ l.queue)
  /-- The home is polled. -/
  | sinks (above below : List DriverKey) (hchain : chain = above ++ below) {n : Nat}
      (h : Sinking l event n below)

section

variable (p : Program Co Fu) {l l' : EventLoop Co Fu} {event : Json} {home key : DriverKey}
  {chain below : List DriverKey} {pollers : List (Poller Co Fu)}

/-- Drivers that are left alone stay at rest. -/
theorem AtRest.mono (h : AtRest l event below)
    (hold : ∀ d ∈ l'.drivers, d.key ∈ below → d ∈ l.drivers) : AtRest l' event below := by
  induction below with
  | nil => trivial
  | cons key below ih =>
    refine ⟨fun d hd hk => ?_, ih h.2 fun d hd hk => hold d hd (List.mem_cons_of_mem _ hk)⟩
    exact h.1 d (hold d hd (hk ▸ List.mem_cons_self)) hk

/-- All these drivers are there. -/
def Whole (l : EventLoop Co Fu) (chain : List DriverKey) : Prop :=
  ∀ key ∈ chain, ∃ d ∈ l.drivers, d.key = key

/-! ## The way down -/

theorem driver?_of_whole (hwhole : Whole l chain) (hk : key ∈ chain) :
    ∃ d, l.driver? d.key = some d ∧ d.key = key := by
  obtain ⟨x, hx, hxk⟩ := hwhole key hk
  cases hd : l.driver? key with
  | none => exact absurd (beq_iff_eq.mpr hxk) (List.find?_eq_none.mp hd x hx)
  | some d =>
    cases key_of_driver? hd
    exact ⟨d, hd, rfl⟩

/-- A poll that comes to a driver at rest takes it up where it rests. -/
theorem move_of_comes (hf : l.focus = .active pollers key .poll)
    (hrest : AtRest l event (key :: below)) (hwhole : Whole l (key :: below)) :
    l.move p .step =
      (l.setActivity key .busy).focusOn pollers key (.visit (due event below) []) := by
  obtain ⟨d, hd, rfl⟩ := driver?_of_whole hwhole List.mem_cons_self
  rw [move_step_of_driver p hf hd fun _ he => by cases he]
  exact stepDriver_poll_pending p pollers (hrest.1 d (mem_of_driver? hd) rfl)

/-- Where a driver at rest goes on to: the one that it calls, or its turn is over. -/
def onwards (l : EventLoop Co Fu) (event : Json) (pollers : List (Poller Co Fu)) (key : DriverKey) :
    List DriverKey → EventLoop Co Fu
  | [] => l.focusOn pollers key (.answer (.ok (.value .null)) ⟨[.deliver event], []⟩)
  | next :: _ => l.focusOn (.waiting key ⟨[.call], []⟩ :: pollers) next .poll

theorem move_of_visits (hf : l.focus = .active pollers key (.visit (due event below) []))
    (hwhole : Whole l (key :: below)) : l.move p .step = l.onwards event pollers key below := by
  obtain ⟨d, hd, rfl⟩ := driver?_of_whole hwhole List.mem_cons_self
  rw [move_step_of_driver p hf hd (not_leave_of_works rfl)]
  cases below <;> rfl

theorem atRest_of_comes (hrest : AtRest l event (key :: below)) (hnodup : (key :: below).Nodup) :
    AtRest ((l.setActivity key .busy).focusOn pollers key (.visit (due event below) [])) event
      below := by
  refine hrest.2.mono fun d hd hk => ?_
  obtain ⟨d₀, hd₀, rfl⟩ := mem_modifyDriver hd
  by_cases hkey : d₀.key = key
  · rw [if_pos hkey] at hk
    exact absurd (hkey ▸ hk) (List.nodup_cons.mp hnodup).1
  · rwa [if_neg hkey]

theorem whole_setActivity (h : Whole l chain) (activity : Activity Fu) :
    Whole (l.setActivity key activity) chain := by
  intro k hk
  obtain ⟨d, hd, rfl⟩ := h k hk
  refine ⟨_, List.mem_map_of_mem hd, ?_⟩
  split <;> rfl

/-- **A step of a poll on its way down** takes it further, or to the call. -/
theorem sinking_move (hnodup : below.Nodup) (hwhole : Whole l below) {n : Nat}
    (h : Sinking l event n below) :
    Whole (l.move p .step) below ∧ ∃ m, n = m + 1 ∧
      ((∃ above below', below = above ++ below' ∧ Sinking (l.move p .step) event m below') ∨
        m = 0 ∧ ∃ key, below.getLast? = some key ∧ AtCall (l.move p .step) event key) := by
  cases h with
  | @comes _ key below hn hf hrest =>
    rw [move_of_comes p hf hrest hwhole]
    refine ⟨whole_setActivity hwhole .busy, _, hn, .inl ⟨[], _, rfl, ?_⟩⟩
    exact .visits rfl rfl (atRest_of_comes hrest hnodup)
  | @visits _ key below hn hf hrest =>
    rw [move_of_visits p hf hwhole]
    cases below with
    | nil => exact ⟨hwhole, 0, hn, .inr ⟨rfl, key, rfl, _, _, rfl⟩⟩
    | cons next below =>
      refine ⟨hwhole, _, hn, .inl ⟨[key], next :: below, rfl, .comes rfl rfl ?_⟩⟩
      exact hrest.mono fun _ hd _ => hd

/-- On the way down nothing happens to a coroutine or a sink. -/
theorem putEvents_of_sinking {n : Nat} (h : Sinking l event n below) (key : DriverKey) :
    l.putEvents .step key = [] := by
  have hnone : ∀ {pollers k doing}, l.focus = .active pollers k doing →
      (∀ d : Driver Co Fu, doing.putEvents d = []) → l.putEvents .step key = [] := by
    intro pollers k doing hf hnone
    unfold putEvents
    rw [hf]
    dsimp only
    split
    · cases l.driver? k with
      | none => rfl
      | some d => exact hnone d
    · rfl
  cases h with
  | comes _ hf _ => exact hnone hf fun d => putEvents_of_not_works rfl
  | visits _ hf _ =>
    refine hnone hf fun d => ?_
    unfold Doing.putEvents Doing.event? Doing.sink?
    cases d.job <;> rfl

/-- **A poll on its way down comes to the call of the sink.** -/
theorem sinking_ends (hl : Proper l) (hnodup : below.Nodup) (hwhole : Whole l below) {n : Nat}
    (h : Sinking l event n below) {last : DriverKey} (hlast : below.getLast? = some last)
    (hle : key.val ≤ l.lastKey) :
    AtCall (l.after p (List.replicate n .step)) event last ∧
      (∃ d ∈ (l.after p (List.replicate n .step)).drivers, d.key = last) ∧
        putLogFrom p l key (List.replicate n .step) = [] := by
  induction n generalizing l below with
  | zero =>
    cases h with
    | comes hn _ _ => omega
    | visits hn _ _ => omega
  | succ n ih =>
    obtain ⟨hwhole', m, hm, hstep⟩ := sinking_move p hnodup hwhole h
    obtain ⟨_, _, htouches⟩ := touches_move p hl .step
    rw [List.replicate_succ, after_cons, putLogFrom, putEvents_of_sinking h,
      eventsOf_newcomers_old hle]
    cases hm
    rcases hstep with ⟨above, below', rfl, h'⟩ | ⟨rfl, k, hk, h'⟩
    · refine ih (proper_move p hl .step) (List.nodup_append.mp hnodup).2.1
        (fun k hk => hwhole' k (List.mem_append_right _ hk)) h' ?_
        (Nat.le_trans hle htouches.lastKey_le)
      have hne : below' ≠ [] := by
        cases h' <;> simp
      rw [List.getLast?_append, List.getLast?_eq_some_getLast hne, Option.some_or] at hlast
      rw [List.getLast?_eq_some_getLast hne, hlast]
    · cases hlast.symm.trans hk
      exact ⟨h', hwhole' _ (List.mem_of_getLast? hk), rfl⟩

/-! ## While a put is due -/

/-- The drivers rest while others are polled. -/
theorem atRest_of_aside (ho : Orderly l) {m : Move Co Fu} (haside : Aside l home)
    (hhome : ∀ d ∈ l.drivers, d.key ∈ below → d.home = home) (hwhole : Whole l below)
    (h : AtRest l event below) : AtRest (l.move p m) event below := by
  refine h.mono fun d hd hk => ?_
  obtain ⟨x, hx, hxk⟩ := hwhole d.key hk
  have hold : d.key.val ≤ l.lastKey := hxk ▸ (ho.proper x hx).1
  have hturn := turn_move p m (l := l)
  generalize l.move p m = l' at hturn hd
  have hspares : Spares l l' → d ∈ l.drivers := fun hl => by
    rcases hl.old_or_new d hd with hd | ⟨⟨hnew, _⟩, _⟩
    · exact hd
    · omega
  cases hturn with
  | outside _ m => exact hspares (spares_outside ..)
  | refused _ _ => exact hd
  | leave _ _ outcome => exact hspares (spares_leave ..)
  | driver hf hfd hleave =>
    rename_i pollers f doing
    have hmem := mem_of_driver? hfd
    have hb := (ho.proper f hmem).1
    refine ((driverStep_stepDriver p l pollers f hb hleave).touches p hb).mem_of_ne hd ?_ hold
    intro hkey
    refine haside f hmem ?_ (hhome f hmem (hkey ▸ hk))
    rw [parties_of_active hf]
    exact List.mem_cons_self

/-- At the end of a poll the next of the callers comes to rest. -/
theorem owing_leave {above : List DriverKey} (hchain : chain = above.reverse ++ key :: below)
    (hrest : AtRest l event (key :: below)) (hdeferred : home ∈ l.deferred) :
    Owing (l.leave p key none (callers above)) event home chain := by
  cases above with
  | nil =>
    cases hchain
    exact .rests (hrest.mono fun _ hd _ => hd) (.of_idle rfl home) (.inl hdeferred)
  | cons owner above =>
    refine .pauses above (key :: below) ?_ rfl
      (hrest.mono fun _ hd _ => hd) hdeferred
    rw [hchain, List.reverse_cons, List.append_assoc]
    rfl

/-- A driver that comes to rest is one more of those that do. -/
theorem atRest_setActivity (hnodup : (key :: below).Nodup) (hrest : AtRest l event below) :
    AtRest (l.setActivity key (.pending (due event below))) event (key :: below) := by
  refine ⟨fun d hd hk => ?_, hrest.mono fun d hd hk => ?_⟩
  · obtain ⟨d₀, _, rfl⟩ := mem_modifyDriver hd
    by_cases hkey : d₀.key = key
    · rw [if_pos hkey]
    · rw [if_neg hkey] at hk
      exact absurd hk hkey
  · obtain ⟨d₀, hd₀, rfl⟩ := mem_modifyDriver hd
    by_cases hkey : d₀.key = key
    · rw [if_pos hkey] at hk
      exact absurd (hkey ▸ hk) (List.nodup_cons.mp hnodup).1
    · rwa [if_neg hkey]

/-- Who is at home in the queue or deferred stays so while others are polled. -/
theorem due_of_aside (ho : Orderly l) (hh : Housed l) {m : Move Co Fu} (haside : Aside l home)
    (hhome : ∀ d ∈ l.drivers, d.key = home → d.home = home) (hwhole : Whole l [home])
    (hwhole' : Whole (l.move p m) [home])
    (hpoll : l.focus = .idle → ∀ pollers, (l.move p m).focus ≠ .active pollers home .poll)
    (h : home ∈ l.deferred ∨ home ∈ l.queue) :
    home ∈ (l.move p m).deferred ∨ home ∈ (l.move p m).queue := by
  obtain ⟨r, hr, hrk⟩ := hwhole home (List.mem_singleton_self home)
  obtain ⟨r', hr', hrk'⟩ := hwhole' home (List.mem_singleton_self home)
  have hrhome := hhome r hr hrk
  have hroot : r.IsRoot := hh.head r hr r hr (hrk.trans hrhome.symm)
  rcases h with hdeferred | hq
  · by_cases hflush : l.focus = .idle ∧ m = .flush
    · obtain ⟨hidle, rfl⟩ := hflush
      right
      rw [move_of_idle p hidle]
      exact mem_enqueue (.inr hdeferred)
    · left
      refine (deferred_of_aside p haside hdeferred fun hidle he => hflush ⟨hidle, he⟩).resolve_right ?_
      exact fun hgone => hgone r' hr' hrk'
  · right
    subst hrk
    exact stays_queued p ho hh hr hroot hq hpoll hr' hrk'

/-- **While a put is due its home is deferred or queued**, or it is polled, and then the poll goes down
to the call of the sink. -/
theorem owing_move (ho : Orderly l) (hh : Housed l) {m : Move Co Fu}
    (hladdered : Laddered (l.move p m)) (hnodup : chain.Nodup)
    (hhome : ∀ d ∈ l.drivers, d.key ∈ chain → d.home = home) (hhead : chain.head? = some home)
    (hwhole : Whole l chain) (hwhole' : Whole (l.move p m) chain) (h : Owing l event home chain) :
    Owing (l.move p m) event home chain ∨
      ∃ key, chain.getLast? = some key ∧ AtCall (l.move p m) event key := by
  by_cases hrefused : l.focus ≠ .idle ∧ m ≠ .step
  · obtain ⟨hactive, hm⟩ := hrefused
    cases hfocus : l.focus with
    | idle => exact absurd hfocus hactive
    | active pollers key doing => exact .inl (by rwa [move_of_active p hfocus hm])
  have hstep : ∀ {pollers key doing}, l.focus = .active pollers key doing → m = .step := by
    intro pollers key doing hf
    by_contra hm
    exact hrefused ⟨by simp [hf], hm⟩
  have hmem : ∀ {above below : List DriverKey}, chain = above ++ below → ∀ {k}, k ∈ below → k ∈ chain :=
    fun hchain _ hk => hchain ▸ List.mem_append_right _ hk
  cases h with
  | yielded above hchain hf =>
    cases hstep hf
    left
    obtain ⟨d, hd, rfl⟩ := driver?_of_whole hwhole (hmem hchain List.mem_cons_self)
    rw [move_step_of_driver p hf hd (not_leave_of_works rfl)]
    exact .given above hchain rfl
  | @given above key hchain hf =>
    cases hstep hf
    left
    obtain ⟨d, hd, rfl⟩ := driver?_of_whole hwhole (hmem hchain List.mem_cons_self)
    rw [move_step_of_driver p hf hd (not_leave_of_works rfl)]
    have hwait : l.wait (callers above) d .turn = { l with deferred := l.deferred ++ [d.home] } := by
      unfold wait
      rw [if_pos (by simp [callers, Poller.wakes])]
    refine .pauses above [] hchain rfl trivial ?_
    show home ∈ (l.wait (callers above) d .turn).deferred
    rw [hwait, ← hhome d (mem_of_driver? hd) (hmem hchain List.mem_cons_self)]
    exact List.mem_append_right _ List.mem_cons_self
  | @pauses above below key hchain hf hrest hdeferred =>
    cases hstep hf
    left
    obtain ⟨d, hd, rfl⟩ := driver?_of_whole hwhole (hmem hchain List.mem_cons_self)
    rw [move_step_of_driver p hf hd (not_leave_of_works rfl)]
    refine .ends above below hchain rfl ?_ hdeferred
    rw [hchain] at hnodup
    exact (atRest_setActivity (List.nodup_append.mp hnodup).2.1 hrest).mono fun _ hd _ => hd
  | ends above below hchain hf hrest hdeferred =>
    cases hstep hf
    rw [move_step_of_leave p hf]
    exact .inl (owing_leave p hchain hrest hdeferred)
  | rests hrest haside hdue =>
    left
    by_cases hpoll : l.focus = .idle ∧ ∃ pollers, (l.move p m).focus = .active pollers home .poll
    · obtain ⟨hidle, pollers, hf⟩ := hpoll
      cases chain with
      | nil => cases hhead
      | cons key below =>
        cases hhead
        refine .sinks [] _ rfl (.comes rfl hf (hrest.mono fun d hd _ => ?_))
        rw [move_of_idle p hidle] at hf hd
        rwa [(focus_outside p hidle hf).2.2.1] at hd
    · have hnot : l.focus = .idle → ∀ pollers, (l.move p m).focus ≠ .active pollers home .poll :=
        fun hidle pollers hf => hpoll ⟨hidle, pollers, hf⟩
      have hroot : ∀ k ∈ [home], k ∈ chain := by
        intro k hk
        rw [List.mem_singleton.mp hk]
        exact List.mem_of_head? hhead
      refine .rests (atRest_of_aside p ho haside hhome hwhole hrest) ?_ ?_
      · exact aside_move p ho m hladdered (housed_move p ho hh m) haside fun hidle pollers hf =>
          absurd hf (hnot hidle pollers)
      · exact due_of_aside p ho hh haside (fun d hd hk => hhome d hd (hk ▸ List.mem_of_head? hhead))
          (fun k hk => hwhole k (hroot k hk)) (fun k hk => hwhole' k (hroot k hk)) hnot hdue
  | @sinks above below hchain n h =>
    have hf : ∃ pollers key doing, l.focus = .active pollers key doing := by
      cases h with
      | comes _ hf _ => exact ⟨_, _, _, hf⟩
      | visits _ hf _ => exact ⟨_, _, _, hf⟩
    obtain ⟨_, _, _, hf⟩ := hf
    cases hstep hf
    have hbelow : below ≠ [] := by
      cases h <;> simp
    rw [hchain] at hnodup
    obtain ⟨_, _, _, ⟨more, below', rfl, h'⟩ | ⟨_, key, hlast, hcall⟩⟩ :=
      sinking_move p (List.nodup_append.mp hnodup).2.1 (fun k hk => hwhole k (hmem hchain hk)) h
    · exact .inl (.sinks (above ++ more) below' (hchain.trans (List.append_assoc ..).symm) h')
    · refine .inr ⟨key, ?_, hcall⟩
      rw [hchain, List.getLast?_append, hlast, Option.some_or]

/-! ## Runs -/

theorem putEvents_of_atCall {d : Driver Co Fu} (ho : Orderly l) (hd : d ∈ l.drivers)
    (hjob : d.job ≠ .plain) (h : AtCall l event d.key) : l.putEvents .step d.key = [.called event] := by
  obtain ⟨pollers, r, hf⟩ := h
  rw [putEvents_of_driver hf (driver?_of_mem ho hd)]
  unfold Doing.putEvents Doing.event? Doing.sink?
  cases hj : d.job with
  | plain => exact absurd hj hjob
  | coroutine co passes kind => rfl

/-- The last driver of a ladder of callers is at home. -/
theorem home_of_callers {above : List DriverKey} (hh : Housed l)
    (hladder : Ladder l home key (callers above)) (hwhole : Whole l (key :: above)) :
    (key :: above).getLast? = some home := by
  induction above generalizing key with
  | nil =>
    cases hladder with
    | floor _ hfloor =>
      obtain ⟨d, hd, rfl⟩ := hwhole key List.mem_cons_self
      obtain ⟨hhome, hroot⟩ := hfloor d hd rfl
      rw [← hhome, hh.root d hd hroot]
      rfl
  | cons owner above ih =>
    cases hladder with
    | floor hp _ => cases hp
    | rung hp _ hbelow =>
      cases hp
      rw [List.getLast?_cons_cons]
      exact ih hbelow fun k hk => hwhole k (List.mem_cons_of_mem _ hk)

/-- Drivers that are there now and whose keys were given out were there before. -/
theorem whole_before (hl : Proper l) (moves : List (Move Co Fu))
    (hle : ∀ k ∈ chain, k.val ≤ l.lastKey) (h : Whole (l.after p moves) chain) : Whole l chain := by
  intro k hk
  obtain ⟨d, hd, rfl⟩ := h k hk
  obtain ⟨d₀, hd₀, hk₀, _⟩ := exists_earlier p hl moves hd (hle _ hk)
  exact ⟨d₀, hd₀, hk₀⟩

/-- **A put is due until the sink is called**, whatever happens, as long as its driver and those that
call it are there. -/
theorem owing_after {first rest : List (Move Co Fu)} (hown : OwnersPollIn p (first ++ rest))
    {d : Driver Co Fu} {s : SchedulerId} {co : Co} {log : List (PutEvent Co)}
    (hlog : putLog p first d.key = .told (.entered s co) :: log)
    (hle : ∀ k ∈ chain, k.val ≤ (after p {} first).lastKey) (hnodup : chain.Nodup)
    (hhome : ∀ x ∈ (after p {} first).drivers, x.key ∈ chain → x.home = home)
    (hhead : chain.head? = some home) (hlast : chain.getLast? = some d.key)
    (hwhole : Whole (after p {} (first ++ rest)) chain)
    (h : Owing (after p {} first) event home chain) :
    Owing (after p {} (first ++ rest)) event home chain ∨
      AtCall (after p {} (first ++ rest)) event d.key ∨
        .called event ∈ putLogFrom p (after p {} first) d.key rest := by
  induction rest using List.reverseRecOn with
  | nil => exact .inl (by rwa [List.append_nil])
  | append_singleton rest m ih =>
    rw [← List.append_assoc] at hown hwhole ⊢
    rw [after_snoc] at hwhole ⊢
    have hown' : OwnersPollIn p (first ++ rest) := fun a ha => hown a (ha.trans (List.prefix_append ..))
    have ho := orderly_after p (first ++ rest)
    have hle' : ∀ k ∈ chain, k.val ≤ (after p {} (first ++ rest)).lastKey := by
      intro k hk
      rw [after_append]
      exact Nat.le_trans (hle k hk) (lastKey_le_after p (orderly_after p first).proper rest)
    have hbefore : Whole (after p {} (first ++ rest)) chain :=
      whole_before p ho.proper [m] hle' hwhole
    have hlogs : putLogFrom p (after p {} first) d.key (rest ++ [m]) = _ :=
      putLogFrom_append p _ d.key rest [m]
    rw [hlogs, List.mem_append]
    rcases ih hown' hbefore with hdue | hcall | hcalled
    · have hladdered : Laddered ((after p {} (first ++ rest)).move p m) := by
        rw [← after_snoc]
        exact (wakeful_after p _ hown).1.laddered
      have hhome' : ∀ x ∈ (after p {} (first ++ rest)).drivers, x.key ∈ chain → x.home = home := by
        intro x hx hk
        rw [after_append] at hx
        obtain ⟨x₀, hx₀, hk₀, _, hxhome, _⟩ :=
          exists_earlier p (orderly_after p first).proper rest hx (hle _ hk)
        rw [← hxhome]
        exact hhome x₀ hx₀ (hk₀ ▸ hk)
      rcases owing_move p ho (housed_after p _) hladdered hnodup hhome' hhead hbefore hwhole hdue with
        hdue | ⟨k, hk, hcall⟩
      · exact .inl hdue
      · cases hlast.symm.trans hk
        exact .inr (.inl hcall)
    · by_cases hm : m = .step
      · subst hm
        obtain ⟨x, hx, hk⟩ := hbefore d.key (List.mem_of_getLast? hlast)
        obtain ⟨more, hmore⟩ : ∃ more, putLog p (first ++ rest) d.key =
            .told (.entered s co) :: more := ⟨_, (putLog_append p first rest d.key).trans (by rw [hlog]; rfl)⟩
        have htold := told_after p (first ++ rest) d.key
        rw [← told_putLog, hmore, ← hk] at htold
        have hevents := putEvents_of_atCall ho hx (coroutine_of_entered p htold hx).1 (hk ▸ hcall)
        rw [hk] at hevents
        refine .inr (.inr (.inr ?_))
        rw [putLogFrom, ← after_append, hevents]
        exact List.mem_append_left _ (List.mem_append_left _ List.mem_cons_self)
      · obtain ⟨pollers, r, hf⟩ := hcall
        rw [move_of_active p hf hm]
        exact .inr (.inl ⟨pollers, r, hf⟩)
    · exact .inr (.inr (.inl hcalled))

/-- A driver whose last event is the yield of a put is about to have it processed. -/
theorem focus_of_yielded {first : List (Move Co Fu)} {d : Driver Co Fu} {co : Co}
    {before : List (PutEvent Co)} (hd : d ∈ (after p {} first).drivers)
    (hserves : ServesPuts p d.task.scheduler)
    (hlog : putLog p first d.key = before ++ [.told (.yielded (.effect (.put event)) co)]) :
    ∃ pollers, (after p {} first).focus =
      .active pollers d.key (.process (.builtin .put) (.put event) {}) := by
  have hposted := posted_after p first d.key
  rcases hposted with ⟨hnil, _⟩ | ⟨s, co', log, hentered, _, hsits⟩
  · rw [hlog] at hnil
    exact absurd hnil (by simp)
  have htold := told_after p first d.key
  rw [← told_putLog, hentered] at htold
  obtain ⟨_, rfl⟩ := coroutine_of_entered p htold hd
  obtain ⟨ph, hgoes, hseat⟩ := hsits hserves
  rw [hlog] at hentered
  cases before with
  | nil => cases hentered
  | cons _ before =>
    cases hentered
    obtain ⟨_, _, hgoes⟩ := hgoes.split
    cases hgoes with
    | cons hn hnil =>
      cases hnil
      cases hn with
      | other h => cases h
      | yielded _ _ =>
        have hseat : (after p {} first).seat d = .working _ := hseat d hd rfl
        unfold seat at hseat
        split at hseat
        · cases hseat
        · rename_i pollers k doing hfocus
          split at hseat
          · rename_i hk
            cases hseat
            rw [hfocus, hk.1]
            exact ⟨pollers, rfl⟩
          · exact absurd hseat (seatIn_ne_working d k pollers _)

/-- The poll that comes to the drivers at rest calls the sink. -/
theorem call_of_rests {moves : List (Move Co Fu)} {m : Move Co Fu}
    (hidle : (after p {} moves).focus = .idle) (hnodup : chain.Nodup) {d : Driver Co Fu}
    {s : SchedulerId} {co : Co} {log : List (PutEvent Co)}
    (hlog : putLog p moves d.key = .told (.entered s co) :: log)
    (hle : d.key.val ≤ (after p {} moves).lastKey)
    (hhead : chain.head? = some home) (hlast : chain.getLast? = some d.key)
    (hwhole : Whole (after p {} moves) chain) (hrest : AtRest (after p {} moves) event chain)
    (hpoll : (after p {} (moves ++ [m])).focus = .active pollers home .poll) :
    ∃ n, putLog p (moves ++ m :: List.replicate n .step) d.key =
      putLog p moves d.key ++ [.called event] := by
  have hproper := (orderly_after p moves).proper
  have hproper' := (orderly_after p (moves ++ [m])).proper
  have hle' : d.key.val ≤ (after p {} (moves ++ [m])).lastKey := by
    rw [after_append]
    exact Nat.le_trans hle (lastKey_le_after p hproper [m])
  have hdrivers : (after p {} (moves ++ [m])).drivers = (after p {} moves).drivers := by
    rw [after_snoc, move_of_idle p hidle] at hpoll ⊢
    exact (focus_outside p hidle hpoll).2.2.1
  have hwhole' : Whole (after p {} (moves ++ [m])) chain := fun k hk => hdrivers ▸ hwhole k hk
  obtain ⟨n, hsinks⟩ : ∃ n, Sinking (after p {} (moves ++ [m])) event n chain := by
    cases chain with
    | nil => cases hhead
    | cons k below =>
      cases hhead
      exact ⟨_, .comes rfl hpoll (hrest.mono fun x hx _ => hdrivers ▸ hx)⟩
  obtain ⟨hcall, ⟨x, hx, hk⟩, hsilent⟩ := sinking_ends p hproper' hnodup hwhole' hsinks hlast hle'
  have ho := orderly_after p (moves ++ [m] ++ List.replicate n .step)
  rw [after_append] at ho
  obtain ⟨more, hmore⟩ : ∃ more, putLog p (moves ++ [m] ++ List.replicate n .step) d.key =
      .told (.entered s co) :: more := by
    rw [List.append_assoc, putLog_append, hlog]
    exact ⟨_, rfl⟩
  have htold := told_after p (moves ++ [m] ++ List.replicate n .step) d.key
  rw [← told_putLog, hmore, after_append, ← hk] at htold
  have hevents := putEvents_of_atCall ho hx (coroutine_of_entered p htold hx).1 (hk ▸ hcall)
  refine ⟨n + 1, ?_⟩
  have hsplit : moves ++ m :: List.replicate (n + 1) .step =
      moves ++ [m] ++ List.replicate n .step ++ [.step] := by
    rw [List.replicate_succ', List.append_assoc, List.append_assoc]
    rfl
  have hnone : (after p {} moves).putEvents m d.key = [] :=
    putEvents_of_not_acting fun _ _ _ hf => by rw [hidle] at hf; cases hf
  rw [hsplit, putLog_append, putLog_append, putLog_snoc, hsilent, hnone, eventsOf_newcomers_old hle,
    putLogFrom, putLogFrom, after_append, ← hk, hevents, eventsOf_newcomers_old]
  · simp
  · exact (ho.proper x hx).1

variable {p} in
theorem Owing.rests_of_idle (h : Owing l event home chain) (hidle : l.focus = .idle) :
    AtRest l event chain ∧ (home ∈ l.deferred ∨ home ∈ l.queue) := by
  have hnot : ∀ {pollers key doing}, l.focus ≠ .active pollers key doing := by
    intro pollers key doing hf
    rw [hidle] at hf
    cases hf
  cases h with
  | yielded _ _ hf => exact absurd hf hnot
  | given _ _ hf => exact absurd hf hnot
  | pauses _ _ _ hf _ _ => exact absurd hf hnot
  | ends _ _ _ hf _ _ => exact absurd hf hnot
  | rests hrest _ hdue => exact ⟨hrest, hdue⟩
  | sinks _ _ _ h =>
    cases h with
    | comes _ hf _ => exact absurd hf hnot
    | visits _ hf _ => exact absurd hf hnot

@[simp] theorem keys_callers (above : List DriverKey) :
    (callers above : List (Poller Co Fu)).filterMap Poller.key? = above := by
  induction above with
  | nil => rfl
  | cons key above ih => exact congrArg (key :: ·) ih

/-- The log of a coroutine begins with its becoming a task, in every part of the run in which anything
has happened to it. -/
theorem entered_of_prefix {first : List (Move Co Fu)} (rest : List (Move Co Fu)) {s : SchedulerId} {co : Co}
    {told : List (TaskEvent Co)} (hentered : history p (first ++ rest) key = .entered s co :: told)
    (hne : putLog p first key ≠ []) : ∃ log, putLog p first key = .told (.entered s co) :: log := by
  rcases posted_after p first key with ⟨hnil, _⟩ | ⟨s', co', log, hlog, _⟩
  · exact absurd hnil hne
  · rw [← told_putLog, putLog_append, hlog] at hentered
    cases hentered
    exact ⟨log, hlog⟩

/-- **A put that is due is not lost**: as long as its driver and those that call it are there, their home
is deferred or queued between polls, and the poll of it calls the sink. -/
theorem due_until_called {first rest : List (Move Co Fu)} (hown : OwnersPollIn p (first ++ rest))
    {d : Driver Co Fu} {s : SchedulerId} {co : Co} {log : List (PutEvent Co)} {above : List DriverKey}
    (hd : d ∈ (after p {} first).drivers)
    (hlog : putLog p first d.key = .told (.entered s co) :: log)
    (hf : (after p {} first).focus =
      .active (callers above) d.key (.process (.builtin .put) (.put event) {}))
    (hcall : .called event ∉ putLogFrom p (after p {} first) d.key rest)
    (hwhole : Whole (after p {} (first ++ rest)) (d.key :: above))
    (hidle : (after p {} (first ++ rest)).focus = .idle) :
    (d.home ∈ (after p {} (first ++ rest)).deferred ∨ d.home ∈ (after p {} (first ++ rest)).queue) ∧
    ∀ m pollers, (after p {} (first ++ rest ++ [m])).focus = .active pollers d.home .poll →
      ∃ n, putLog p (first ++ rest ++ m :: List.replicate n .step) d.key =
        putLog p (first ++ rest) d.key ++ [.called event] := by
  have ho := orderly_after p first
  have hheld : (after p {} first).held = d.key :: above := by
    rw [held_of_works hf rfl, keys_callers]
  have hle : ∀ k ∈ (d.key :: above).reverse, k.val ≤ (after p {} first).lastKey := fun k hk =>
    ho.bounded k (hheld ▸ List.mem_reverse.mp hk)
  have hnodup : (d.key :: above).reverse.Nodup := List.nodup_reverse.mpr (hheld ▸ ho.distinct)
  have hlast : (d.key :: above).reverse.getLast? = some d.key := by
    rw [List.getLast?_reverse]
    rfl
  have hwhole' : Whole (after p {} (first ++ rest)) (d.key :: above).reverse := fun k hk =>
    hwhole k (List.mem_reverse.mp hk)
  -- the driver and its callers live in one home
  have hown' : OwnersPollIn p first := fun a ha => hown a (ha.trans (List.prefix_append ..))
  obtain ⟨home, hladder⟩ := (wakeful_after p first hown').1.laddered _ _ _ hf
  have hhomes : ∀ x ∈ (after p {} first).drivers, x.key ∈ (d.key :: above).reverse → x.home = home := by
    intro x hx hk
    refine hladder.home_eq hx ?_
    rw [keys_callers]
    exact List.mem_cons.mp (List.mem_reverse.mp hk)
  have hhome := hhomes d hd (List.mem_reverse.mpr List.mem_cons_self)
  have hbefore : Whole (after p {} first) (d.key :: above) := by
    rw [after_append] at hwhole
    exact whole_before p ho.proper rest (fun k hk => hle k (List.mem_reverse.mpr hk)) hwhole
  have hhead : (d.key :: above).reverse.head? = some home := by
    rw [List.head?_reverse]
    exact home_of_callers (housed_after p first) hladder hbefore
  subst hhome
  have hstart : Owing (after p {} first) event d.home (d.key :: above).reverse :=
    .yielded above List.reverse_cons hf
  rcases owing_after p hown hlog hle hnodup hhomes hhead hlast hwhole' hstart with
    hdue | ⟨_, _, hf'⟩ | hcalled
  · obtain ⟨hrest, hdue⟩ := hdue.rests_of_idle hidle
    refine ⟨hdue, fun m pollers hpoll => ?_⟩
    have hlog' : putLog p (first ++ rest) d.key = .told (.entered s co) ::
        (log ++ putLogFrom p (after p {} first) d.key rest) := by
      rw [putLog_append, hlog]
      rfl
    refine call_of_rests p hidle hnodup hlog' ?_ hhead hlast hwhole' hrest hpoll
    rw [after_append]
    exact Nat.le_trans (ho.proper d hd).1 (lastKey_le_after p ho.proper rest)
  · rw [hidle] at hf'
    cases hf'
  · exact absurd hcalled hcall

/-! ## Delivery -/

/-- What becomes of the puts of the driver `key`, whose coroutine became a task of the scheduler `s`. -/
structure DeliversPuts (moves : List (Move Co Fu)) (key : DriverKey) (s : SchedulerId) : Prop where
  /-- After the yield of a put its processor is given the effect, the sink is called with the event and
  returns, the effect is resolved with what the sink has returned, and the coroutine is resumed with
  that; and nothing else happens to the coroutine or at its sink in between. -/
  once : ∀ before event co more,
    putLog p moves key = before ++ .told (.yielded (.effect (.put event)) co) :: more →
    more <+: [.told (.given (.builtin .put) (.put event)), .called event] ∨
    ∃ v, (sinkOf p s event).Ends v ∧ (more <+: PutPhase.round event v ∨
      ∃ co' rest, more = PutPhase.round event v ++ .told (.resumed co' (.ok (.value v))) :: rest)
  /-- The sink is called with the events in the order of the yields, the last may be due. -/
  ordered : ∃ late : List Json, late.length ≤ 1 ∧
    (putLog p moves key).filterMap PutEvent.yielded? =
      (putLog p moves key).filterMap PutEvent.called? ++ late
  /-- Between the yield of a put and the call of the sink the deferred homes are queued, when no poll is
  under way and no task is left in the queue; and each task that was queued at some moment since the
  yield was polled after that, unless it was dropped or its last poll was under way at that moment. -/
  turn : OwnersPollIn p moves → Patient p {} moves →
    ∀ first rest before event co d, moves = first ++ rest → d ∈ (after p {} first).drivers →
    d.key = key → ThroughCalls (after p {} first) →
    putLog p first key = before ++ [.told (.yielded (.effect (.put event)) co)] →
    .called event ∈ putLogFrom p (after p {} first) key rest →
    ∃ middle later, rest = middle ++ .flush :: later ∧
      (putLogFrom p (after p {} first) key middle).filterMap PutEvent.called? = [] ∧
      (after p {} (first ++ middle)).focus = .idle ∧ Drained (after p {} (first ++ middle)) ∧
      ∀ some more, middle = some ++ more → ∀ t ∈ (after p {} (first ++ some)).drivers,
        t.owner = .loop → t.key ∈ (after p {} (first ++ some)).queue →
        PolledIn p (after p {} (first ++ some)) more t.key ∨
        DroppedIn p (after p {} (first ++ some)) more t.key ∨
        (¬ Aside (after p {} (first ++ some)) t.key ∧
          ∀ t' ∈ (after p {} (first ++ middle)).drivers, t'.key ≠ t.key)
  /-- Until the sink is called, and as long as the driver and those that call it are there, its home is
  deferred or queued whenever no poll is under way; and the poll of the home calls the sink. Nothing
  about the task of the driver matters for that. -/
  kept : OwnersPollIn p moves →
    ∀ first rest before event co d, moves = first ++ rest → d ∈ (after p {} first).drivers →
    d.key = key → ThroughCalls (after p {} first) →
    putLog p first key = before ++ [.told (.yielded (.effect (.put event)) co)] →
    .called event ∉ putLogFrom p (after p {} first) key rest →
    Whole (after p {} moves) (after p {} first).parties → (after p {} moves).focus = .idle →
    (d.home ∈ (after p {} moves).deferred ∨ d.home ∈ (after p {} moves).queue) ∧
    ∀ m pollers, (after p {} (moves ++ [m])).focus = .active pollers d.home .poll →
      ∃ n, putLog p (moves ++ m :: List.replicate n .step) key =
        putLog p moves key ++ [.called event]

end

/-- Coroutine 1 calls a target, which gives coroutine 2, which puts an event. -/
def callsPut : Program Nat Unit where
  scheduler := fun _ => { sink := ⟨"sink"⟩ }
  resume := fun co _ => co
  advance := fun co =>
    if co = 1 then .ret (.yield (.effect (.call ⟨"target", .coroutine, ⟨"put", []⟩⟩ [])) 0)
    else if co = 2 then .ret (.yield (.effect (.put (.bool true))) 0)
    else .ret (.done (.ok .null) 0)
  work := fun _ => .ret (.done (.ok (.value .null)))
  invoke := fun _ _ => .ret (.coroutine 2)
  process := fun _ _ _ => ()
  dispatch := fun _ _ => .ret (.bool false)

/-- The caller is polled until the coroutine that it has called yields. -/
def toPut : List (Move Nat Unit) :=
  [.act (.start ⟨0⟩ "caller" 1 fun _ => .ret ()), .act (.start ⟨0⟩ "other" 0 fun _ => .ret ()),
    .poll ⟨1⟩] ++ List.replicate 9 .step

/-- That task is ended early, the other one is polled, and then the caller again. -/
def putToCall : List (Move Nat Unit) :=
  List.replicate 6 .step ++ [.act (.ask (.terminate ⟨0⟩ ⟨3⟩) fun _ => .ret ()), .poll ⟨2⟩] ++
    List.replicate 5 .step ++ [.flush, .poll ⟨1⟩] ++ List.replicate 5 .step

end EventLoop

end EffectLoop
