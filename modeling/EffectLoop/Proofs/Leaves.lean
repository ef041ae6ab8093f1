import EffectLoop.Proofs.Waking

/-!
# What drivers wait for

Between polls a driver rests at the waits in its computation. During a poll those that it has still to
visit lie ahead of it and those that it has visited lie behind it; where it polls a nested driver, that
is so while it waits for the nested one as well. `Sorts` says what a step makes of all these: what is
ahead is visited, and put behind only if there is still something to wait for, and what is behind when
the poll ends is what the driver rests at (`sorts_stepDriver`).
-/

namespace EffectLoop

variable {Co Fu : Type}

/-- The ways from the place where a poll is in a computation. -/
inductive Way
  | ahead
  | behind

/-- The waits of a computation at rest. -/
def Branch.waits : Branch Fu → List Wait
  | .unbegun _ | .finished _ => []
  | .waiting w _ => [w]
  | .both left right _ _ => left.waits ++ right.waits

/-- The waits beside the polled branch of a fork: the left branch is polled first. -/
def Fork.waits : Way → Fork Fu → List Wait
  | .ahead, .left other _ _ => other.waits
  | .behind, .right other _ _ => other.waits
  | _, _ => []

/-- The waits beside a place. -/
def waitsBeside (way : Way) (forks : List (Fork Fu)) : List Wait := forks.flatMap (Fork.waits way)

/-- The waits a driver rests at. -/
def Driver.rest (d : Driver Co Fu) : List Wait :=
  match d.activity with
  | .pending branch => branch.waits
  | _ => []

namespace Doing

/-- The forks around the place where the driver works. -/
def forks : Doing Co Fu → List (Fork Fu)
  | .visit _ forks | .pause _ forks => forks
  | .work _ spot | .process _ _ spot | .invoke _ _ _ spot | .dispatch _ spot | .await _ spot
  | .answer _ spot => spot.forks
  | _ => []

/-- The waits of the branch that the driver takes up or puts down. -/
def waitsHere : Way → Doing Co Fu → List Wait
  | .ahead, .visit branch _ => branch.waits
  | .behind, .pause branch _ => branch.waits
  | _, _ => []

def waits (way : Way) (doing : Doing Co Fu) : List Wait :=
  doing.waitsHere way ++ waitsBeside way doing.forks

/-- The driver takes up or puts down a branch. -/
def shifts : Doing Co Fu → Bool
  | .visit _ _ | .pause _ _ => true
  | _ => false

theorem waits_of_not_works (doing : Doing Co Fu) (h : doing.works = false) (way : Way) :
    doing.waits way = [] := by
  cases doing with
  | poll => cases way <;> rfl
  | leave outcome => cases way <;> rfl
  | _ => cases h

theorem waits_of_not_shifts {doing : Doing Co Fu} (h : doing.shifts = false) (way : Way) :
    doing.waits way = waitsBeside way doing.forks := by
  cases doing with
  | visit branch forks => cases h
  | pause branch forks => cases h
  | _ => cases way <;> rfl

end Doing

/-- The waits of a driver that waits for a nested one. -/
def Poller.waits (way : Way) (key : DriverKey) : Poller Co Fu → List Wait
  | .waiting k spot => if k = key then waitsBeside way spot.forks else []
  | _ => []

namespace EventLoop

/-- The waits of the driver `key` on one way from the place where the poll is in its computation. -/
def leaves (l : EventLoop Co Fu) (way : Way) (key : DriverKey) : List Wait :=
  match l.focus with
  | .idle => []
  | .active pollers k doing =>
    (if k = key then doing.waits way else []) ++ pollers.flatMap (Poller.waits way key)

variable {l l' : EventLoop Co Fu} {pollers : List (Poller Co Fu)} {key : DriverKey} {way : Way}

/-! ## The leaves during a poll -/

theorem leaves_of_idle (h : l.focus = .idle) (way : Way) (key : DriverKey) :
    l.leaves way key = [] := by
  simp only [leaves, h]

theorem leaves_of_active {doing : Doing Co Fu} (h : l.focus = .active pollers key doing)
    (way : Way) :
    l.leaves way key = doing.waits way ++ pollers.flatMap (Poller.waits way key) := by
  simp only [leaves, h, if_true]

theorem leaves_of_ne {k : DriverKey} {doing : Doing Co Fu} (h : l.focus = .active pollers k doing)
    (hne : k ≠ key) (way : Way) :
    l.leaves way key = pollers.flatMap (Poller.waits way key) := by
  simp only [leaves, h, hne, if_false, List.nil_append]

theorem Poller.waits_of_ne {poller : Poller Co Fu} (h : poller.key? ≠ some key) (way : Way) :
    poller.waits way key = [] := by
  cases poller with
  | waiting k spot => exact if_neg fun he => h (congrArg some he)
  | _ => rfl

theorem flatMap_waits_of_not_mem (h : key ∉ pollers.filterMap Poller.key?) (way : Way) :
    pollers.flatMap (Poller.waits way key) = [] := by
  rw [List.flatMap_eq_nil_iff]
  intro poller hpoller
  refine Poller.waits_of_ne (fun he => h ?_) way
  exact List.mem_filterMap.mpr ⟨poller, hpoller, he⟩

/-- A driver that no poll holds has nothing on either side. -/
theorem leaves_of_not_held (h : key ∉ l.held) (way : Way) : l.leaves way key = [] := by
  cases hfocus : l.focus with
  | idle => exact leaves_of_idle hfocus way key
  | active pollers k doing =>
    cases hw : doing.works with
    | true =>
      rw [held_of_works hfocus hw, List.mem_cons, not_or] at h
      rw [leaves_of_ne hfocus (Ne.symm h.1)]
      exact flatMap_waits_of_not_mem h.2 way
    | false =>
      rw [held_of_not_works hfocus hw] at h
      simp only [leaves, hfocus, doing.waits_of_not_works hw, ite_self, List.nil_append]
      exact flatMap_waits_of_not_mem h way

/-- A step leaves the leaves of all other drivers, unless the poll breaks off. -/
theorem NextFocus.leaves_eq {k : DriverKey} {doing : Doing Co Fu}
    (h : NextFocus pollers k l'.focus) (hfocus : l.focus = .active pollers k doing)
    (hne : k ≠ key) (hactive : l'.focus ≠ .idle) (way : Way) :
    l'.leaves way key = l.leaves way key := by
  rw [leaves_of_ne hfocus hne]
  cases hf : l'.focus with
  | idle => exact absurd hf hactive
  | active ps k' doing' =>
    rw [hf] at h
    cases h with
    | on doing' => exact leaves_of_ne hf hne way
    | @nested poller hpoller k' =>
      simp only [leaves, hf, Doing.waits_of_not_works .poll rfl, ite_self,
        List.nil_append, List.flatMap_cons]
      rw [Poller.waits_of_ne (by rw [hpoller]; exact fun he => hne (Option.some.inj he)),
        List.nil_append]

/-- The end of a nested poll leaves all leaves where they are, and the nested driver is left behind if
it is not over. -/
theorem mem_leaves_leave (p : Program Co Fu) {k : DriverKey} {doing : Doing Co Fu}
    (hfocus : l.focus = .active pollers k doing) (hnone : k = key → doing.waits way = [])
    (hlast : ∀ rest, pollers = .hand :: rest → rest.filterMap Poller.key? = [])
    (outcome : Option Outcome) (w : Wait) :
    w ∈ (l.leave p k outcome pollers).leaves way key ↔ w ∈ l.leaves way key ∨
      (way = .behind ∧ outcome = none ∧ w = .nested k ∧
        ∃ spot rest, pollers = .waiting key spot :: rest) := by
  have hold : l.leaves way key = pollers.flatMap (Poller.waits way key) := by
    by_cases hk : k = key
    · subst hk
      rw [leaves_of_active hfocus, hnone rfl, List.nil_append]
    · exact leaves_of_ne hfocus hk way
  rw [hold]
  cases pollers with
  | nil => simp [EventLoop.leave, leaves]
  | cons poller rest =>
    cases poller with
    | hand =>
      have hrest : rest.flatMap (Poller.waits way key) = [] :=
        flatMap_waits_of_not_mem (by rw [hlast rest rfl]; exact List.not_mem_nil) way
      simp [EventLoop.leave, leaves, Poller.waits, hrest]
    | body owner f =>
      have hwaits : ∀ a : Act Co Fu (Progress Co), (Doing.advance a).waits way = [] := fun a => by
        cases way <;> rfl
      simp [EventLoop.leave, leaves, focusOn, Poller.waits, hwaits]
    | waiting owner spot =>
      cases outcome with
      | some o =>
        have hwaits : (Doing.answer (o.map .value) spot : Doing Co Fu).waits way =
            waitsBeside way spot.forks := by cases way <;> rfl
        simp [EventLoop.leave, leaves, focusOn, Poller.waits, hwaits]
      | none =>
        simp only [EventLoop.leave, leaves, focusOn, Poller.waits, List.flatMap_cons]
        by_cases ho : owner = key
        · subst ho
          cases way <;> simp [Doing.waits, Doing.waitsHere, Doing.forks, Branch.waits, or_comm,
            or_left_comm]
        · simp [ho]

/-! ## What a step makes of the leaves -/

/-- How a step of `d` leaves `d`: held by the poll, gone, or at rest; or the poll ends as it began. -/
inductive LeavesOff (l : EventLoop Co Fu) (pollers : List (Poller Co Fu)) (d : Driver Co Fu)
    (l' : EventLoop Co Fu) : Prop
  | held (h : d.key ∈ l'.held)
  | gone (h : ∀ d' ∈ l'.drivers, d'.key ≠ d.key)
  | rests (branch : Branch Fu) (h : l.focus = .active pollers d.key (.pause branch []))
      (hl : l' = (l.setActivity d.key (.pending branch)).focusOn pollers d.key (.leave none))
  | ends (hrest : d.rest = []) (h : l.focus = .active pollers d.key .poll ∨ d.job = .plain)
      (hl : l' = l.focusOn pollers d.key (.leave none))

theorem LeavesOff.of_works {d : Driver Co Fu} {doing : Doing Co Fu}
    (hf : l'.focus = .active pollers d.key doing) (hw : doing.works = true) :
    LeavesOff l pollers d l' := by
  refine .held ?_
  rw [held_of_works hf hw]
  exact List.mem_cons_self

/-- What a step of `d` makes of the waits of `d`. -/
structure Sorts (l : EventLoop Co Fu) (pollers : List (Poller Co Fu)) (d : Driver Co Fu)
    (l' : EventLoop Co Fu) : Prop where
  ahead : ∀ w ∈ l'.leaves .ahead d.key, w ∈ l.leaves .ahead d.key ∨ w ∈ d.rest
  /-- A task is left behind only while it has no outcome, and a wait that is new is noted. -/
  behind : ∀ t, .task t ∈ l'.leaves .behind d.key → .task t ∈ l.leaves .behind d.key ∨
    l'.outcome? t = none ∧ (.task t ∈ l.leaves .ahead d.key ∨
      (pollers.all Poller.wakes = true → (.task t, d.home) ∈ l'.waiting))
  /-- A nested driver that is ahead is still ahead, unless it is its turn or there is a panic. -/
  nestedAhead : ∀ k, .nested k ∈ l.leaves .ahead d.key ∨ .nested k ∈ d.rest →
    .nested k ∈ l'.leaves .ahead d.key ∨ (∃ ps, l'.focus = .active ps k .poll) ∨
      l'.focus = .active pollers d.key .crash
  /-- A nested driver that is behind stays there until `d` rests at it. -/
  nestedBehind : ∀ k, .nested k ∈ l.leaves .behind d.key →
    .nested k ∈ l'.leaves .behind d.key ∨
      (∀ d' ∈ l'.drivers, d'.key = d.key → .nested k ∈ d'.rest) ∨
      l'.focus = .active pollers d.key .crash
  leavesOff : LeavesOff l pollers d l'
  active : l'.focus ≠ .idle

namespace Sorts

variable {d : Driver Co Fu} {doing doing' : Doing Co Fu}

/-- The step goes on from one place in the computation to another. -/
theorem on (hfocus : l.focus = .active pollers d.key doing) (doing' : Doing Co Fu)
    (hf : l'.focus = .active pollers d.key doing')
    (ha : ∀ w ∈ doing'.waits .ahead, w ∈ doing.waits .ahead ∨ w ∈ d.rest)
    (hb : ∀ t, .task t ∈ doing'.waits .behind → .task t ∈ doing.waits .behind ∨
      l'.outcome? t = none ∧ (.task t ∈ doing.waits .ahead ∨
        (pollers.all Poller.wakes = true → (.task t, d.home) ∈ l'.waiting)))
    (hna : ∀ k, .nested k ∈ doing.waits .ahead ∨ .nested k ∈ d.rest →
      .nested k ∈ doing'.waits .ahead ∨ doing' = .crash)
    (hnb : ∀ k, .nested k ∈ doing.waits .behind → .nested k ∈ doing'.waits .behind ∨
      (∀ d' ∈ l'.drivers, d'.key = d.key → .nested k ∈ d'.rest) ∨ doing' = .crash)
    (hoff : LeavesOff l pollers d l') : Sorts l pollers d l' := by
  have hold := fun way => leaves_of_active hfocus way
  have hnew := fun way => leaves_of_active hf way
  constructor
  case ahead =>
    intro w hw
    rw [hold, List.mem_append]
    rcases List.mem_append.mp (hnew _ ▸ hw) with hw | hw
    · exact (ha w hw).imp_left .inl
    · exact .inl (.inr hw)
  case behind =>
    intro t ht
    rw [hold, hold, List.mem_append, List.mem_append]
    rcases List.mem_append.mp (hnew _ ▸ ht) with ht | ht
    · exact (hb t ht).imp .inl (And.imp_right (.imp_left .inl))
    · exact .inl (.inr ht)
  case nestedAhead =>
    intro k hk
    rw [hnew, List.mem_append]
    have hcrash : doing' = .crash → l'.focus = .active pollers d.key .crash := fun he => he ▸ hf
    rcases hk with hk | hk
    · rcases List.mem_append.mp (hold _ ▸ hk) with hk | hk
      · exact (hna k (.inl hk)).imp .inl fun he => .inr (hcrash he)
      · exact .inl (.inr hk)
    · exact (hna k (.inr hk)).imp .inl fun he => .inr (hcrash he)
  case nestedBehind =>
    intro k hk
    rw [hnew, List.mem_append]
    rcases List.mem_append.mp (hold _ ▸ hk) with hk | hk
    · rcases hnb k hk with hk | hk | he
      · exact .inl (.inl hk)
      · exact .inr (.inl hk)
      · exact .inr (.inr (he ▸ hf))
    · exact .inl (.inr hk)
  case leavesOff => exact hoff
  case active =>
    rw [hf]
    exact nofun

/-- The step leaves the waits where they are. -/
theorem same (hfocus : l.focus = .active pollers d.key doing) (doing' : Doing Co Fu)
    (hf : l'.focus = .active pollers d.key doing') (hw : doing'.works = true) (hrest : d.rest = [])
    (h : ∀ way w, w ∈ doing'.waits way ↔ w ∈ doing.waits way) : Sorts l pollers d l' := by
  refine .on hfocus _ hf ?_ ?_ ?_ ?_ (.of_works hf hw)
  · exact fun w hw => .inl ((h .ahead w).mp hw)
  · exact fun t ht => .inl ((h .behind _).mp ht)
  · rintro k (hk | hk)
    · exact .inl ((h .ahead _).mpr hk)
    · rw [hrest] at hk
      cases hk
  · exact fun k hk => .inl ((h .behind _).mpr hk)

/-- The driver panics. -/
theorem panic (hfocus : l.focus = .active pollers d.key doing)
    (hf : l'.focus = .active pollers d.key .crash) : Sorts l pollers d l' := by
  refine .on hfocus _ hf ?_ ?_ ?_ ?_ (.of_works hf rfl)
  · exact fun w hw => nomatch hw
  · exact fun t ht => nomatch ht
  · exact fun k _ => .inr rfl
  · exact fun k _ => .inr (.inr rfl)

/-- The driver polls a nested one. -/
theorem down (hfocus : l.focus = .active pollers d.key doing) (hrest : d.rest = []) (k : DriverKey)
    (poller : Poller Co Fu) (hp : poller.key? = some d.key)
    (ha : ∀ w ∈ poller.waits .ahead d.key, w ∈ doing.waits .ahead)
    (ha' : ∀ w ∈ doing.waits .ahead, w = .nested k ∨ w ∈ poller.waits .ahead d.key)
    (hb : ∀ w, w ∈ doing.waits .behind ↔ w ∈ poller.waits .behind d.key) :
    Sorts l pollers d (l.focusOn (poller :: pollers) k .poll) := by
  have hold := fun way => leaves_of_active hfocus way
  have hnew : ∀ way, (l.focusOn (poller :: pollers) k .poll).leaves way d.key =
      poller.waits way d.key ++ pollers.flatMap (Poller.waits way d.key) := by
    intro way
    simp only [leaves, focusOn, Doing.waits_of_not_works .poll rfl, ite_self,
      List.nil_append, List.flatMap_cons]
  constructor
  case ahead =>
    intro w hw
    rw [hold, List.mem_append]
    exact .inl ((List.mem_append.mp (hnew _ ▸ hw)).imp_left (ha w))
  case behind =>
    intro t ht
    rw [hold, List.mem_append]
    exact .inl ((List.mem_append.mp (hnew _ ▸ ht)).imp_left (hb _).mpr)
  case nestedAhead =>
    rintro k' (hk | hk)
    · rw [hnew, List.mem_append]
      rcases List.mem_append.mp (hold _ ▸ hk) with hk | hk
      · rcases ha' _ hk with he | hk
        · cases he
          exact .inr (.inl ⟨_, rfl⟩)
        · exact .inl (.inl hk)
      · exact .inl (.inr hk)
    · rw [hrest] at hk
      cases hk
  case nestedBehind =>
    intro k' hk
    rw [hnew, List.mem_append]
    exact .inl ((List.mem_append.mp (hold _ ▸ hk)).imp_left (hb _).mp)
  case leavesOff =>
    refine .held ?_
    rw [held_of_not_works rfl rfl, List.filterMap_cons_some hp]
    exact List.mem_cons_self
  case active => exact nofun

end Sorts

/-- A wait for a task is noted, if nobody polls from inside a coroutine body. -/
theorem mem_waiting_wait {d : Driver Co Fu} {t : TaskHandle} (h : pollers.all Poller.wakes = true) :
    (.task t, d.home) ∈ (l.wait pollers d (.task t)).waiting := by
  unfold wait
  rw [if_pos h]
  exact List.mem_append_right _ (List.mem_singleton.mpr rfl)

theorem outcome?_wait (d : Driver Co Fu) (w : Wait) (t : TaskHandle) :
    (l.wait pollers d w).outcome? t = l.outcome? t := by
  unfold wait
  split
  · split <;> rfl
  · rfl

section

variable {d : Driver Co Fu} {doing doing' : Doing Co Fu}
  (hfocus : l.focus = .active pollers d.key doing)
include hfocus

/-- From one place in user code or a processor to the next the forks around stay. -/
theorem Sorts.at_place (hrest : d.rest = []) (hf : l'.focus = .active pollers d.key doing')
    (hw : doing'.works = true) (h : doing.shifts = false) (h' : doing'.shifts = false)
    (hforks : doing'.forks = doing.forks) : Sorts l pollers d l' := by
  refine .same hfocus _ hf hw hrest fun way w => ?_
  rw [Doing.waits_of_not_shifts h, Doing.waits_of_not_shifts h', hforks]

/-- A poll that ends at once, of a driver that is at work already or has no coroutine. -/
theorem Sorts.ends (hrest : d.rest = []) (h : ∀ way, doing.waits way = [])
    (hd : doing = .poll ∨ d.job = .plain) :
    Sorts l pollers d (l.focusOn pollers d.key (.leave none)) := by
  refine .on hfocus _ rfl (fun w hw => nomatch hw) (fun t ht => nomatch ht) ?_ ?_ ?_
  · rintro k (hk | hk)
    · rw [h] at hk
      cases hk
    · rw [hrest] at hk
      cases hk
  · intro k hk
    rw [h] at hk
    cases hk
  · refine .ends hrest ?_ rfl
    rcases hd with rfl | hjob
    · exact .inl hfocus
    · exact .inr hjob

variable (p : Program Co Fu)

theorem sorts_poll (hpoll : doing = .poll) : Sorts l pollers d (l.stepDriver p pollers d .poll) := by
  subst hpoll
  unfold stepDriver
  cases hactivity : d.activity with
  | fresh =>
    have hrest : d.rest = [] := by
      unfold Driver.rest
      rw [hactivity]
    exact .at_place hfocus hrest rfl rfl rfl rfl rfl
  | busy =>
    have hrest : d.rest = [] := by
      unfold Driver.rest
      rw [hactivity]
    exact .ends hfocus hrest (fun way => by cases way <;> rfl) (.inl rfl)
  | pending branch =>
    have hrest : d.rest = branch.waits := by
      unfold Driver.rest
      rw [hactivity]
    have hahead : (Doing.visit branch [] : Doing Co Fu).waits .ahead = branch.waits :=
      List.append_nil _
    refine .on hfocus (.visit branch []) rfl ?_ (fun t ht => nomatch ht) ?_
      (fun k hk => nomatch hk) (.of_works rfl rfl)
    · intro w hw
      rw [hrest]
      exact .inr (hahead ▸ hw)
    · rintro k (hk | hk)
      · cases hk
      · rw [hrest] at hk
        exact .inl (hahead ▸ hk)

theorem sorts_stepYield (hrest : d.rest = []) (h : doing.shifts = false)
    (hforks : doing.forks = []) (passes : Nat) (kind : EffectKind) (co : Co) (y : Yielded) :
    Sorts l pollers d (l.stepYield p pollers d passes kind co y) := by
  have hplace : ∀ {l' : EventLoop Co Fu} {doing' : Doing Co Fu},
      l'.focus = .active pollers d.key doing' → doing'.works = true →
      doing'.shifts = false → doing'.forks = [] → Sorts l pollers d l' :=
    fun hf hw h' hforks' => .at_place hfocus hrest hf hw h h' (hforks'.trans hforks.symm)
  unfold stepYield
  cases y with
  | pass o =>
    dsimp only
    split
    · split <;> exact hplace rfl rfl rfl rfl
    · exact hplace rfl rfl rfl rfl
  | effect e =>
    dsimp only
    split <;> exact hplace rfl rfl rfl rfl

theorem sorts_advance (hrest : d.rest = []) {a : Act Co Fu (Progress Co)} (h : doing = .advance a) :
    Sorts l pollers d (l.stepDriver p pollers d (.advance a)) := by
  subst h
  have hplace : ∀ {l' : EventLoop Co Fu} {doing' : Doing Co Fu},
      l'.focus = .active pollers d.key doing' → doing'.works = true →
      doing'.shifts = false → doing'.forks = [] → Sorts l pollers d l' :=
    fun hf hw h' hforks => .at_place hfocus hrest hf hw rfl h' hforks
  cases a with
  | ret progress =>
    cases progress with
    | more co => exact hplace rfl rfl rfl rfl
    | poll key k =>
      refine .down hfocus hrest key (.body d.key k) rfl (fun w hw => nomatch hw)
        (fun w hw => nomatch hw) fun w => ?_
      exact ⟨nofun, nofun⟩
    | yield y co =>
      unfold stepDriver
      dsimp only
      split
      · exact sorts_stepYield hfocus p hrest rfl rfl _ _ co y
      · rename_i hjob
        exact .ends hfocus hrest (fun way => by cases way <;> rfl) (.inr hjob)
    | done outcome co => exact hplace rfl rfl rfl rfl
  | panic => exact .panic hfocus rfl
  | _ =>
    rw [stepDriver_advance p l pollers d rfl]
    exact hplace rfl rfl rfl rfl

theorem sorts_visit (hrest : d.rest = []) {branch : Branch Fu} {forks : List (Fork Fu)}
    (h : doing = .visit branch forks) :
    Sorts l pollers d (l.stepDriver p pollers d (.visit branch forks)) := by
  subst h
  cases branch with
  | unbegun fu =>
    exact .same hfocus (.work (p.work fu) { forks }) rfl rfl hrest fun way w => by
      cases way <;> rfl
  | finished r =>
    exact .same hfocus (.answer r { forks }) rfl rfl hrest fun way w => by
      cases way <;> rfl
  | both left right k frames =>
    refine .same hfocus (.visit left (.left right k frames :: forks)) rfl rfl hrest ?_
    intro way w
    cases way <;> simp [Doing.waits, Doing.waitsHere, Doing.forks, waitsBeside, Fork.waits,
      Branch.waits]
  | waiting w frames =>
    have hahead : ∀ w', w' ∈ (Doing.visit (.waiting w frames) forks : Doing Co Fu).waits .ahead ↔
        w' = w ∨ w' ∈ waitsBeside .ahead forks := fun w' => List.mem_cons
    by_cases hn : ∃ key, w = .nested key
    · obtain ⟨key, rfl⟩ := hn
      have hwaits : ∀ way, (Poller.waiting d.key ⟨frames, forks⟩ : Poller Co Fu).waits way d.key =
          waitsBeside way forks := fun way => if_pos rfl
      refine .down hfocus hrest key _ rfl ?_ ?_ ?_
      · intro w hw
        exact (hahead w).mpr (.inr (hwaits .ahead ▸ hw))
      · intro w hw
        rw [hwaits]
        exact (hahead w).mp hw
      · intro w
        rw [hwaits]
        rfl
    have hnested : ∀ k, .nested k ∈ (Doing.visit (.waiting w frames) forks : Doing Co Fu).waits .ahead ∨
        .nested k ∈ d.rest → .nested k ∈ waitsBeside .ahead forks := by
      rintro k (hk | hk)
      · rcases (hahead _).mp hk with rfl | hk
        · exact absurd ⟨k, rfl⟩ hn
        · exact hk
      · rw [hrest] at hk
        cases hk
    rcases l.stepDriver_visit_waiting p pollers d w frames forks with
      ⟨key, rfl, _⟩ | ⟨r, _, he⟩ | ⟨hw, he⟩
    · exact absurd ⟨key, rfl⟩ hn
    · rw [he]
      refine .on hfocus (.answer r ⟨frames, forks⟩) rfl
        (fun w' hw' => .inl ((hahead w').mpr (.inr hw'))) (fun t ht => .inl ht)
        (fun k hk => .inl (hnested k hk)) (fun k hk => .inl hk) (.of_works rfl rfl)
    · rw [he]
      refine .on hfocus (.pause (.waiting w frames) forks) rfl
        (fun w' hw' => .inl ((hahead w').mpr (.inr hw'))) ?_ (fun k hk => .inl (hnested k hk))
        (fun k hk => .inl (List.mem_cons_of_mem _ hk)) (.of_works rfl rfl)
      intro t ht
      rcases List.mem_cons.mp ht with rfl | ht
      · exact .inr ⟨Option.map_eq_none_iff.mp hw, .inl ((hahead _).mpr (.inl rfl))⟩
      · exact .inl ht

theorem sorts_await (hrest : d.rest = []) {w : Wait} {spot : Spot Fu} (h : doing = .await w spot) :
    Sorts l pollers d (l.stepDriver p pollers d (.await w spot)) := by
  subst h
  by_cases hn : ∃ key, w = .nested key
  · obtain ⟨key, rfl⟩ := hn
    have hwaits : ∀ way, (Poller.waiting d.key spot : Poller Co Fu).waits way d.key =
        waitsBeside way spot.forks := fun way => if_pos rfl
    refine .down hfocus hrest key _ rfl ?_ ?_ ?_
    · intro w hw
      rwa [hwaits] at hw
    · intro w hw
      rw [hwaits]
      exact .inr hw
    · intro w
      rw [hwaits]
      rfl
  rcases l.stepDriver_await p pollers d w spot with ⟨key, rfl, _⟩ | ⟨r, _, he⟩ | ⟨hw, he⟩
  · exact absurd ⟨key, rfl⟩ hn
  · rw [he]
    exact .at_place hfocus hrest rfl rfl rfl rfl rfl
  · rw [he]
    refine .on hfocus (.pause (.waiting w spot.frames) spot.forks) rfl
      (fun w' hw' => .inl hw') ?_ ?_ (fun k hk => .inl (List.mem_cons_of_mem _ hk))
      (.of_works rfl rfl)
    · intro t ht
      rcases List.mem_cons.mp ht with rfl | ht
      · refine .inr ⟨?_, .inr mem_waiting_wait⟩
        exact (outcome?_wait d _ t).trans (Option.map_eq_none_iff.mp hw)
      · exact .inl ht
    · rintro k (hk | hk)
      · exact .inl hk
      · rw [hrest] at hk
        cases hk

theorem sorts_pause (hu : ∀ x ∈ l.drivers, x.key = d.key → x = d) (hrest : d.rest = [])
    {branch : Branch Fu} {forks : List (Fork Fu)} (h : doing = .pause branch forks) :
    Sorts l pollers d (l.stepDriver p pollers d (.pause branch forks)) := by
  subst h
  cases forks with
  | cons fork forks =>
    cases fork with
    | left right k frames =>
      refine .same hfocus (.visit right (.right branch k frames :: forks)) rfl rfl hrest ?_
      intro way w
      cases way <;> simp [Doing.waits, Doing.waitsHere, Doing.forks, waitsBeside, Fork.waits]
    | right left k frames =>
      refine .same hfocus (.pause (.both left branch k frames) forks) rfl rfl hrest ?_
      intro way w
      cases way <;> simp [Doing.waits, Doing.waitsHere, Doing.forks, waitsBeside, Fork.waits,
        Branch.waits, or_left_comm]
  | nil =>
    refine .on hfocus (.leave none) rfl (fun w hw => nomatch hw) (fun t ht => nomatch ht)
      ?_ ?_ ?_
    · rintro k (hk | hk)
      · cases hk
      · rw [hrest] at hk
        cases hk
    · intro k hk
      refine .inr (.inl fun d' hd' hkey => ?_)
      rw [eq_of_mem_modifyDriver hu hd' hkey]
      rwa [show (Doing.pause branch [] : Doing Co Fu).waits .behind = branch.waits from
        List.append_nil _] at hk
    · exact .rests branch hfocus rfl

theorem sorts_answer (hrest : d.rest = []) {r : Resume} {spot : Spot Fu} (h : doing = .answer r spot) :
    Sorts l pollers d (l.stepAnswer p pollers d r spot) := by
  subst h
  obtain ⟨frames, forks⟩ := spot
  cases frames with
  | cons frame frames =>
    cases frame <;> exact .at_place hfocus hrest rfl rfl rfl rfl rfl
  | nil =>
    cases forks with
    | cons fork forks =>
      cases fork with
      | left right k frames =>
        refine .same hfocus (.visit right (.right (.finished r) k frames :: forks)) rfl rfl
          hrest ?_
        intro way w
        cases way <;> simp [Doing.waits, Doing.waitsHere, Doing.forks, waitsBeside, Fork.waits,
          Branch.waits]
      | right left k frames =>
        cases left with
        | finished r' =>
          refine .same hfocus (.work (p.work (k r' r)) ⟨frames, forks⟩) rfl rfl hrest ?_
          intro way w
          cases way <;> simp [Doing.waits, Doing.waitsHere, Doing.forks, waitsBeside, Fork.waits,
            Branch.waits]
        | _ =>
          refine .same hfocus (.pause (.both _ (.finished r) k frames) forks) rfl rfl
            hrest ?_
          intro way w
          cases way <;> simp [Doing.waits, Doing.waitsHere, Doing.forks, waitsBeside, Fork.waits,
            Branch.waits]
    | nil =>
      unfold stepAnswer
      dsimp only
      split <;> exact .at_place hfocus hrest rfl rfl rfl rfl rfl

/-- **A step of a driver sorts its waits.** -/
theorem sorts_stepDriver (hu : ∀ x ∈ l.drivers, x.key = d.key → x = d)
    (hrest : doing.works = true → d.rest = []) (hleave : ∀ outcome, doing ≠ .leave outcome)
    (hcrash : doing ≠ .crash) : Sorts l pollers d (l.stepDriver p pollers d doing) := by
  have hplace : ∀ {l' : EventLoop Co Fu} {doing' : Doing Co Fu}, doing.works = true →
      doing.shifts = false → l'.focus = .active pollers d.key doing' →
      doing'.works = true → doing'.shifts = false → doing'.forks = doing.forks →
      Sorts l pollers d l' := fun hw h hf hw' h' hforks =>
    .at_place hfocus (hrest hw) hf hw' h h' hforks
  cases doing with
  | poll => exact sorts_poll hfocus p rfl
  | resume input =>
    unfold stepDriver
    dsimp only
    split
    · exact hplace rfl rfl rfl rfl rfl rfl
    · rename_i hjob
      exact .ends hfocus (hrest rfl) (fun way => by cases way <;> rfl) (.inr hjob)
  | advance a => exact sorts_advance hfocus p (hrest rfl) rfl
  | visit branch forks => exact sorts_visit hfocus p (hrest rfl) rfl
  | work a spot =>
    cases a with
    | ret await =>
      cases await with
      | both left right k =>
        refine .same hfocus (.work (p.work left)
          { forks := .left (.unbegun right) k spot.frames :: spot.forks }) rfl rfl (hrest rfl) ?_
        intro way w
        cases way <;> simp [Doing.waits, Doing.waitsHere, Doing.forks, waitsBeside, Fork.waits,
          Branch.waits]
      | _ =>
        exact hplace rfl rfl rfl rfl rfl rfl
    | panic => exact .panic hfocus rfl
    | _ =>
      rw [stepDriver_work p l pollers d rfl]
      exact hplace rfl rfl rfl rfl rfl rfl
  | process ref e spot =>
    cases ref with
    | own number =>
      exact hplace rfl rfl rfl rfl rfl rfl
    | builtin b =>
      refine hplace rfl rfl rfl
        (Doing.works_of_computes (builtinDoing_computes p b e spot)) ?_ ?_
      · cases b <;> cases e <;> rfl
      · cases b <;> cases e <;> rfl
  | invoke b target a spot =>
    cases a with
    | ret invoked =>
      cases invoked <;> cases b <;>
        exact hplace rfl rfl rfl rfl rfl rfl
    | panic => exact .panic hfocus rfl
    | _ =>
      rw [stepDriver_invoke p l pollers d b target rfl]
      exact hplace rfl rfl rfl rfl rfl rfl
  | dispatch a spot =>
    cases a with
    | ret v =>
      exact hplace rfl rfl rfl rfl rfl rfl
    | panic => exact .panic hfocus rfl
    | _ =>
      rw [stepDriver_dispatch p l pollers d rfl]
      exact hplace rfl rfl rfl rfl rfl rfl
  | await w spot => exact sorts_await hfocus p (hrest rfl) rfl
  | answer r spot => exact sorts_answer hfocus p (hrest rfl) rfl
  | pause branch forks => exact sorts_pause hfocus p hu (hrest rfl) rfl
  | finish outcome =>
    refine .on hfocus _ rfl (fun w hw => nomatch hw) (fun t ht => nomatch ht) ?_
      (fun k hk => nomatch hk)
      ?_
    · rintro k (hk | hk)
      · cases hk
      · rw [hrest rfl] at hk
        cases hk
    · exact .gone fun d' hd' => key_ne_of_mem_conclude hd'
  | leave outcome => exact absurd rfl (hleave outcome)
  | crash => exact absurd rfl hcrash

end

end EventLoop

end EffectLoop
