import EffectLoop.Proofs.Run

/-!
# What may be polled

Whoever has the key of a nested driver can come to poll it. `Grasp` says what it is for the coroutines
and the computations of a program that they may come to poll, of the drivers that are there, only those
in a given set `K`; `Within` says the same of every piece that a driver is made of, and of acts. A program
keeps its keys (`Program.Keeps`) if nothing in it may come to poll more than it could before, but the
drivers that it enters itself: what is started, spawned or nested, and what a target gives, is handed no
key at all.
-/

namespace EffectLoop

variable {Co Fu α β : Type}

/-- What it is for a coroutine and for a computation that it may come to poll, of the drivers that are
there, only those in a given set. -/
structure Grasp (Co Fu : Type) where
  co : (DriverKey → Prop) → Co → Prop
  fu : (DriverKey → Prop) → Fu → Prop
  co_mono : ∀ {K K' : DriverKey → Prop} {x : Co}, (∀ key, K key → K' key) → co K x → co K' x
  fu_mono : ∀ {K K' : DriverKey → Prop} {x : Fu}, (∀ key, K key → K' key) → fu K x → fu K' x

/-! ## Polling nothing else -/

section

variable (g : Grasp Co Fu)

/-- What a target gave polls no driver that is there. -/
def Invoked.Free : Invoked Co Fu → Prop
  | .pending fu => g.fu (fun _ => False) fu
  | .coroutine co => g.co (fun _ => False) co

/-- The act, and what comes of it, polls only drivers in `K` and those it enters itself; `ret` says so
of its value. What it starts polls nothing that is there. -/
def Act.Within (ret : (DriverKey → Prop) → α → Prop) :
    (DriverKey → Prop) → Act Co Fu α → Prop
  | K, .ret a => ret K a
  | _, .panic => True
  | K, .ask _ k => ∀ r, (k r).Within ret K
  | K, .invoke _ _ k => ∀ i, i.Free g → (k i).Within ret K
  | K, .dispatch _ _ k => ∀ j, (k j).Within ret K
  | K, .start _ _ co k => g.co (fun _ => False) co ∧ ∀ h, (k h).Within ret K
  | K, .spawn _ _ fu k => g.fu (fun _ => False) fu ∧ ∀ h, (k h).Within ret K
  | K, .nest _ _ co k => g.co (fun _ => False) co ∧ ∀ key, (k key).Within ret fun x => x = key ∨ K x

variable (K : DriverKey → Prop)

def Wait.Within (w : Wait) : Prop := ∀ key, w = .nested key → K key

def Progress.Within : Progress Co → Prop
  | .more co => g.co K co
  | .poll key k => K key ∧ ∀ o, g.co K (k o)
  | .yield _ co => g.co K co
  | .done _ _ => True

def Await.Within : Await Fu → Prop
  | .done _ => True
  | .wait w k => w.Within K ∧ ∀ r, g.fu K (k r)
  | .delegate _ _ k => ∀ r, g.fu K (k r)
  | .both left right k =>
    g.fu K left ∧ g.fu K right ∧ ∀ r r', g.fu K (k r r')

def Frame.Within : Frame Fu → Prop
  | .code k => ∀ r, g.fu K (k r)
  | .call | .deliver _ => True

def Branch.Within : Branch Fu → Prop
  | .unbegun fu => g.fu K fu
  | .waiting w frames => w.Within K ∧ ∀ f ∈ frames, f.Within g K
  | .both left right k frames =>
    left.Within ∧ right.Within ∧ (∀ r r', g.fu K (k r r')) ∧ ∀ f ∈ frames, f.Within g K
  | .finished _ => True

def Fork.Within : Fork Fu → Prop
  | .left beside k frames | .right beside k frames =>
    beside.Within g K ∧ (∀ r r', g.fu K (k r r')) ∧ ∀ f ∈ frames, f.Within g K

structure Spot.Within (spot : Spot Fu) : Prop where
  frames : ∀ f ∈ spot.frames, f.Within g K
  forks : ∀ f ∈ spot.forks, f.Within g K

def Job.Within : Job Co → Prop
  | .coroutine co _ _ => g.co K co
  | .plain => True

def Activity.Within : Activity Fu → Prop
  | .pending branch => branch.Within g K
  | _ => True

structure Driver.Within (d : Driver Co Fu) : Prop where
  job : d.job.Within g K
  activity : d.activity.Within g K

def Poller.Within : Poller Co Fu → Prop
  | .waiting _ spot => spot.Within g K
  | .body _ k => ∀ o, g.co K (k o)
  | .hand => True

def Doing.Within : Doing Co Fu → Prop
  | .advance a => a.Within g (Progress.Within g) K
  | .visit branch forks | .pause branch forks =>
    branch.Within g K ∧ ∀ f ∈ forks, f.Within g K
  | .work a spot => a.Within g (Await.Within g) K ∧ spot.Within g K
  | .process _ _ spot | .answer _ spot => spot.Within g K
  | .invoke _ _ a spot => a.Within g (fun _ i => i.Free g) K ∧ spot.Within g K
  | .dispatch a spot => a.Within g (fun _ _ => True) K ∧ spot.Within g K
  | .await w spot => w.Within K ∧ spot.Within g K
  | _ => True

end

/-- The program keeps its keys: nothing comes to poll more than it could, but what it enters itself. -/
structure Program.Keeps (p : Program Co Fu) (g : Grasp Co Fu) : Prop where
  resume : ∀ {K co}, g.co K co → ∀ r, g.co K (p.resume co r)
  advance : ∀ {K co}, g.co K co → (p.advance co).Within g (Progress.Within g) K
  work : ∀ {K fu}, g.fu K fu → (p.work fu).Within g (Await.Within g) K
  invoke : ∀ target args, (p.invoke target args).Within g (fun _ i => i.Free g) fun _ => False
  process : ∀ number s e, g.fu (fun _ => False) (p.process number s e)
  dispatch : ∀ sink event, (p.dispatch sink event).Within g (fun _ _ => True) fun _ => False

/-- A move of the surroundings hands no key on. -/
def Move.Keeps (g : Grasp Co Fu) : Move Co Fu → Prop
  | .act a => a.Within g (fun _ _ => True) fun _ => False
  | _ => True

/-! ## Wider sets -/

section

variable {g : Grasp Co Fu} {K K' : DriverKey → Prop} (h : ∀ key, K key → K' key)
include h

theorem Wait.Within.mono {w : Wait} (hw : w.Within K) : w.Within K' :=
  fun key hk => h key (hw key hk)

theorem Progress.Within.mono {x : Progress Co} (hw : x.Within g K) : x.Within g K' := by
  cases x with
  | more co => exact g.co_mono h hw
  | poll key k => exact ⟨h key hw.1, fun o => g.co_mono h (hw.2 o)⟩
  | yield y co => exact g.co_mono h hw
  | done o co => trivial

theorem Await.Within.mono {x : Await Fu} (hw : x.Within g K) : x.Within g K' := by
  cases x with
  | done r => trivial
  | wait w k => exact ⟨hw.1.mono h, fun r => g.fu_mono h (hw.2 r)⟩
  | delegate b e k => exact fun r => g.fu_mono h (hw r)
  | both left right k =>
    exact ⟨g.fu_mono h hw.1, g.fu_mono h hw.2.1, fun r r' => g.fu_mono h (hw.2.2 r r')⟩

theorem Frame.Within.mono {f : Frame Fu} (hw : f.Within g K) : f.Within g K' := by
  cases f with
  | code k => exact fun r => g.fu_mono h (hw r)
  | _ => trivial

theorem Branch.Within.mono {b : Branch Fu} (hw : b.Within g K) : b.Within g K' := by
  induction b with
  | unbegun fu => exact g.fu_mono h hw
  | waiting w frames => exact ⟨hw.1.mono h, fun f hf => (hw.2 f hf).mono h⟩
  | both left right k frames ihl ihr =>
    obtain ⟨hl, hr, hk, hf⟩ := hw
    exact ⟨ihl hl, ihr hr, fun r r' => g.fu_mono h (hk r r'), fun f hmem => (hf f hmem).mono h⟩
  | finished r => trivial

theorem Fork.Within.mono {f : Fork Fu} (hw : f.Within g K) : f.Within g K' := by
  cases f <;>
    exact ⟨hw.1.mono h, fun r r' => g.fu_mono h (hw.2.1 r r'), fun f hf => (hw.2.2 f hf).mono h⟩

theorem Spot.Within.mono {spot : Spot Fu} (hw : spot.Within g K) : spot.Within g K' where
  frames := fun f hf => (hw.frames f hf).mono h
  forks := fun f hf => (hw.forks f hf).mono h

theorem Driver.Within.mono {d : Driver Co Fu} (hw : d.Within g K) : d.Within g K' := by
  obtain ⟨hjob, hactivity⟩ := hw
  refine ⟨?_, ?_⟩
  · cases hj : d.job with
    | coroutine co passes kind =>
      rw [hj] at hjob
      exact g.co_mono h hjob
    | plain => trivial
  · cases ha : d.activity with
    | pending branch =>
      rw [ha] at hactivity
      exact Branch.Within.mono h hactivity
    | _ => trivial

theorem Poller.Within.mono {x : Poller Co Fu} (hw : x.Within g K) : x.Within g K' := by
  cases x with
  | waiting key spot => exact Spot.Within.mono h hw
  | body key k => exact fun o => g.co_mono h (hw o)
  | hand => trivial

omit h in
theorem Act.Within.mono {ret : (DriverKey → Prop) → α → Prop}
    (hret : ∀ K K' a, (∀ key, K key → K' key) → ret K a → ret K' a) {a : Act Co Fu α}
    (hw : a.Within g ret K) (h : ∀ key, K key → K' key) : a.Within g ret K' := by
  induction a generalizing K K' with
  | ret a => exact hret _ _ a h hw
  | panic => trivial
  | ask q k ih => exact fun r => ih r (hw r) h
  | invoke target args k ih => exact fun i hi => ih i (hw i hi) h
  | dispatch sink event k ih => exact fun j => ih j (hw j) h
  | start s name co k ih => exact ⟨hw.1, fun t => ih t (hw.2 t) h⟩
  | spawn s name fu k ih => exact ⟨hw.1, fun t => ih t (hw.2 t) h⟩
  | nest s name co k ih =>
    exact ⟨hw.1, fun key => ih key (hw.2 key) fun x hx => hx.imp_right (h x)⟩

theorem Doing.Within.mono {doing : Doing Co Fu} (hw : doing.Within g K) : doing.Within g K' := by
  have hprogress : ∀ K K' (a : Progress Co), (∀ key, K key → K' key) → a.Within g K →
      a.Within g K' := fun _ _ _ h hw => hw.mono h
  have hawait : ∀ K K' (a : Await Fu), (∀ key, K key → K' key) → a.Within g K →
      a.Within g K' := fun _ _ _ h hw => hw.mono h
  cases doing with
  | advance a => exact Act.Within.mono hprogress hw h
  | visit branch forks => exact ⟨hw.1.mono h, fun f hf => (hw.2 f hf).mono h⟩
  | pause branch forks => exact ⟨hw.1.mono h, fun f hf => (hw.2 f hf).mono h⟩
  | work a spot => exact ⟨Act.Within.mono hawait hw.1 h, hw.2.mono h⟩
  | process ref e spot => exact Spot.Within.mono h hw
  | answer r spot => exact Spot.Within.mono h hw
  | invoke b target a spot => exact ⟨Act.Within.mono (fun _ _ _ _ hi => hi) hw.1 h, hw.2.mono h⟩
  | dispatch a spot => exact ⟨Act.Within.mono (fun _ _ _ _ _ => trivial) hw.1 h, hw.2.mono h⟩
  | await w spot => exact ⟨hw.1.mono h, hw.2.mono h⟩
  | _ => trivial

end

/-! ## Acts -/

section

variable {g : Grasp Co Fu} {K : DriverKey → Prop}

theorem Act.Within.bind {ret : (DriverKey → Prop) → α → Prop} {ret' : (DriverKey → Prop) → β → Prop}
    {a : Act Co Fu α} {f : α → Act Co Fu β} (ha : a.Within g ret K)
    (hf : ∀ K' x, (∀ key, K key → K' key) → ret K' x → (f x).Within g ret' K') :
    (a.bind f).Within g ret' K := by
  induction a generalizing K with
  | ret x => exact hf K x (fun _ h => h) ha
  | panic => trivial
  | ask q k ih => exact fun r => ih r (ha r) hf
  | invoke target args k ih => exact fun i hi => ih i (ha i hi) hf
  | dispatch sink event k ih => exact fun j => ih j (ha j) hf
  | start s name co k ih => exact ⟨ha.1, fun t => ih t (ha.2 t) hf⟩
  | spawn s name fu k ih => exact ⟨ha.1, fun t => ih t (ha.2 t) hf⟩
  | nest s name co k ih =>
    exact ⟨ha.1, fun key => ih key (ha.2 key) fun K' x h => hf K' x fun y hy => h y (.inr hy)⟩

end

end EffectLoop
