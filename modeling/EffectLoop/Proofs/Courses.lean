import EffectLoop.Coroutine.Flow
import EffectLoop.Proofs.Acts
import EffectLoop.Proofs.Dispatches

/-!
# The course of sequential code

Code that yields one effect after the other, each for a processor of the loop, is a dialogue: it hands out
an effect, gets an answer, and goes on with that (`Code.Talks`). A block runs such code as it is written.
So what a completed run tells of a coroutine that is a block of it is a dialogue of the code, effect by
effect and answer by answer, and the outcome is what the code comes to (`talks_of_ended`).
-/

namespace EffectLoop

/-! ## Dialogues -/

/-- Where code stops next, whatever the world replies to what it asks. -/
inductive Code.Stops : Code → Pause → Prop
  | done (r : Resume) : Stops (.done r) (.done r)
  | suspend (y : Yielded) (k : Resume → Code) : Stops (.suspend y k) (.suspend y k)
  | ask {q : Request} {k : q.Reply → Code} {x : Pause} (r : q.Reply) (h : Stops (k r) x) :
      Stops (.ask q k) x

/-- Code that only asks, and yields effects for the built-in processors. -/
inductive Code.Sequential : Code → Prop
  | done (r : Resume) : Sequential (.done r)
  | ask {q : Request} {k : q.Reply → Code} (h : ∀ r, Sequential (k r)) : Sequential (.ask q k)
  | suspend {b : Builtin} {e : Effect} {k : Resume → Code} (hb : b.kind = e.kind)
      (h : ∀ r, Sequential (k r)) : Sequential (.suspend (.effect e) k)

/-- The effects that code yields with their answers, and what it comes to, if `A` says which answers an
effect may get. -/
inductive Code.Talks (A : Effect → Resume → Prop) : Code → List (Effect × Resume) → Resume → Prop
  | done {c : Code} {r : Resume} (h : c.Stops (.done r)) : Talks A c [] r
  | suspend {c : Code} {e : Effect} {k : Resume → Code} {r r' : Resume} {xs : List (Effect × Resume)}
      (h : c.Stops (.suspend (.effect e) k)) (ha : A e r) (ht : Talks A (k r) xs r') :
      Talks A c ((e, r) :: xs) r'

namespace Code

section

variable {A : Effect → Resume → Prop} {xs : List (Effect × Resume)} {r : Resume}

theorem Talks.of_done {r₀ : Resume} (h : (Code.done r₀).Talks A xs r) : xs = [] ∧ r = r₀ := by
  cases h with
  | done h =>
    cases h
    exact ⟨rfl, rfl⟩
  | suspend h _ _ => cases h

theorem Talks.of_ask {q : Request} {k : q.Reply → Code} (h : (Code.ask q k).Talks A xs r) :
    ∃ reply, (k reply).Talks A xs r := by
  cases h with
  | done h =>
    cases h with
    | ask reply h => exact ⟨reply, .done h⟩
  | suspend h ha ht =>
    cases h with
    | ask reply h => exact ⟨reply, .suspend h ha ht⟩

theorem Talks.of_suspend {e : Effect} {k : Resume → Code} (h : (Code.suspend (.effect e) k).Talks A xs r) :
    ∃ r₁ xs', xs = (e, r₁) :: xs' ∧ A e r₁ ∧ (k r₁).Talks A xs' r := by
  cases h with
  | done h => cases h
  | suspend h ha ht =>
    cases h
    exact ⟨_, _, rfl, ha, ht⟩

end

/-- Sequential code stops at its end, or at an effect for a built-in processor. -/
theorem Sequential.cases_of_stops {c : Code} (h : c.Sequential) {x : Pause} (hs : c.Stops x) :
    (∃ r, x = .done r) ∨
      ∃ (b : Builtin) (e : Effect) (k : Resume → Code), x = .suspend (.effect e) k ∧ b.kind = e.kind ∧
        ∀ r, (k r).Sequential := by
  induction h with
  | done r =>
    cases hs
    exact .inl ⟨r, rfl⟩
  | ask _ ih =>
    cases hs with
    | ask r hs => exact ih r hs
  | suspend hb h _ =>
    cases hs
    exact .inr ⟨_, _, _, rfl, hb, h⟩

theorem Sequential.stops_of_pause {Co : Type} {c : Code} (h : c.Sequential) {x : Pause}
    (hx : (c.pause : Act Co Code Pause).Ends x) : c.Stops x := by
  induction h with
  | done r =>
    cases hx
    exact .done r
  | ask _ ih =>
    cases hx with
    | ask r hx => exact .ask r (ih r hx)
  | suspend _ _ _ =>
    cases hx
    exact .suspend _ _

/-- A block comes to the stops of its code. -/
theorem Sequential.stops_of_stage {Co : Type} {c : Code} (h : c.Sequential) {x : Stage Code}
    (hx : (c.stage : Act Co Code (Stage Code)).Ends x) :
    (∃ r, x = .done r ∧ c.Stops (.done r)) ∨ ∃ y k, x = .suspend y k ∧ c.Stops (.suspend y k) := by
  obtain ⟨stop, hstop, hx⟩ := Act.exists_of_ends_bind hx
  have hstops := h.stops_of_pause hstop
  rcases h.cases_of_stops hstops with ⟨r, rfl⟩ | ⟨_, e, k, rfl, _⟩
  · cases hx
    exact .inl ⟨r, rfl, hstops⟩
  · cases hx
    exact .inr ⟨_, k, rfl, hstops⟩

end Code

/-! ## Blocks of code in a program -/

/-- Some coroutines of the program are blocks of code. -/
structure Program.RunsBlocks {Co : Type} (p : Program Co Code) (ofBlock : Block Code → Co) : Prop where
  resume : ∀ b r, p.resume (ofBlock b) r = ofBlock (b.resume r)
  advance : ∀ b, p.advance (ofBlock b) = (b.advance Code.stage).bind fun x => .ret (x.map ofBlock)

/-- All coroutines of the program are blocks of code. -/
theorem Program.RunsBlocks.of_eq {p : Program (Block Code) Code} (hresume : p.resume = Block.resume)
    (hadvance : p.advance = Block.advance Code.stage) : p.RunsBlocks id := by
  refine ⟨fun _ _ => by rw [hresume]; rfl, fun b => ?_⟩
  have hmap : (fun x => .ret (Progress.map id x)) =
      (Act.ret : Progress (Block Code) → Act (Block Code) Code (Progress (Block Code))) :=
    funext fun x => by cases x <;> rfl
  rw [hadvance, hmap, Act.bind_ret]
  rfl

/-- A block that waits for the answer to an effect. -/
def Block.waiting (k : Resume → Code) : Block Code := { started := true, state := .resting (.suspended k) }

/-- Resumed with an answer, the block goes on with this code. -/
inductive Block.GoesOn : Block Code → Resume → Code → Prop
  | fresh (c : Code) (r : Resume) : GoesOn (.ofCode c) r c
  | waiting (k : Resume → Code) (r : Resume) : GoesOn (.waiting k) r (k r)

section

variable {Co : Type} {p : Program Co Code} {ofBlock : Block Code → Co}

theorem StopsAt.of_more {co : Co} {x : Progress Co} (h : StopsAt p (.ret (.more co)) x) :
    StopsAt p (p.advance co) x := by
  cases h with
  | yields h => cases h
  | ends h => cases h
  | more h hx =>
    cases h
    exact hx
  | polls o h _ => cases h

theorem StopsAt.eq_yield {y : Yielded} {co : Co} {x : Progress Co} (h : StopsAt p (.ret (.yield y co)) x) :
    x = .yield y co := by
  cases h with
  | yields h =>
    cases h
    rfl
  | ends h => cases h
  | more h _ => cases h
  | polls o h _ => cases h

theorem StopsAt.eq_done {o : Outcome} {co : Co} {x : Progress Co} (h : StopsAt p (.ret (.done o co)) x) :
    x = .done o co := by
  cases h with
  | yields h => cases h
  | ends h =>
    cases h
    rfl
  | more h _ => cases h
  | polls o h _ => cases h

variable (hp : p.RunsBlocks ofBlock) {c : Code} {ex : Exchange} {started : Bool}
include hp

/-- Code in a block runs to its stop. -/
theorem ends_of_running {x : Progress Co}
    (h : (p.advance (ofBlock ⟨ex, started, .polling ⟨[], .code c, true⟩⟩)).Ends x) :
    ∃ stage, (c.stage : Act Co Code (Stage Code)).Ends stage ∧
      x = .more (ofBlock (Block.stop ⟨ex, started, .polling ⟨[], .code c, true⟩⟩ [] stage)) := by
  rw [hp.advance] at h
  obtain ⟨progress, hprogress, h⟩ := Act.exists_of_ends_bind h
  obtain ⟨stage, hstage, hprogress⟩ := Act.exists_of_ends_bind hprogress
  cases hprogress
  cases h
  exact ⟨stage, hstage, rfl⟩

/-- A block whose code runs comes to the stops of its code. -/
theorem stops_of_running (hc : c.Sequential) (hex : ex.yielded = none) {x : Progress Co}
    (h : StopsAt p (p.advance (ofBlock ⟨ex, started, .polling ⟨[], .code c, true⟩⟩)) x) :
    (∃ y k, x = .yield y (ofBlock ⟨{}, started, .resting (.suspended k)⟩) ∧ c.Stops (.suspend y k)) ∨
      ∃ r b, x = .done (r.map Output.wire) b ∧ c.Stops (.done r) := by
  have hmore : ∃ stage, (c.stage : Act Co Code (Stage Code)).Ends stage ∧ StopsAt p
      (p.advance (ofBlock (Block.stop ⟨ex, started, .polling ⟨[], .code c, true⟩⟩ [] stage))) x := by
    cases h with
    | yields h =>
      obtain ⟨_, _, h⟩ := ends_of_running hp h
      cases h
    | ends h =>
      obtain ⟨_, _, h⟩ := ends_of_running hp h
      cases h
    | more h hx =>
      obtain ⟨stage, hstage, h⟩ := ends_of_running hp h
      cases h
      exact ⟨stage, hstage, hx⟩
    | polls o h _ =>
      obtain ⟨_, _, h⟩ := ends_of_running hp h
      cases h
  obtain ⟨stage, hstage, hx⟩ := hmore
  rcases hc.stops_of_stage hstage with ⟨r, rfl, hstops⟩ | ⟨y, k, rfl, hstops⟩
  · rw [hp.advance] at hx
    exact .inr ⟨r, _, hx.eq_done, hstops⟩
  · refine .inl ⟨y, k, ?_, hstops⟩
    rw [Block.stop, hex] at hx
    rw [hp.advance] at hx
    exact hx.eq_yield

/-- **A block that is resumed comes to the stops of its code.** -/
theorem stops_of_goesOn {b : Block Code} {r : Resume} (hb : b.GoesOn r c) (hc : c.Sequential)
    {x : Progress Co} (h : StopsAt p (p.advance (p.resume (ofBlock b) r)) x) :
    (∃ y k, x = .yield y (ofBlock (.waiting k)) ∧ c.Stops (.suspend y k)) ∨
      ∃ r b, x = .done (r.map Output.wire) b ∧ c.Stops (.done r) := by
  rw [hp.resume] at h
  cases hb with
  | fresh => exact stops_of_running hp hc rfl h
  | waiting k =>
    rw [hp.advance] at h
    exact stops_of_running hp hc rfl h.of_more

end

/-! ## What a completed run tells -/

/-- These events, after a resume, tell of these exchanges. -/
inductive Narrates {Co : Type} : List (TaskEvent Co) → List (Effect × Resume) → Prop
  | nil : Narrates [] []
  | exchanged {b : Builtin} {e : Effect} {r : Resume} {co co' : Co} {told : List (TaskEvent Co)}
      {xs : List (Effect × Resume)} (hb : b.kind = e.kind) (h : Narrates told xs) :
      Narrates (.yielded (.effect e) co :: .given (.builtin b) e :: .resolved r :: .resumed co' r :: told)
        ((e, r) :: xs)

/-- The event of a put. -/
def Effect.event? : Effect → Option Json
  | .put event => some event
  | _ => none

/-- The events that are put by effects. -/
def eventsIn (es : List Effect) : List Json := es.filterMap Effect.event?

@[simp] theorem eventsIn_nil : eventsIn [] = [] := rfl

@[simp] theorem eventsIn_cons (e : Effect) (es : List Effect) :
    eventsIn (e :: es) = e.event?.toList ++ eventsIn es := by
  rw [eventsIn, List.filterMap_cons]
  cases e.event? <;> rfl

@[simp] theorem eventsIn_append (es es' : List Effect) : eventsIn (es ++ es') = eventsIn es ++ eventsIn es' :=
  List.filterMap_append

section

variable {Co : Type} {told : List (TaskEvent Co)} {xs ys : List (Effect × Resume)}

theorem Narrates.split (h : Narrates told (xs ++ ys)) :
    ∃ past more, told = past ++ more ∧ Narrates past xs ∧ Narrates more ys := by
  induction xs generalizing told with
  | nil => exact ⟨[], told, rfl, .nil, h⟩
  | cons x xs ih =>
    cases h with
    | exchanged hb h =>
      obtain ⟨past, more, rfl, hpast, hmore⟩ := ih h
      exact ⟨_, more, rfl, .exchanged hb hpast, hmore⟩

theorem Narrates.puts (h : Narrates told xs) : putsIn told = eventsIn (xs.map Prod.fst) := by
  induction h with
  | nil => rfl
  | @exchanged b e r co co' told xs hb h ih => cases e <;> simp [TaskEvent.puts?, Effect.event?, ih]

theorem Narrates.given_iff (h : Narrates told xs) {e : Effect} :
    (∃ ref, .given ref e ∈ told) ↔ e ∈ xs.map Prod.fst := by
  induction h with
  | nil => simp
  | exchanged hb h ih => simp [exists_or, ih]

end

namespace EventLoop

section

variable {Co : Type} (p : Program Co Code) {moves : List (Move Co Code)} {key : DriverKey}
  {s : SchedulerId} {co₀ : Co}

/-- In the run, the coroutine that became a task as `co₀` yields this effect and gets this answer. -/
def Answered (moves : List (Move Co Code)) (key : DriverKey) (s : SchedulerId) (co₀ : Co) (e : Effect)
    (r : Resume) : Prop :=
  ∃ past co b rest, b.kind = e.kind ∧ history p moves key = .entered s co₀ :: past ++
    .yielded (.effect e) co :: .given (.builtin b) e :: .resolved r :: rest

variable {ofBlock : Block Code → Co} {p}

theorem exists_path_of_resumed {past rest : List (TaskEvent Co)} {co : Co} {r : Resume}
    (h : history p moves key = .entered s co₀ :: past ++ .resumed co r :: rest) :
    ∃ passes ph, Phase.Path (p.scheduler s) (.running passes) rest ph := by
  rw [List.append_cons, List.cons_append, List.cons_append] at h
  obtain ⟨ph, hprotocol⟩ := protocol_of_history p h
  obtain ⟨ph', hprotocol, hpath⟩ := hprotocol.path
  obtain ⟨_, _, hnext⟩ := hprotocol.last
  cases hnext
  exact ⟨_, ph, hpath⟩

/-- After the yield of an effect it is given to the processor of its kind, answered, and the coroutine is
resumed with the answer, if it comes to its end at all. -/
theorem exists_exchange_of_path {spec : SchedulerSpec} (hbuiltin : spec.processors = .builtin)
    {b : Builtin} {e : Effect} (hb : b.kind = e.kind) {passes : Nat} {ph : Phase Co} {co : Co}
    {rest : List (TaskEvent Co)} {o : Outcome}
    (h : Phase.Path spec (.running passes) (.yielded (.effect e) co :: rest) ph) (ho : .ended o ∈ rest) :
    ∃ r rest', rest = .given (.builtin b) e :: .resolved r :: .resumed co r :: rest' := by
  have hget : spec.processors.get? e.kind = some (.builtin b) := by
    rw [hbuiltin, ← hb]
    cases b <;> rfl
  cases h with
  | cons hn h =>
    cases hn with
    | unknown _ _ _ hnone => cases hnone.symm.trans hget
    | routed _ _ _ ref href =>
      cases href.symm.trans hget
      cases h with
      | nil => simp at ho
      | cons hn h =>
        cases hn
        cases h with
        | nil => simp at ho
        | cons hn h =>
          cases hn
          cases h with
          | nil => simp at ho
          | cons hn h =>
            cases hn
            exact ⟨_, _, rfl⟩

theorem eq_ended_of_path {spec : SchedulerSpec} {passes : Nat} {ph : Phase Co} {o o' : Outcome}
    {rest : List (TaskEvent Co)} (h : Phase.Path spec (.running passes) (.returned o' :: rest) ph)
    (ho : .ended o ∈ rest) : o' = o ∧ rest = [.ended o] := by
  cases h with
  | cons hn h =>
    cases hn
    cases h with
    | nil => simp at ho
    | cons hn h =>
      cases hn
      cases h with
      | nil =>
        cases List.mem_singleton.mp ho
        exact ⟨rfl, rfl⟩
      | cons hn _ => cases hn

/-- A coroutine of sequential code that has come to its end since it was resumed has done what the code
says. -/
theorem talks_of_resumed (hp : p.RunsBlocks ofBlock) (hbuiltin : (p.scheduler s).processors = .builtin)
    {b : Block Code} {r : Resume} {c : Code} (hb : b.GoesOn r c) (hc : c.Sequential)
    {past rest : List (TaskEvent Co)} {o : Outcome}
    (h : history p moves key = .entered s co₀ :: past ++ .resumed (ofBlock b) r :: rest)
    (ho : .ended o ∈ rest) :
    ∃ xs r' told, c.Talks (Answered p moves key s co₀) xs r' ∧ o = r'.map Output.wire ∧
      rest = told ++ [.returned o, .ended o] ∧ Narrates told xs := by
  obtain ⟨passes, ph, hpath⟩ := exists_path_of_resumed h
  match rest, h, ho, hpath with
  | e :: rest, h, ho, hpath =>
    rcases stops_of_resumed h with ⟨y, co', rfl, hstops⟩ | ⟨o', co', rfl, hstops⟩
    · rcases stops_of_goesOn hp hb hc hstops with ⟨_, k, hx, hcode⟩ | ⟨_, _, hx, _⟩
      · cases hx
        rcases hc.cases_of_stops hcode with ⟨_, hdone⟩ | ⟨b', e, _, hsuspend, hkind, hc'⟩
        · cases hdone
        · cases hsuspend
          have ho : .ended o ∈ rest := by simpa using ho
          obtain ⟨r₁, rest', rfl⟩ := exists_exchange_of_path hbuiltin hkind hpath ho
          have hnext : history p moves key = .entered s co₀ :: (past ++ [.resumed (ofBlock b) r,
              .yielded (.effect e) (ofBlock (.waiting k)), .given (.builtin b') e, .resolved r₁]) ++
              .resumed (ofBlock (.waiting k)) r₁ :: rest' := by
            simp [h]
          obtain ⟨xs, r', told, htalks, rfl, hrest, hnarrates⟩ :=
            talks_of_resumed hp hbuiltin (.waiting k r₁) (hc' r₁) hnext (by simpa using ho)
          have hanswered : Answered p moves key s co₀ e r₁ :=
            ⟨past ++ [.resumed (ofBlock b) r], ofBlock (.waiting k), b',
              .resumed (ofBlock (.waiting k)) r₁ :: rest', hkind, by simp [h]⟩
          exact ⟨_, r', _, .suspend hcode hanswered htalks, rfl, by rw [hrest]; rfl, .exchanged hkind hnarrates⟩
      · cases hx
    · rcases stops_of_goesOn hp hb hc hstops with ⟨_, _, hx, _⟩ | ⟨r', _, hx, hcode⟩
      · cases hx
      · cases hx
        obtain ⟨rfl, rfl⟩ := eq_ended_of_path hpath (by simpa using ho)
        exact ⟨[], r', [], .done hcode, rfl, rfl, .nil⟩
termination_by rest.length

/-- **A coroutine of sequential code that has come to its end has done what the code says**: its history is
a dialogue of the code, and its outcome what the code comes to. -/
theorem talks_of_ended (hp : p.RunsBlocks ofBlock) (hbuiltin : (p.scheduler s).processors = .builtin)
    {c : Code} (hc : c.Sequential) {told : List (TaskEvent Co)} {o : Outcome}
    (h : history p moves key = .entered s (ofBlock (.ofCode c)) :: told) (ho : .ended o ∈ told) :
    ∃ xs r rest, c.Talks (Answered p moves key s (ofBlock (.ofCode c))) xs r ∧ o = r.map Output.wire ∧
      told = .resumed (ofBlock (.ofCode c)) (.ok (.value .null)) :: (rest ++ [.returned o, .ended o]) ∧
      Narrates rest xs := by
  obtain ⟨ph, hprotocol⟩ := protocol_of_history p h
  obtain ⟨_, hstart, hpath⟩ := Protocol.path (h := []) hprotocol
  cases hstart.owed_of_nil
  cases hpath with
  | nil => simp at ho
  | cons hn _ =>
    cases hn
    have hresumed : history p moves key =
        .entered s (ofBlock (.ofCode c)) :: [] ++ .resumed (ofBlock (.ofCode c)) (.ok (.value .null)) :: _ := h
    obtain ⟨xs, r, rest, htalks, ho, hrest, hnarrates⟩ :=
      talks_of_resumed hp hbuiltin (.fresh c _) hc hresumed (by simpa using ho)
    exact ⟨xs, r, rest, htalks, ho, by rw [hrest], hnarrates⟩

/-! ## What is dispatched -/

variable {c : Code} {input : Resume} {rest : List (TaskEvent Co)} {o : Outcome}
  {xs : List (Effect × Resume)}

theorem rested_of_ended (past : List (TaskEvent Co)) (o : Outcome) :
    Rested (past ++ [.returned o, .ended o]) := by
  rw [List.append_cons]
  exact Rested.snoc rfl _

theorem given_iff_of_narrates (hn : Narrates rest xs) {e : Effect} :
    (∃ ref, .given ref e ∈ .entered s co₀ :: .resumed co₀ input :: (rest ++ [.returned o, .ended o])) ↔
      e ∈ xs.map Prod.fst := by
  rw [← hn.given_iff]
  simp

/-- These are the effects of a coroutine and of all that act on its behalf: what is put by them is what is
dispatched, and no other effect is processed. -/
structure Transcript (p : Program Co Code) (moves : List (Move Co Code)) (key : DriverKey)
    (es : List Effect) : Prop where
  dispatched : dispatched p moves key = eventsIn es
  processed : ∀ e, ProcessedFor p moves key e ↔ e ∈ es

/-- What is done on behalf of a coroutine whose effects are all leafy. -/
theorem transcript_of_narrates (hbuiltin : (p.scheduler s).processors = .builtin)
    (h : history p moves key = .entered s co₀ :: .resumed co₀ input :: (rest ++ [.returned o, .ended o]))
    (hn : Narrates rest xs) (hleafy : ∀ e ∈ xs.map Prod.fst, Leafy p e) :
    Transcript p moves key (xs.map Prod.fst) := by
  have hgiven : ∀ e, (∃ ref, .given ref e ∈ history p moves key) ↔ e ∈ xs.map Prod.fst := fun e =>
    h ▸ given_iff_of_narrates hn
  have hconfined : Confined p moves key (Leafy p) :=
    ⟨⟨s, co₀, _, h, hbuiltin⟩, fun ref e he => hleafy e ((hgiven e).mp ⟨ref, he⟩)⟩
  refine ⟨?_, fun e => (processed_of_leafy hconfined).trans (hgiven e)⟩
  have hrested : Rested (history p moves key) := by
    rw [h]
    exact rested_of_ended (.entered s co₀ :: .resumed co₀ input :: rest) o
  rw [dispatched_of_leafy hconfined hrested, h]
  simp [TaskEvent.puts?, hn.puts]

/-- A callee that is a block of code has been through a dialogue of the code. -/
theorem talks_of_serving (hp : p.RunsBlocks ofBlock) (hbuiltin : (p.scheduler s).processors = .builtin)
    (hc : c.Sequential) {n : DriverKey} {told : List (TaskEvent Co)} {own : Outcome} {r : Resume}
    (h : Serving p moves key n s (ofBlock (.ofCode c)) told own r) :
    ∃ ys r', c.Talks (Answered p moves n s (ofBlock (.ofCode c))) ys r' ∧ own.map .value = r'.wired ∧
      putsIn told = eventsIn (ys.map Prod.fst) ∧ ∀ e, (∃ ref, .given ref e ∈ told) ↔ e ∈ ys.map Prod.fst := by
  obtain ⟨ys, r', rest, htalks, rfl, rfl, hn⟩ := talks_of_ended hp hbuiltin hc h.history h.ended
  refine ⟨ys, r', htalks, by cases r' <;> rfl, by simp [TaskEvent.puts?, hn.puts], fun e => ?_⟩
  rw [← hn.given_iff]
  simp

/-- **What is done on behalf of a coroutine that calls a block of code**: the callee has been through a
dialogue of that code, which comes in at the call, and a result of the call is its own. -/
theorem transcript_of_exchange (hp : p.RunsBlocks ofBlock) (hbuiltin : (p.scheduler s).processors = .builtin)
    (h : history p moves key = .entered s co₀ :: .resumed co₀ input :: (rest ++ [.returned o, .ended o]))
    {before later : List (Effect × Resume)} {target : Target} {args : List Json} {r : Resume}
    (hn : Narrates rest (before ++ (.call target args, r) :: later))
    (hbefore : ∀ e ∈ before.map Prod.fst, Leafy p e) (hlater : ∀ e ∈ later.map Prod.fst, Leafy p e)
    (hgives : ∀ work, (p.invoke target args).Gives p work → work = .coroutine (ofBlock (.ofCode c)))
    (hc : c.Sequential) (hclosed : ∀ n ys r', c.Talks (Answered p moves n s (ofBlock (.ofCode c))) ys r' →
      ∀ e ∈ ys.map Prod.fst, Closed p e) :
    ∃ n ys r', c.Talks (Answered p moves n s (ofBlock (.ofCode c))) ys r' ∧
      Transcript p moves key
        (before.map Prod.fst ++ .call target args :: (ys.map Prod.fst ++ later.map Prod.fst)) ∧
      (∀ v, r = .ok v → r = r'.wired) ∧ (Unhindered p moves key → r = r'.wired) := by
  have hgiven : ∀ e, (∃ ref, .given ref e ∈ history p moves key) ↔
      e ∈ (before ++ (.call target args, r) :: later).map Prod.fst := fun e => h ▸ given_iff_of_narrates hn
  obtain ⟨past, more, rfl, hpast, hmore⟩ := hn.split
  cases hmore with
  | @exchanged b _ _ co co' told _ hkind htold =>
    obtain rfl : b = .call := by cases b <;> first | rfl | cases hkind
    have hcall : history p moves key =
        .entered s co₀ :: (.resumed co₀ input :: past ++ [.yielded (.effect (.call target args)) co]) ++
          .given (.builtin .call) (.call target args) :: .resolved r ::
            (.resumed co' r :: (told ++ [.returned o, .ended o])) := by
      simp [h]
    have hrested : Rested (history p moves key) := by
      rw [h]
      exact rested_of_ended (.entered s co₀ :: .resumed co₀ input :: _) o
    have hleafy : ∀ ref e, .given ref e ∈
          .resumed co₀ input :: past ++ [.yielded (.effect (.call target args)) co] ∨
        .given ref e ∈ .resumed co' r :: (told ++ [.returned o, .ended o]) → Leafy p e := by
      rintro ref e (he | he)
      · exact hbefore e (hpast.given_iff.mp ⟨ref, by simpa using he⟩)
      · exact hlater e (htold.given_iff.mp ⟨ref, by simpa using he⟩)
    obtain ⟨n, co, told', own, hco, hserving, hdispatched, hprocessed⟩ := dispatched_of_called hbuiltin
      (fun work hwork => ⟨_, hgives work hwork⟩) hcall hrested hleafy fun n co told own hco hserving ref e he => by
        cases hgives _ hco
        obtain ⟨ys, r', htalks, _, _, hys⟩ := talks_of_serving hp hbuiltin hc hserving
        exact hclosed n ys r' htalks e ((hys e).mp ⟨ref, he⟩)
    cases hgives _ hco
    obtain ⟨ys, r', htalks, hown, hputs, hys⟩ := talks_of_serving hp hbuiltin hc hserving
    refine ⟨n, ys, r', htalks, ⟨?_, fun e => ?_⟩, fun v hv => hown ▸ hserving.result v hv,
      fun hall => hown ▸ hserving.unhindered hall⟩
    · rw [hdispatched, hputs]
      simp [TaskEvent.puts?, hpast.puts, htold.puts, Effect.event?]
    · rw [hprocessed, hgiven, hys]
      simp only [List.map_append, List.map_cons, List.mem_append, List.mem_cons]
      tauto

end

end EventLoop

end EffectLoop
