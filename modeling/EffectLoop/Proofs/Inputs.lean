import EffectLoop.Proofs.Suspension

/-!
# Where inputs go

A block whose branches also wait for other things can have several suspension points outstanding: each
was accepted in a poll in which no other branch yielded. Its exchange does not know for which of them
an input is meant. Every poll visits the outstanding points from left to right, and the input goes to
the first of them, unless a branch further left yields before: then it is lost.

* `Sweep` is what a poll does to the list of outstanding points, apart from the tree that holds them;
  every step of a poll is a step of it (`swept`).
* `Hearing` says which point gets the input and which is accepted in a whole poll
  (`Sweep.Steps.hearing`).
* `inputs_go_left` follows the points through every story; `inputs_cross` is a story in which one
  input is lost and another goes to a point that was not asked for.
-/

namespace EffectLoop

variable {F Co Fu : Type}

/-! ## Points around a poll -/

/-- The suspension points of a tree that stands at `place`. -/
def Tree.pointsAt (place : List Side) (tree : Tree F) : List (Point F) :=
  tree.points.map fun p => { p with place := place ++ p.place }

/-- The suspension points to the left of the part being polled. -/
def leftOf : List (Crumb F) → List (Point F)
  | [] => []
  | .left _ _ :: path => leftOf path
  | .right left _ :: path => leftOf path ++ left.pointsAt (placeOf path ++ [.left])

/-- The suspension points to the right of the part being polled. -/
def rightOf : List (Crumb F) → List (Point F)
  | [] => []
  | .left right _ :: path => right.pointsAt (placeOf path ++ [.right]) ++ rightOf path
  | .right _ _ :: path => rightOf path

/-- In some pair of branches the one stands in the left, the other in the right. -/
def Point.Before (p q : Point F) : Prop :=
  ∃ place l r, p.place = place ++ .left :: l ∧ q.place = place ++ .right :: r

@[simp] theorem Tree.pointsAt_code (place : List Side) (f : F) :
    (Tree.code f).pointsAt place = [] := rfl

@[simp] theorem Tree.pointsAt_foreign (place : List Side) (w : Wait) (k : Resume → F) :
    (Tree.foreign w k).pointsAt place = [] := rfl

@[simp] theorem Tree.pointsAt_finished (place : List Side) (r : Resume) :
    (Tree.finished r : Tree F).pointsAt place = [] := rfl

@[simp] theorem Tree.pointsAt_suspended (place : List Side) (k : Resume → F) :
    (Tree.suspended k).pointsAt place = [⟨place, k⟩] := by
  simp [pointsAt, points]

@[simp] theorem Tree.pointsAt_both (place : List Side) (left right : Tree F)
    (k : Resume → Resume → F) : (Tree.both left right k).pointsAt place =
      left.pointsAt (place ++ [.left]) ++ right.pointsAt (place ++ [.right]) := by
  simp [pointsAt, points, Function.comp_def]

theorem Tree.pointsAt_nil (tree : Tree F) : tree.pointsAt [] = tree.points := List.map_id _

theorem Tree.exists_place_of_mem {place : List Side} {tree : Tree F} {q : Point F}
    (h : q ∈ tree.pointsAt place) : ∃ rest, q.place = place ++ rest := by
  obtain ⟨p, _, rfl⟩ := List.mem_map.mp h
  exact ⟨p.place, rfl⟩

/-- What stands in the part being polled comes before all that is to the right of it. -/
theorem before_of_mem_rightOf {path : List (Crumb F)} {p q : Point F} {rest : List Side}
    (hp : p.place = placeOf path ++ rest) (hq : q ∈ rightOf path) : p.Before q := by
  induction path generalizing rest with
  | nil => cases hq
  | cons crumb path ih =>
    rw [placeOf_cons, List.append_assoc] at hp
    cases crumb with
    | right left k => exact ih hp hq
    | left right k =>
      rcases List.mem_append.mp hq with hq | hq
      · obtain ⟨rest', hq⟩ := Tree.exists_place_of_mem hq
        rw [List.append_assoc] at hq
        exact ⟨placeOf path, rest, rest', hp, hq⟩
      · exact ih hp hq

/-! ## One step -/

/-- A poll as the outstanding suspension points see it: those it has visited and those it has not, from
left to right, and the exchange. -/
structure Sweep (F : Type) where
  visited : List (Point F)
  ahead : List (Point F)
  exchange : Exchange

/-- A poll under way, as a sweep. -/
def Poll.sweep (exchange : Exchange) : Poll F → Sweep F
  | ⟨path, focus, true⟩ => ⟨leftOf path, focus.pointsAt (placeOf path) ++ rightOf path, exchange⟩
  | ⟨path, focus, false⟩ => ⟨leftOf path ++ focus.pointsAt (placeOf path), rightOf path, exchange⟩

/-- What a step of a poll can do to the outstanding suspension points. -/
inductive Sweep.Next : Sweep F → List (PollEvent F) → Sweep F → Prop
  | still (s : Sweep F) : Next s [] s
  | accepted {visited ahead : List (Point F)} {input : Option Resume} (y : Yielded) (point : Point F)
      (h : ∀ q ∈ ahead, point.Before q) : Next ⟨visited, ahead, ⟨none, input⟩⟩
        [.accepted y point] ⟨visited ++ [point], ahead, ⟨some y, none⟩⟩
  | rejected {visited ahead : List (Point F)} {pending : Yielded} {input : Option Resume}
      (y : Yielded) (point : Point F) : Next ⟨visited, ahead, ⟨some pending, input⟩⟩
        [.rejected y point] ⟨visited, ahead, ⟨some pending, input⟩⟩
  | delivered {visited ahead : List (Point F)} {pending : Option Yielded} (point : Point F)
      (input : Resume) : Next ⟨visited, point :: ahead, ⟨pending, some input⟩⟩
        [.delivered point input] ⟨visited, ahead, ⟨pending, none⟩⟩
  | passed {visited ahead : List (Point F)} {pending : Option Yielded} (point : Point F) :
      Next ⟨visited, point :: ahead, ⟨pending, none⟩⟩ []
        ⟨visited ++ [point], ahead, ⟨pending, none⟩⟩

theorem Sweep.Next.of_eq {s s' : Sweep F} (h : s = s') : s.Next [] s' := h ▸ .still s

/-- What a step makes of a sweep: it goes on, or a yield is returned after all points were visited, or
the block is over. -/
inductive Swept (started : Bool) (s : Sweep F) :
    List (PollEvent F) → Progress (Block F) → Prop
  | more {events : List (PollEvent F)} {ex : Exchange} {poll : Poll F}
      (h : s.Next events (poll.sweep ex)) : Swept started s events (.more ⟨ex, started, .polling poll⟩)
  | nested {key : DriverKey} {k : Option Outcome → Block F}
      (h : ∀ o, ∃ ex poll, k o = ⟨ex, started, .polling poll⟩ ∧ s.Next [] (poll.sweep ex)) :
      Swept started s [] (.poll key k)
  | yield {y : Yielded} {input : Option Resume} {tree : Tree F}
      (h : s = ⟨tree.points, [], ⟨some y, input⟩⟩) :
      Swept started s [] (.yield y ⟨⟨none, input⟩, started, .resting tree⟩)
  | done {events : List (PollEvent F)} {ex : Exchange} {o : Outcome} (hahead : s.ahead = [])
      (h : ∀ event ∈ events, ∃ r, event = .returned r) :
      Swept started s events (.done o ⟨ex, started, .over⟩)

section

variable {run : F → Act Co Fu (Stage F)} {ex : Exchange} {started : Bool} {path : List (Crumb F)}
  {events : List (PollEvent F)} {progress : Progress (Block F)}

/-- A wait for something else moves no suspension point. -/
theorem swept_foreign {w : Wait} {k : Resume → F}
    (h : (Block.descend run ⟨ex, started, .polling ⟨path, .foreign w k, true⟩⟩ path
      (.foreign w k)).Ends progress) :
    Swept started (Poll.sweep ex ⟨path, .foreign w k, true⟩) [] progress := by
  have hcode : ∀ f : F, Sweep.Next (Poll.sweep ex ⟨path, .foreign w k, true⟩) []
      (Poll.sweep ex ⟨path, .code f, true⟩) := fun f => .still _
  have hrest : Sweep.Next (Poll.sweep ex ⟨path, .foreign w k, true⟩) []
      (Poll.sweep ex ⟨path, .foreign w k, false⟩) := by
    simp only [Poll.sweep, Tree.pointsAt_foreign, List.append_nil, List.nil_append]
    exact .still _
  cases w with
  | turn =>
    cases Act.ends_ret.mp h
    exact .more (hcode _)
  | nested key =>
    cases Act.ends_ret.mp h
    refine .nested fun o => ?_
    cases o with
    | some outcome => exact ⟨_, _, rfl, hcode _⟩
    | none => exact ⟨_, _, rfl, hrest⟩
  | _ =>
    cases h with
    | ask r h =>
      cases r with
      | some r =>
        cases Act.ends_ret.mp h
        exact .more (hcode _)
      | none =>
        cases Act.ends_ret.mp h
        exact .more hrest

/-- **Every step of a poll is a step of its sweep.** -/
theorem swept {poll : Poll F}
    (hs : Block.PollStep run ⟨ex, started, .polling poll⟩ events progress) :
    Swept started (poll.sweep ex) events progress := by
  cases hs with
  | foreign h => exact swept_foreign h
  | returned => exact .done rfl (List.forall_mem_singleton.mpr ⟨_, rfl⟩)
  | stuck h => exact .done rfl (List.forall_mem_nil _)
  | yielded h =>
    refine .yield ?_
    simp [Poll.sweep, leftOf, rightOf, placeOf, Tree.pointsAt_nil]
  | awaits h =>
    rename_i w k
    cases w <;> exact .more (.of_eq (by simp [Poll.sweep]))
  | accepted h =>
    refine .more ?_
    simp only [Poll.sweep, Tree.pointsAt_code, Tree.pointsAt_suspended]
    refine .accepted _ _ fun q hq => ?_
    exact before_of_mem_rightOf (List.append_nil _).symm hq
  | rejected h => exact .more (.rejected _ _)
  | delivered =>
    refine .more ?_
    simp only [Poll.sweep, Tree.pointsAt_code, Tree.pointsAt_suspended]
    exact .delivered _ _
  | unanswered =>
    refine .more ?_
    simp only [Poll.sweep, Tree.pointsAt_suspended]
    exact .passed _
  -- The other steps move between parts of the tree, past no suspension point.
  | rest h | turn | fork | join =>
    refine .more (.of_eq ?_)
    simp [Poll.sweep, leftOf, rightOf, placeOf_cons, Crumb.side]
  | _ => exact .more (.of_eq (by simp [Poll.sweep]))

end

/-! ## Whole polls -/

/-- What a poll has made of its input and of the points `os` that were outstanding before it: which
points were accepted so far, and which got an input. -/
inductive Hearing (input : Option Resume) (os : List (Point F)) :
    List (Yielded × Point F) → List (Point F × Resume) → Sweep F → Prop
  /-- No point was visited, none accepted. -/
  | waiting : Hearing input os [] [] ⟨[], os, ⟨none, input⟩⟩
  /-- The first one got the input. -/
  | delivered {point : Point F} {i : Resume} {visited ahead : List (Point F)}
      (hos : os = point :: (visited ++ ahead)) (hi : input = some i) :
      Hearing input os [] [(point, i)] ⟨visited, ahead, ⟨none, none⟩⟩
  /-- After that another one was accepted. -/
  | answered {point fresh : Point F} {i : Resume} {y : Yielded}
      {pre post visited ahead : List (Point F)} (hos : os = point :: (pre ++ post))
      (hi : input = some i) (hnow : visited ++ ahead = pre ++ fresh :: post) :
      Hearing input os [(y, fresh)] [(point, i)] ⟨visited, ahead, ⟨some y, none⟩⟩
  /-- Another one was accepted before, and the input is lost. -/
  | overtaken {fresh : Point F} {y : Yielded} {visited ahead : List (Point F)}
      (hnow : visited ++ ahead = fresh :: os) (hbefore : ∀ q ∈ os, fresh.Before q) :
      Hearing input os [(y, fresh)] [] ⟨visited, ahead, ⟨some y, none⟩⟩

namespace Hearing

variable {input : Option Resume} {os : List (Point F)} {accepted : List (Yielded × Point F)}
  {delivered : List (Point F × Resume)} {s s' : Sweep F} {events : List (PollEvent F)}

/-- A poll that was given no input has no point to visit. -/
theorem next (h : Hearing input os accepted delivered s) (hos : input = none → os = [])
    (hn : s.Next events s') :
    Hearing input os (accepted ++ events.filterMap PollEvent.accepted?)
      (delivered ++ events.filterMap PollEvent.delivered?) s' := by
  cases hn with
  | still _ =>
    rw [List.filterMap_nil, List.filterMap_nil, List.append_nil, List.append_nil]
    exact h
  | accepted y point hbefore =>
    cases h with
    | waiting => exact .overtaken rfl hbefore
    | delivered hos' hi => exact .answered hos' hi (by simp)
  | rejected y point =>
    cases h with
    | answered hos' hi hnow => exact .answered hos' hi hnow
    | overtaken hnow hbefore => exact .overtaken hnow hbefore
  | delivered point i =>
    cases h with
    | waiting => exact .delivered rfl rfl
  | passed point =>
    rw [List.filterMap_nil, List.filterMap_nil, List.append_nil, List.append_nil]
    cases h with
    | waiting => exact absurd (hos rfl) (List.cons_ne_nil _ _)
    | delivered hos' hi => exact .delivered (by rw [hos', List.append_assoc]; rfl) hi
    | answered hos' hi hnow => exact .answered hos' hi (by rw [← hnow, List.append_assoc]; rfl)
    | overtaken hnow hbefore =>
      exact .overtaken (by rw [← hnow, List.append_assoc]; rfl) hbefore

/-- With a yield pending no input is left. -/
theorem exchange_eq (h : Hearing input os accepted delivered s) {y : Yielded}
    (hy : s.exchange.yielded = some y) : s.exchange = ⟨some y, none⟩ := by
  cases h with
  | waiting => cases hy
  | delivered hos hi => cases hy
  | answered hos hi hnow =>
    cases hy
    rfl
  | overtaken hnow hbefore =>
    cases hy
    rfl

/-- How a poll ends. -/
inductive Ends (input : Option Resume) (os : List (Point F)) (started : Bool)
    (accepted : List (Yielded × Point F)) (delivered : List (Point F × Resume)) :
    Step → Block F → Prop
  | yield {y : Yielded} {tree : Tree F}
      (h : Hearing input os accepted delivered ⟨tree.points, [], ⟨some y, none⟩⟩) :
      Ends input os started accepted delivered (.yield y) ⟨{}, started, .resting tree⟩
  | done {o : Outcome} {visited : List (Point F)} {ex ex' : Exchange}
      (h : Hearing input os accepted delivered ⟨visited, [], ex⟩) :
      Ends input os started accepted delivered (.done o) ⟨ex', started, .over⟩

/-- **A poll that finishes has dealt with its input and the points in one of these ways.** -/
theorem ends {run : F → Act Co Fu (Stage F)} {ex : Exchange} {started : Bool} {poll : Poll F}
    {step : Step} {b : Block F} (h : Hearing input os accepted delivered (poll.sweep ex))
    (hos : input = none → os = [])
    (hp : Block.Polls run ⟨ex, started, .polling poll⟩ events step b) :
    Ends input os started (accepted ++ events.filterMap PollEvent.accepted?)
      (delivered ++ events.filterMap PollEvent.delivered?) step b := by
  generalize hb : (⟨ex, started, .polling poll⟩ : Block F) = first at hp
  induction hp generalizing accepted delivered ex poll with
  | yield hs =>
    subst hb
    have hswept := swept hs
    generalize poll.sweep ex = s at h hswept
    cases hswept with
    | yield hall =>
      subst hall
      cases h.exchange_eq rfl
      rw [List.filterMap_nil, List.filterMap_nil, List.append_nil, List.append_nil]
      exact .yield h
  | done hs =>
    subst hb
    have hswept := swept hs
    generalize poll.sweep ex = s at h hswept
    obtain ⟨visited, ahead, ex⟩ := s
    cases hswept with
    | done hahead hr =>
      subst hahead
      have hnone : ∀ {α : Type} {f : PollEvent F → Option α}, (∀ r, f (.returned r) = none) →
          List.filterMap f _ = [] := fun hf => List.filterMap_eq_nil_iff.mpr fun event hevent => by
        obtain ⟨r, rfl⟩ := hr event hevent
        exact hf r
      rw [hnone fun _ => rfl, hnone fun _ => rfl, List.append_nil, List.append_nil]
      exact .done h
  | more hs _ ih =>
    subst hb
    cases swept hs with
    | more hn =>
      rw [List.filterMap_append, List.filterMap_append, ← List.append_assoc, ← List.append_assoc]
      exact ih (h.next hos hn) rfl
  | nested o hs _ ih =>
    subst hb
    cases swept hs with
    | nested hk =>
      obtain ⟨ex', poll', hko, hn⟩ := hk o
      rw [List.filterMap_append, List.filterMap_append, ← List.append_assoc, ← List.append_assoc]
      exact ih (h.next hos hn) hko.symm

/-- The points that were accepted are new, those that got an input are gone, all others are kept. -/
theorem perm (h : Hearing input os accepted delivered s) :
    (accepted.map Prod.snd ++ os).Perm (delivered.map Prod.fst ++ (s.visited ++ s.ahead)) := by
  cases h with
  | waiting => exact .refl _
  | delivered hos hi =>
    rw [hos]
    exact .refl _
  | answered hos hi hnow =>
    rw [hos, hnow]
    exact (List.Perm.swap _ _ _).trans (List.perm_middle.symm.cons _)
  | overtaken hnow hbefore =>
    rw [hnow]
    exact .refl _

/-- The input went to the first point, or a point that is before all others was accepted. -/
theorem delivered_eq (h : Hearing input os accepted delivered s) (hahead : s.ahead = []) {i : Resume}
    (hi : ∀ i', input = some i' → i' = i) :
    delivered = os.head?.toList.map (fun point => (point, i)) ∨
      delivered = [] ∧ ∃ y point, accepted = [(y, point)] ∧ ∀ q ∈ os, point.Before q := by
  cases h with
  | waiting =>
    cases hahead
    exact .inl rfl
  | delivered hos hi' =>
    cases hi _ hi'
    rw [hos]
    exact .inl rfl
  | answered hos hi' hnow =>
    cases hi _ hi'
    rw [hos]
    exact .inl rfl
  | overtaken hnow hbefore => exact .inr ⟨rfl, _, _, rfl, hbefore⟩

/-- A yield that is pending is that of the point that was accepted, which is outstanding now. -/
theorem accepted_eq (h : Hearing input os accepted delivered s) {y : Yielded}
    (hy : s.exchange.yielded = some y) : ∃ point pre post, accepted = [(y, point)] ∧
      s.visited ++ s.ahead = pre ++ point :: post ∧
      os = delivered.map Prod.fst ++ (pre ++ post) := by
  cases h with
  | waiting => cases hy
  | delivered hos hi => cases hy
  | answered hos hi hnow =>
    cases hy
    exact ⟨_, _, _, rfl, hnow, hos⟩
  | overtaken hnow hbefore =>
    cases hy
    exact ⟨_, [], _, rfl, hnow, rfl⟩

end Hearing

/-! ## Three branches -/

/-- Wait for a gate, then yield. -/
def Code.gated (gate : String) (y : Yielded) : Code := .wait (.gate gate) fun _ => .suspend y .done

/-- Three branches, of which the outer ones wait for a gate before they yield. -/
def Code.threeBranches (x y z : Yielded) : Code :=
  .both (.both (.gated "left" x) (.suspend y .done) fun r _ => .done r) (.gated "right" z)
    fun r _ => .done r

section

variable (x y z : Yielded) (null i j k : Resume)

/-- With the gates closed the branch in the middle yields, with the left gate open the left one, and
with the right gate open the right one. -/
theorem story_threeBranches :
    Block.Story (Code.stage : Code → Act Co Code (Stage Code)) (.ofCode (.threeBranches x y z))
      [⟨null, [.accepted y ⟨[.left, .right], .done⟩], .yield y⟩,
        ⟨i, [.accepted x ⟨[.left, .left], .done⟩], .yield x⟩,
        ⟨j, [.delivered ⟨[.left, .left], .done⟩ j, .accepted z ⟨[.right], .done⟩], .yield z⟩]
      ⟨{}, true, .resting (.both (.both (.finished j) (.suspended .done) fun r _ => .done r)
        (.suspended .done) fun r _ => .done r)⟩ := by
  have hfirst : Block.Polls (Code.stage : Code → Act Co Code (Stage Code))
      ((Block.ofCode (.threeBranches x y z)).resume null) _ _ _ :=
    .more (.both (.ret _)) <| .more .fork <| .more (.both (.ret _)) <| .more .fork <|
      .more (.awaits (.ret _)) <| .more (.foreign (.ask none (.ret _))) <| .more .turn <|
      .more (.accepted (.ret _)) <| .more (.rest nofun) <| .more .turn <|
      .more (.awaits (.ret _)) <| .more (.foreign (.ask none (.ret _))) <| .more (.rest nofun) <|
      .yield (.yielded nofun)
  have hsecond : Block.Polls (Code.stage : Code → Act Co Code (Stage Code))
      (Block.resume ⟨{}, true, .resting (.both
        (.both (.foreign (.gate "left") fun _ => .suspend x .done) (.suspended .done) fun r _ => .done r)
        (.foreign (.gate "right") fun _ => .suspend z .done) fun r _ => .done r)⟩ i) _ _ _ :=
    .more .fork <| .more .fork <| .more (.foreign (.ask (some null) (.ret _))) <|
      .more (.accepted (.ret _)) <| .more .turn <| .more .unanswered <| .more (.rest nofun) <|
      .more .turn <| .more (.foreign (.ask none (.ret _))) <| .more (.rest nofun) <|
      .yield (.yielded nofun)
  have hthird : Block.Polls (Code.stage : Code → Act Co Code (Stage Code))
      (Block.resume ⟨{}, true, .resting (.both
        (.both (.suspended .done) (.suspended .done) fun r _ => .done r)
        (.foreign (.gate "right") fun _ => .suspend z .done) fun r _ => .done r)⟩ j) _ _ _ :=
    .more .fork <| .more .fork <| .more .delivered <| .more (.done (.ret _)) <| .more .turn <|
      .more .unanswered <| .more (.rest fun _ _ _ => nofun) <| .more .turn <|
      .more (.foreign (.ask (some null) (.ret _))) <| .more (.accepted (.ret _)) <|
      .more (.rest nofun) <| .yield (.yielded nofun)
  exact .snoc (.snoc (.snoc .nil hfirst) hsecond) hthird

/-- What the right branch yielded for goes to the branch in the middle. -/
theorem polls_threeBranches :
    Block.Polls (Code.stage : Code → Act Co Code (Stage Code))
      (Block.resume ⟨{}, true, .resting (.both
        (.both (.finished j) (.suspended .done) fun r _ => .done r)
        (.suspended .done) fun r _ => .done r)⟩ k)
      [.delivered ⟨[.left, .right], .done⟩ k] (.done (.error Block.foreignAwait))
      ⟨{}, true, .over⟩ := by
  have hpolls : Block.Polls (Code.stage : Code → Act Co Code (Stage Code))
      (Block.resume ⟨{}, true, .resting (.both
        (.both (.finished j) (.suspended .done) fun r _ => .done r)
        (.suspended .done) fun r _ => .done r)⟩ k) _ _ _ :=
    .more .fork <| .more .fork <| .more .finished <| .more .turn <| .more .delivered <|
      .more (.done (.ret _)) <| .more .join <| .more (.done (.ret _)) <| .more .turn <|
      .more .unanswered <| .more (.rest fun _ _ _ => nofun) <| .done (.stuck nofun)
  exact hpolls

end

/-! ## Resume after resume -/

/-- A block between two resumes. -/
inductive Block.AtRest : Block F → Prop
  | fresh (f : F) : AtRest (.ofCode f)
  | waits (tree : Tree F) : AtRest ⟨{}, true, .resting tree⟩
  | finished (ex : Exchange) : AtRest ⟨ex, true, .over⟩

section

variable {run : F → Act Co Fu (Stage F)} {b b' : Block F} {turn : Block.Turn F}

theorem Hearing.Ends.atRest {input : Option Resume} {os : List (Point F)}
    {accepted : List (Yielded × Point F)} {delivered : List (Point F × Resume)} {step : Step}
    (h : Hearing.Ends input os true accepted delivered step b') : b'.AtRest := by
  cases h with
  | yield _ => exact .waits _
  | done _ => exact .finished _

/-- A block that is over does nothing; any other hears the input. -/
theorem Block.AtRest.hears (h : b.AtRest)
    (hp : Block.Polls run (b.resume turn.input) turn.events turn.step b') :
    (b.state = .over ∧ b' = b ∧ turn = ⟨turn.input, [], .done (.error Block.completed)⟩) ∨
      b.state ≠ .over ∧ ∃ input, (∀ i, input = some i → i = turn.input) ∧
        Hearing.Ends input b.outstanding true turn.accepted turn.delivered turn.step b' := by
  cases h with
  | fresh f =>
    refine .inr ⟨nofun, none, nofun, ?_⟩
    have hwaiting : Hearing none [] [] [] (Poll.sweep ⟨none, none⟩ ⟨[], .code f, true⟩) := .waiting
    exact hwaiting.ends (fun _ => rfl) hp
  | waits tree =>
    refine .inr ⟨nofun, some turn.input, fun i hi => (Option.some.inj hi).symm, ?_⟩
    have hwaiting : Hearing (some turn.input) tree.points [] []
        (Poll.sweep ⟨none, some turn.input⟩ ⟨[], tree, true⟩) := by
      simp only [Poll.sweep, leftOf, rightOf, placeOf, List.map_nil, List.reverse_nil,
        Tree.pointsAt_nil, List.append_nil]
      exact .waiting
    exact hwaiting.ends nofun hp
  | finished ex =>
    obtain ⟨input, events, step⟩ := turn
    cases hp with
    | yield hs => cases hs
    | done hs =>
      cases hs with
      | completed => exact .inl ⟨rfl, rfl, rfl⟩
    | more hs _ => cases hs
    | nested o hs _ => cases hs

theorem Block.AtRest.of_story {f : F} {turns : List (Block.Turn F)}
    (h : Block.Story run (.ofCode f) turns b) : b.AtRest := by
  induction h with
  | nil => exact .fresh f
  | snoc _ hp ih =>
    rcases ih.hears hp with ⟨_, rfl, _⟩ | ⟨_, _, _, hends⟩
    · exact ih
    · exact hends.atRest

/-- Every suspension point that was accepted got one input, or is outstanding, or was left behind when
the block ended. -/
theorem perm_of_story {f : F} {turns : List (Block.Turn F)}
    (h : Block.Story run (.ofCode f) turns b) : ∃ left : List (Point F),
      (b.state ≠ .over → left = []) ∧
      ((turns.flatMap Block.Turn.accepted).map Prod.snd).Perm
        ((turns.flatMap Block.Turn.delivered).map Prod.fst ++ (b.outstanding ++ left)) := by
  induction h with
  | nil => exact ⟨[], fun _ => rfl, .refl _⟩
  | snoc hs hp ih =>
    rename_i turns b b' turn
    obtain ⟨left, hleft, hperm⟩ := ih
    simp only [List.flatMap_append, List.map_append, List.flatMap_singleton]
    rcases (Block.AtRest.of_story hs).hears hp with ⟨_, rfl, hturn⟩ | ⟨hlive, input, _, hends⟩
    · refine ⟨left, hleft, ?_⟩
      rw [hturn]
      simpa [Block.Turn.accepted, Block.Turn.delivered] using hperm
    · rw [hleft hlive, List.append_nil] at hperm
      -- What was accepted before and in this turn, less what got an input, is all there is now.
      have hnow : ∀ now, (turn.accepted.map Prod.snd ++ b.outstanding).Perm
          (turn.delivered.map Prod.fst ++ now) →
          ((turns.flatMap Block.Turn.accepted).map Prod.snd ++ turn.accepted.map Prod.snd).Perm
            ((turns.flatMap Block.Turn.delivered).map Prod.fst ++
              turn.delivered.map Prod.fst ++ now) := by
        intro now hturn
        refine (hperm.append_right _).trans ?_
        rw [List.append_assoc, List.append_assoc]
        exact (List.perm_append_comm.trans hturn).append_left _
      generalize turn.step = step at hends
      cases hends with
      | yield hh => exact ⟨[], fun _ => rfl, hnow _ hh.perm⟩
      | done hh => exact ⟨_, fun hover => absurd rfl hover, hnow _ hh.perm⟩

/-- **An input goes to the leftmost outstanding suspension point**, whichever was accepted last, in
every resume of every block. It is lost only if a branch further left yields first in that poll. A yield
that is returned is that of the one point accepted in this resume, which then takes its place among the
others. So every point gets at most one input, after it was accepted, and as long as the block is not
over none is lost. -/
theorem inputs_go_left {f : F} {turns : List (Block.Turn F)}
    (h : Block.Story run (.ofCode f) turns b) :
    (∃ left : List (Point F), (b.state ≠ .over → left = []) ∧
      ((turns.flatMap Block.Turn.accepted).map Prod.snd).Perm
        ((turns.flatMap Block.Turn.delivered).map Prod.fst ++ (b.outstanding ++ left))) ∧
    ∀ (turn : Block.Turn F) (b' : Block F),
      Block.Polls run (b.resume turn.input) turn.events turn.step b' →
      (turn.delivered = b.outstanding.head?.toList.map (fun point => (point, turn.input)) ∨
        turn.delivered = [] ∧ ∃ y point, turn.accepted = [(y, point)] ∧
          ∀ q ∈ b.outstanding, point.Before q) ∧
      ∀ y, turn.step = .yield y → ∃ point pre post, turn.accepted = [(y, point)] ∧
        b'.outstanding = pre ++ point :: post ∧
        b.outstanding = turn.delivered.map Prod.fst ++ (pre ++ post) := by
  refine ⟨perm_of_story h, fun turn b' hp => ?_⟩
  rcases (Block.AtRest.of_story h).hears hp with ⟨hover, rfl, hturn⟩ | ⟨_, input, hinput, hends⟩
  · obtain ⟨ex, started, state⟩ := b'
    cases hover
    rw [hturn]
    exact ⟨.inl rfl, nofun⟩
  · generalize turn.step = step at hends
    cases hends with
    | yield hh =>
      refine ⟨hh.delivered_eq rfl hinput, fun y hy => ?_⟩
      cases hy
      obtain ⟨point, pre, post, haccepted, hnow, hos⟩ := hh.accepted_eq rfl
      rw [List.append_nil] at hnow
      exact ⟨point, pre, post, haccepted, hnow, hos⟩
    | done hh =>
      refine ⟨hh.delivered_eq rfl hinput, fun y hy => ?_⟩
      cases hy

end

/-- The input that follows the yield of the right branch goes to the branch in the middle. -/
theorem threeBranches_input_goes_left :
    ∃ (turns : List (Block.Turn Code)) (b b' : Block Code) (turn : Block.Turn Code),
      Block.Story (Code.stage : Code → Act Unit Code (Stage Code))
        (.ofCode (.threeBranches (.pass (.value .null)) (.pass (.value .null)) (.pass (.value .null))))
        turns b ∧
      Block.Polls (Code.stage : Code → Act Unit Code (Stage Code)) (b.resume turn.input) turn.events
        turn.step b' ∧
      b.outstanding.map Point.place = [[.left, .right], [.right]] ∧
      (turn.delivered = b.outstanding.head?.toList.map (fun point => (point, turn.input)) ∨
        turn.delivered = [] ∧ ∃ y point, turn.accepted = [(y, point)] ∧
          ∀ q ∈ b.outstanding, point.Before q) := by
  have hstory : Block.Story (Code.stage : Code → Act Unit Code (Stage Code)) _ _ _ :=
    story_threeBranches (.pass (.value .null)) (.pass (.value .null)) (.pass (.value .null))
      (.ok (.value .null)) (.ok (.value .null)) (.ok (.value .null))
  have hpolls : Block.Polls (Code.stage : Code → Act Unit Code (Stage Code)) _ _ _ _ :=
    polls_threeBranches (.ok (.value .null)) (.ok (.value .null))
  obtain ⟨_, hturn⟩ := inputs_go_left hstory
  exact ⟨_, _, _, ⟨_, _, _⟩, hstory, hpolls, rfl, (hturn ⟨_, _, _⟩ _ hpolls).1⟩

/-- The input after a yield is the result of a suspension point that did not yield it. -/
def Block.Turn.Crosses (turn next : Block.Turn F) : Prop :=
  ∃ y point other, turn.step = .yield y ∧ turn.accepted = [(y, point)] ∧
    (other, next.input) ∈ next.delivered ∧ other ≠ point

/-- The input after a yield is lost, and the code yields again. -/
def Block.Turn.Loses (turn next : Block.Turn F) : Prop :=
  (∃ y, turn.step = .yield y) ∧ (∃ y, next.step = .yield y) ∧ next.delivered = []

/-- **Inputs cross**: in a story of three branches one input is lost while the code goes on to yield,
and one is the result of a suspension point whose yield was returned two resumes before. -/
theorem inputs_cross : ∃ (c : Code) (turns : List (Block.Turn Code)) (b : Block Code),
    Block.Story (Code.stage : Code → Act Unit Code (Stage Code)) (.ofCode c) turns b ∧
    (∃ n turn next, turns[n]? = some turn ∧ turns[n + 1]? = some next ∧ turn.Loses next) ∧
    ∃ n turn next, turns[n]? = some turn ∧ turns[n + 1]? = some next ∧ turn.Crosses next := by
  have pass : Yielded := .pass (.value .null)
  have input : Resume := .ok (.value .null)
  have hstory : Block.Story (Code.stage : Code → Act Unit Code (Stage Code)) _
      (_ ++ [⟨input, _, _⟩]) _ :=
    .snoc (story_threeBranches pass pass pass input input input) (polls_threeBranches input input)
  refine ⟨.threeBranches pass pass pass, _, _, hstory, ?_, ?_⟩
  · exact ⟨0, _, _, rfl, rfl, ⟨_, rfl⟩, ⟨_, rfl⟩, rfl⟩
  · refine ⟨2, _, _, rfl, rfl, _, _, _, rfl, rfl, List.mem_singleton.mpr rfl, ?_⟩
    intro h
    cases congrArg Point.place h

end EffectLoop
