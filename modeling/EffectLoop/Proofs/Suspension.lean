import EffectLoop.Proofs.Polls

/-!
# One suspension point at a time

A block may wait at many places at once, but it has one exchange with its resumes. For code that
awaits nothing but its own suspension points the two always fit: between two resumes exactly one
suspension point is outstanding, and the next input is its result.

* `Standing` says how far a poll has come with the one suspension point that matters, `Midway` where
  that point is in the tree meanwhile; every step of a poll keeps it (`Midway.step`).
* `Dialogue` is what the resumes of such a block look like from outside, and `story_is_dialogue` that
  every story of one is a dialogue.
-/

namespace EffectLoop

variable {F Co Fu : Type}

/-- Codes that await nothing but their own suspension points, closed under going on. -/
structure OwnAwaits (run : F → Act Co Fu (Stage F)) (own : F → Prop) : Prop where
  suspend : ∀ f y k, own f → (run f).Ends (.suspend y k) → ∀ r, own (k r)
  both : ∀ f left right k, own f → (run f).Ends (.both left right k) →
    own left ∧ own right ∧ ∀ r r', own (k r r')
  foreign : ∀ f w k, own f → ¬ (run f).Ends (.foreign w k)

/-! ## What the resumes look like -/

/-- The suspension points of a tree that wait for an input. -/
def Tree.points : Tree F → List (Point F)
  | .suspended k => [⟨[], k⟩]
  | .both left right _ =>
    left.points.map (fun p => { p with place := .left :: p.place }) ++
      right.points.map fun p => { p with place := .right :: p.place }
  | _ => []

/-- The suspension points that a block at rest waits at. -/
def Block.outstanding (b : Block F) : List (Point F) :=
  match b.state with
  | .resting tree => tree.points
  | _ => []

/-- How a block stands between two resumes. -/
inductive Outlook (F : Type)
  | fresh
  | waits (point : Point F)
  | closed

/-- The suspension points that are outstanding. -/
def Outlook.points : Outlook F → List (Point F)
  | .waits point => [point]
  | _ => []

/-- An input goes to the suspension point that waits for it; the very first goes to none. -/
def Outlook.delivers (outlook : Outlook F) (input : Resume) : List (PollEvent F) :=
  outlook.points.map fun point => .delivered point input

/-- A suspension point that failed at once. -/
def PollEvent.isRejected : PollEvent F → Bool
  | .rejected _ _ => true
  | _ => false

/-- Resumes of a block, one after the other, and how it stands after them. -/
inductive Dialogue : List (Block.Turn F) → Outlook F → Prop
  | start : Dialogue [] .fresh
  /-- The input is delivered; then the first suspension point that is polled is accepted, its yield is
  returned, and all others fail. -/
  | yield {turns : List (Block.Turn F)} {outlook : Outlook F} (input : Resume) (y : Yielded)
      (point : Point F) {rejections : List (PollEvent F)} (h : Dialogue turns outlook)
      (hlive : outlook ≠ .closed) (hr : ∀ event ∈ rejections, event.isRejected = true) :
      Dialogue (turns ++
        [⟨input, outlook.delivers input ++ .accepted y point :: rejections, .yield y⟩])
        (.waits point)
  /-- The input is delivered, and the code returns. -/
  | done {turns : List (Block.Turn F)} {outlook : Outlook F} (input r : Resume)
      (h : Dialogue turns outlook) (hlive : outlook ≠ .closed) :
      Dialogue (turns ++
        [⟨input, outlook.delivers input ++ [.returned r], .done (r.map Output.wire)⟩]) .closed
  /-- Nothing happens any more. -/
  | after {turns : List (Block.Turn F)} (input : Resume) (h : Dialogue turns .closed) :
      Dialogue (turns ++ [⟨input, [], .done (.error Block.completed)⟩]) .closed

/-! ## Where the suspension point is -/

section

variable (own : F → Prop)

/-- All of the tree has finished but for one suspension point. -/
inductive Tree.Spine : Tree F → List Side → (Resume → F) → Prop
  | here {k : Resume → F} (hk : ∀ r, own (k r)) : Spine (.suspended k) [] k
  | left {tree : Tree F} {place : List Side} {next : Resume → F} {r : Resume}
      {k : Resume → Resume → F} (h : Spine tree place next) (hk : ∀ r r', own (k r r')) :
      Spine (.both tree (.finished r) k) (.left :: place) next
  | right {tree : Tree F} {place : List Side} {next : Resume → F} {r : Resume}
      {k : Resume → Resume → F} (h : Spine tree place next) (hk : ∀ r r', own (k r r')) :
      Spine (.both (.finished r) tree k) (.right :: place) next

/-- A part that is still to be polled, with nothing outstanding in it. -/
inductive Tree.Ready : Tree F → Prop
  | code {f : F} (hf : own f) : Ready (.code f)
  | finished (r : Resume) : Ready (.finished r)
  | both {left right : F} {k : Resume → Resume → F} (hl : own left) (hr : own right)
      (hk : ∀ r r', own (k r r')) : Ready (.both (.code left) (.code right) k)

/-- Nothing is outstanding beside the part being polled. -/
inductive Crumb.Clear : Crumb F → Prop
  | left {right : Tree F} {k : Resume → Resume → F} (h : right.Ready own)
      (hk : ∀ r r', own (k r r')) : Clear (.left right k)
  | right {r : Resume} {k : Resume → Resume → F} (hk : ∀ r r', own (k r r')) :
      Clear (.right (.finished r) k)

/-- All has finished beside the part being polled. -/
inductive Crumb.Shut : Crumb F → Prop
  | left {r : Resume} {k : Resume → Resume → F} (hk : ∀ r r', own (k r r')) :
      Shut (.left (.finished r) k)
  | right {r : Resume} {k : Resume → Resume → F} (hk : ∀ r r', own (k r r')) :
      Shut (.right (.finished r) k)

/-- How far a poll has come with the one suspension point that matters. -/
inductive Standing (F : Type)
  /-- It is still to get the input. -/
  | owed (point : Point F) (input : Resume)
  /-- There is none. -/
  | clear
  /-- It has handed out its yield. -/
  | held (y : Yielded) (point : Point F)

/-- Where that suspension point is in the middle of a poll, and what the exchange holds. -/
inductive Midway : Standing F → Exchange → Poll F → Prop
  /-- It is in the part that is to be polled, -/
  | ahead {point : Point F} {path : List (Crumb F)} {focus : Tree F} {place : List Side}
      {input : Resume} (hpath : ∀ crumb ∈ path, crumb.Shut own)
      (h : focus.Spine own place point.next) (hplace : point.place = placeOf path ++ place) :
      Midway (.owed point input) ⟨none, some input⟩ ⟨path, focus, true⟩
  /-- or to the right of it. -/
  | beyond {point : Point F} {path : List (Crumb F)} {right : Tree F} {k : Resume → Resume → F}
      {place : List Side} {input r : Resume} {down : Bool}
      (hpath : ∀ crumb ∈ path, crumb.Shut own) (h : right.Spine own place point.next)
      (hplace : point.place = placeOf path ++ .right :: place) (hk : ∀ r r', own (k r r')) :
      Midway (.owed point input) ⟨none, some input⟩ ⟨.left right k :: path, .finished r, down⟩
  | ready {path : List (Crumb F)} {focus : Tree F} (hpath : ∀ crumb ∈ path, crumb.Clear own)
      (h : focus.Ready own) : Midway .clear ⟨none, none⟩ ⟨path, focus, true⟩
  | finished {path : List (Crumb F)} {r : Resume} (hpath : ∀ crumb ∈ path, crumb.Clear own) :
      Midway .clear ⟨none, none⟩ ⟨path, .finished r, false⟩
  /-- It is in the part that was polled, -/
  | here {point : Point F} {path : List (Crumb F)} {focus : Tree F} {place : List Side}
      {y : Yielded} (hpath : ∀ crumb ∈ path, crumb.Clear own)
      (h : focus.Spine own place point.next) (hplace : point.place = placeOf path ++ place) :
      Midway (.held y point) ⟨some y, none⟩ ⟨path, focus, false⟩
  /-- or to the left of what is polled now. -/
  | behind {point : Point F} {inner outer : List (Crumb F)} {left focus : Tree F}
      {k : Resume → Resume → F} {place : List Side} {y : Yielded} {down : Bool}
      (hinner : ∀ crumb ∈ inner, crumb.Clear own) (houter : ∀ crumb ∈ outer, crumb.Clear own)
      (h : left.Spine own place point.next)
      (hplace : point.place = placeOf outer ++ .left :: place) (hk : ∀ r r', own (k r r'))
      (hfocus : focus.Ready own) (hup : down = false → ∃ r, focus = .finished r) :
      Midway (.held y point) ⟨some y, none⟩ ⟨inner ++ .right left k :: outer, focus, down⟩

end

/-- What may happen to suspension points in a step. -/
inductive Standing.Next : Standing F → List (PollEvent F) → Standing F → Prop
  | still (standing : Standing F) : Next standing [] standing
  | delivered (point : Point F) (input : Resume) :
      Next (.owed point input) [.delivered point input] .clear
  | accepted (y : Yielded) (point : Point F) : Next .clear [.accepted y point] (.held y point)
  | rejected (y y' : Yielded) (point point' : Point F) :
      Next (.held y point) [.rejected y' point'] (.held y point)

variable {own : F → Prop}

theorem Crumb.Shut.clear {crumb : Crumb F} (h : crumb.Shut own) : crumb.Clear own := by
  cases h with
  | left hk => exact .left (.finished _) hk
  | right hk => exact .right hk

theorem Tree.Spine.ne_finished {tree : Tree F} {place : List Side} {next : Resume → F}
    (h : tree.Spine own place next) (r : Resume) : tree ≠ .finished r := by
  rintro rfl
  cases h

/-- The one suspension point is all that a spine has outstanding. -/
theorem Tree.Spine.points_eq {tree : Tree F} {place : List Side} {next : Resume → F}
    (h : tree.Spine own place next) : tree.points = [⟨place, next⟩] := by
  induction h with
  | here hk => rfl
  | left h hk ih =>
    unfold Tree.points
    rw [ih]
    rfl
  | right h hk ih =>
    unfold Tree.points
    rw [ih]
    rfl

theorem placeOf_cons (crumb : Crumb F) (path : List (Crumb F)) :
    placeOf (crumb :: path) = placeOf path ++ [crumb.side] := List.reverse_cons

/-! ## One step -/

/-- What a step makes of a poll: it goes on, or a yield is returned with one suspension point
outstanding, or the code has returned with none. -/
inductive Stepped (own : F → Prop) (started : Bool) :
    Standing F → List (PollEvent F) → Progress (Block F) → Prop
  | more {standing standing' : Standing F} {events : List (PollEvent F)} {ex : Exchange}
      {poll : Poll F} (hn : standing.Next events standing') (h : Midway own standing' ex poll) :
      Stepped own started standing events (.more ⟨ex, started, .polling poll⟩)
  | yield {y : Yielded} {point : Point F} {tree : Tree F}
      (h : tree.Spine own point.place point.next) :
      Stepped own started (.held y point) [] (.yield y ⟨{}, started, .resting tree⟩)
  | done (r : Resume) :
      Stepped own started .clear [.returned r] (.done (r.map Output.wire) ⟨{}, started, .over⟩)

section

variable {run : F → Act Co Fu (Stage F)} (hown : OwnAwaits run own) {started : Bool}
  {path : List (Crumb F)} {focus : Tree F} {events : List (PollEvent F)}
  {progress : Progress (Block F)} {point : Point F}

/-- A step towards the suspension point, and at last the delivery. -/
theorem stepped_ahead {place : List Side} {input : Resume}
    (hpath : ∀ crumb ∈ path, crumb.Shut own) (h : focus.Spine own place point.next)
    (hplace : point.place = placeOf path ++ place)
    (hs : Block.PollStep run ⟨⟨none, some input⟩, started, .polling ⟨path, focus, true⟩⟩ events
      progress) : Stepped own started (.owed point input) events progress := by
  obtain ⟨full, next⟩ := point
  cases h with
  | here hk =>
    cases hs with
    | delivered =>
      rw [List.append_nil] at hplace
      subst hplace
      exact .more (.delivered _ _) (.ready (fun c hc => (hpath c hc).clear) (.code (hk input)))
  | left h hk =>
    cases hs with
    | fork =>
      refine .more (.still _) (.ahead (List.forall_mem_cons.mpr ⟨.left hk, hpath⟩) h ?_)
      rw [hplace, placeOf_cons, List.append_assoc]
      rfl
  | right h hk =>
    cases hs with
    | fork => exact .more (.still _) (.beyond hpath h hplace hk)

/-- A step past what has finished to the left of the suspension point. -/
theorem stepped_beyond {right : Tree F} {k : Resume → Resume → F} {place : List Side}
    {input r : Resume} {down : Bool} (hpath : ∀ crumb ∈ path, crumb.Shut own)
    (h : right.Spine own place point.next)
    (hplace : point.place = placeOf path ++ .right :: place) (hk : ∀ r r', own (k r r'))
    (hs : Block.PollStep run
      ⟨⟨none, some input⟩, started, .polling ⟨.left right k :: path, .finished r, down⟩⟩ events
      progress) : Stepped own started (.owed point input) events progress := by
  cases hs with
  | finished => exact .more (.still _) (.beyond hpath h hplace hk)
  | turn =>
    refine .more (.still _) (.ahead (List.forall_mem_cons.mpr ⟨.right hk, hpath⟩) h ?_)
    rw [hplace, placeOf_cons, List.append_assoc]
    rfl

include hown in
/-- A step down into a part while nothing is outstanding. -/
theorem stepped_ready (hpath : ∀ crumb ∈ path, crumb.Clear own) (h : focus.Ready own)
    (hs : Block.PollStep run ⟨⟨none, none⟩, started, .polling ⟨path, focus, true⟩⟩ events
      progress) : Stepped own started .clear events progress := by
  cases h with
  | code hf =>
    cases hs with
    | done _ => exact .more (.still _) (.finished hpath)
    | accepted hend =>
      refine .more (.accepted _ _) (.here hpath (.here (hown.suspend _ _ _ hf hend)) ?_)
      exact (List.append_nil _).symm
    | awaits hend => exact absurd hend (hown.foreign _ _ _ hf)
    | both hend =>
      obtain ⟨hl, hr, hk⟩ := hown.both _ _ _ _ hf hend
      exact .more (.still _) (.ready hpath (.both hl hr hk))
  | finished r =>
    cases hs with
    | finished => exact .more (.still _) (.finished hpath)
  | both hl hr hk =>
    cases hs with
    | fork =>
      have hpath' := List.forall_mem_cons.mpr ⟨.left (.code hr) hk, hpath⟩
      exact .more (.still _) (.ready hpath' (.code hl))

/-- A step up from a part that has finished, with nothing outstanding. -/
theorem stepped_finished {r : Resume} (hpath : ∀ crumb ∈ path, crumb.Clear own)
    (hs : Block.PollStep run ⟨⟨none, none⟩, started, .polling ⟨path, .finished r, false⟩⟩ events
      progress) : Stepped own started .clear events progress := by
  cases hs with
  | turn =>
    obtain ⟨hcrumb, hpath⟩ := List.forall_mem_cons.mp hpath
    cases hcrumb with
    | left h hk => exact .more (.still _) (.ready (List.forall_mem_cons.mpr ⟨.right hk, hpath⟩) h)
  | join =>
    obtain ⟨hcrumb, hpath⟩ := List.forall_mem_cons.mp hpath
    cases hcrumb with
    | right hk => exact .more (.still _) (.ready hpath (.code (hk _ _)))
  | rest hne =>
    obtain ⟨hcrumb, _⟩ := List.forall_mem_cons.mp hpath
    cases hcrumb with
    | right hk => exact absurd rfl (hne _ _ rfl)
  | returned => exact .done r
  | stuck hne => exact absurd rfl (hne r)

/-- A step up from the part in which the suspension point waits. -/
theorem stepped_here {place : List Side} {y : Yielded} (hpath : ∀ crumb ∈ path, crumb.Clear own)
    (h : focus.Spine own place point.next) (hplace : point.place = placeOf path ++ place)
    (hs : Block.PollStep run ⟨⟨some y, none⟩, started, .polling ⟨path, focus, false⟩⟩ events
      progress) : Stepped own started (.held y point) events progress := by
  cases hs with
  | turn =>
    rename_i path right k
    obtain ⟨hcrumb, hrest⟩ := List.forall_mem_cons.mp hpath
    rw [placeOf_cons, List.append_assoc] at hplace
    cases hcrumb with
    | left hright hk =>
      have hbehind : Midway own (.held y point) ⟨some y, none⟩
          ⟨[] ++ .right focus k :: path, right, true⟩ :=
        .behind (List.forall_mem_nil _) hrest h hplace hk hright nofun
      exact .more (.still _) hbehind
  | join => exact absurd rfl (h.ne_finished _)
  | rest _ =>
    obtain ⟨hcrumb, hrest⟩ := List.forall_mem_cons.mp hpath
    rw [placeOf_cons, List.append_assoc] at hplace
    cases hcrumb with
    | right hk => exact .more (.still _) (.here hrest (.right h hk) hplace)
  | returned => exact absurd rfl (h.ne_finished _)
  | yielded _ =>
    refine .yield ?_
    rw [hplace]
    exact h

variable {inner outer : List (Crumb F)} {left : Tree F} {k : Resume → Resume → F}
  {place : List Side} {y : Yielded}

include hown in
/-- A step down into a part, while the suspension point waits to the left of it. -/
theorem stepped_behind_down (hinner : ∀ crumb ∈ inner, crumb.Clear own)
    (houter : ∀ crumb ∈ outer, crumb.Clear own) (h : left.Spine own place point.next)
    (hplace : point.place = placeOf outer ++ .left :: place) (hk : ∀ r r', own (k r r'))
    (hfocus : focus.Ready own)
    (hs : Block.PollStep run
      ⟨⟨some y, none⟩, started, .polling ⟨inner ++ .right left k :: outer, focus, true⟩⟩ events
      progress) : Stepped own started (.held y point) events progress := by
  generalize hpath : inner ++ .right left k :: outer = path at hs
  cases hfocus with
  | code hf =>
    cases hs with
    | done _ =>
      subst hpath
      exact .more (.still _)
        (.behind hinner houter h hplace hk (.finished _) fun _ => ⟨_, rfl⟩)
    | rejected hend =>
      subst hpath
      exact .more (.rejected _ _ _ _)
        (.behind hinner houter h hplace hk (.code (hown.suspend _ _ _ hf hend _)) nofun)
    | awaits hend => exact absurd hend (hown.foreign _ _ _ hf)
    | both hend =>
      obtain ⟨hl, hr, hk'⟩ := hown.both _ _ _ _ hf hend
      subst hpath
      exact .more (.still _) (.behind hinner houter h hplace hk (.both hl hr hk') nofun)
  | finished r =>
    cases hs with
    | finished =>
      subst hpath
      exact .more (.still _)
        (.behind hinner houter h hplace hk (.finished r) fun _ => ⟨_, rfl⟩)
  | both hl hr hk' =>
    cases hs with
    | fork =>
      subst hpath
      rw [← List.cons_append]
      exact .more (.still _)
        (.behind (List.forall_mem_cons.mpr ⟨.left (.code hr) hk', hinner⟩) houter h hplace hk
          (.code hl) nofun)

/-- A step up from a part that has finished, while the suspension point waits to the left of it. -/
theorem stepped_behind_up {r : Resume} (hinner : ∀ crumb ∈ inner, crumb.Clear own)
    (houter : ∀ crumb ∈ outer, crumb.Clear own) (h : left.Spine own place point.next)
    (hplace : point.place = placeOf outer ++ .left :: place) (hk : ∀ r r', own (k r r'))
    (hs : Block.PollStep run
      ⟨⟨some y, none⟩, started,
        .polling ⟨inner ++ .right left k :: outer, .finished r, false⟩⟩ events
      progress) : Stepped own started (.held y point) events progress := by
  cases inner with
  | nil =>
    rw [List.nil_append] at hs
    cases hs with
    | join => exact absurd rfl (h.ne_finished _)
    | rest _ => exact .more (.still _) (.here houter (.left h hk) hplace)
  | cons crumb inner =>
    rw [List.cons_append] at hs
    obtain ⟨hcrumb, hrest⟩ := List.forall_mem_cons.mp hinner
    cases hs with
    | turn =>
      cases hcrumb with
      | left hright hk' =>
        rw [← List.cons_append]
        exact .more (.still _)
          (.behind (List.forall_mem_cons.mpr ⟨.right hk', hrest⟩) houter h hplace hk hright nofun)
    | join =>
      cases hcrumb with
      | right hk' =>
        exact .more (.still _)
          (.behind hrest houter h hplace hk (.code (hk' _ _)) nofun)
    | rest hne =>
      cases hcrumb with
      | right hk' => exact absurd rfl (hne _ _ rfl)

include hown in
/-- **Every step of a poll keeps the one suspension point in its place** until the poll ends. -/
theorem Midway.step {standing : Standing F} {ex : Exchange} {poll : Poll F}
    (h : Midway own standing ex poll)
    (hs : Block.PollStep run ⟨ex, started, .polling poll⟩ events progress) :
    Stepped own started standing events progress := by
  cases h with
  | ahead hpath h hplace => exact stepped_ahead hpath h hplace hs
  | beyond hpath h hplace hk => exact stepped_beyond hpath h hplace hk hs
  | ready hpath h => exact stepped_ready hown hpath h hs
  | finished hpath => exact stepped_finished hpath hs
  | here hpath h hplace => exact stepped_here hpath h hplace hs
  | behind hinner houter h hplace hk hfocus hup =>
    rename_i down
    cases down with
    | true => exact stepped_behind_down hown hinner houter h hplace hk hfocus hs
    | false =>
      obtain ⟨r, rfl⟩ := hup rfl
      exact stepped_behind_up hinner houter h hplace hk hs

end

/-! ## Whole polls -/

/-- How a poll ends, from where it stands. -/
inductive Closes (own : F → Prop) (started : Bool) :
    Standing F → List (PollEvent F) → Step → Block F → Prop
  | yield {y : Yielded} {point : Point F} {tree : Tree F} {rejections : List (PollEvent F)}
      (hr : ∀ event ∈ rejections, event.isRejected = true)
      (h : tree.Spine own point.place point.next) :
      Closes own started (.held y point) rejections (.yield y) ⟨{}, started, .resting tree⟩
  | done (r : Resume) : Closes own started .clear [.returned r] (.done (r.map Output.wire))
      ⟨{}, started, .over⟩
  | accepted {y : Yielded} {point : Point F} {events : List (PollEvent F)} {step : Step}
      {b : Block F} (h : Closes own started (.held y point) events step b) :
      Closes own started .clear (.accepted y point :: events) step b
  | delivered {point : Point F} {input : Resume} {events : List (PollEvent F)} {step : Step}
      {b : Block F} (h : Closes own started .clear events step b) :
      Closes own started (.owed point input) (.delivered point input :: events) step b

/-- A step before the end of a poll. -/
theorem Closes.next {started : Bool} {standing standing' : Standing F}
    {events events' : List (PollEvent F)} {step : Step} {b : Block F}
    (hn : standing.Next events standing') (h : Closes own started standing' events' step b) :
    Closes own started standing (events ++ events') step b := by
  cases hn with
  | still _ => exact h
  | delivered point input => exact .delivered h
  | accepted y point => exact .accepted h
  | rejected y y' point point' =>
    cases h with
    | yield hr h => exact .yield (List.forall_mem_cons.mpr ⟨rfl, hr⟩) h

/-- **A poll of code that awaits its own suspension points only** never gets stuck: it ends with the
yield of the one suspension point that waits, or with what the code returns. -/
theorem Midway.closes {run : F → Act Co Fu (Stage F)} (hown : OwnAwaits run own) {started : Bool}
    {standing : Standing F} {ex : Exchange} {poll : Poll F} {events : List (PollEvent F)}
    {step : Step} {b : Block F} (h : Midway own standing ex poll)
    (hp : Block.Polls run ⟨ex, started, .polling poll⟩ events step b) :
    Closes own started standing events step b := by
  generalize hb : (⟨ex, started, .polling poll⟩ : Block F) = first at hp
  induction hp generalizing standing ex poll with
  | yield hs =>
    subst hb
    cases h.step hown hs with
    | yield hspine => exact .yield (List.forall_mem_nil _) hspine
  | done hs =>
    subst hb
    cases h.step hown hs with
    | done r => exact .done r
  | more hs _ ih =>
    subst hb
    cases h.step hown hs with
    | more hn hmid => exact .next hn (ih hmid rfl)
  | nested o hs _ _ =>
    subst hb
    cases h.step hown hs

/-! ## Resume after resume -/

/-- A block at rest, as its dialogue has left it. -/
inductive Rests (own : F → Prop) : Outlook F → Block F → Prop
  | fresh {f : F} (hf : own f) : Rests own .fresh (.ofCode f)
  | waits {point : Point F} {tree : Tree F} (h : tree.Spine own point.place point.next) :
      Rests own (.waits point) ⟨{}, true, .resting tree⟩
  | closed : Rests own .closed ⟨{}, true, .over⟩

theorem Rests.outstanding_eq {outlook : Outlook F} {b : Block F} (h : Rests own outlook b) :
    b.outstanding = outlook.points := by
  cases h with
  | fresh hf => rfl
  | waits h => exact h.points_eq
  | closed => rfl

/-- Once the input is delivered a turn goes on as the dialogue has it. -/
theorem Closes.dialogue {events : List (PollEvent F)} {step : Step} {b : Block F}
    (h : Closes own true .clear events step b) {turns : List (Block.Turn F)}
    {outlook : Outlook F} (hd : Dialogue turns outlook) (hlive : outlook ≠ .closed) (input : Resume) :
    ∃ outlook', Dialogue (turns ++ [⟨input, outlook.delivers input ++ events, step⟩]) outlook' ∧
      Rests own outlook' b := by
  cases h with
  | done r => exact ⟨.closed, .done input r hd hlive, .closed⟩
  | accepted h =>
    cases h with
    | yield hr h => exact ⟨.waits _, .yield input _ _ hd hlive hr, .waits h⟩

/-- A resume of a block at rest goes on with its dialogue. -/
theorem Rests.turn {run : F → Act Co Fu (Stage F)} (hown : OwnAwaits run own)
    {outlook : Outlook F} {b b' : Block F} (h : Rests own outlook b) {turns : List (Block.Turn F)}
    (hd : Dialogue turns outlook) {turn : Block.Turn F}
    (hp : Block.Polls run (b.resume turn.input) turn.events turn.step b') :
    ∃ outlook', Dialogue (turns ++ [turn]) outlook' ∧ Rests own outlook' b' := by
  obtain ⟨input, events, step⟩ := turn
  cases h with
  | fresh hf =>
    have hmid : Midway own .clear ⟨none, none⟩ ⟨[], .code _, true⟩ :=
      .ready (List.forall_mem_nil _) (.code hf)
    exact (hmid.closes hown hp).dialogue hd nofun input
  | waits h =>
    have hmid : Midway own (.owed _ input) ⟨none, some input⟩ ⟨[], _, true⟩ :=
      .ahead (List.forall_mem_nil _) h (List.nil_append _).symm
    cases hmid.closes hown hp with
    | delivered hclose => exact hclose.dialogue hd nofun input
  | closed =>
    cases hp with
    | yield hs => cases hs
    | done hs =>
      cases hs with
      | completed => exact ⟨.closed, .after input hd, .closed⟩
    | more hs _ => cases hs
    | nested o hs _ => cases hs

theorem exists_dialogue {run : F → Act Co Fu (Stage F)} (hown : OwnAwaits run own) {f : F}
    (hf : own f) {turns : List (Block.Turn F)} {b : Block F}
    (h : Block.Story run (.ofCode f) turns b) :
    ∃ outlook, Dialogue turns outlook ∧ Rests own outlook b := by
  induction h with
  | nil => exact ⟨.fresh, .start, .fresh hf⟩
  | snoc _ hp ih =>
    obtain ⟨outlook, hd, hrests⟩ := ih
    exact hrests.turn hown hd hp

/-! ## What a dialogue says -/

/-- The yield that a suspension point hands out. -/
def PollEvent.accepted? : PollEvent F → Option (Yielded × Point F)
  | .accepted y point => some (y, point)
  | _ => none

/-- The suspension point that gets the input. -/
def PollEvent.delivered? : PollEvent F → Option (Point F × Resume)
  | .delivered point input => some (point, input)
  | _ => none

namespace Block.Turn

def accepted (turn : Turn F) : List (Yielded × Point F) :=
  turn.events.filterMap PollEvent.accepted?

def delivered (turn : Turn F) : List (Point F × Resume) :=
  turn.events.filterMap PollEvent.delivered?

/-- What a resume returns that is not the end. -/
def yield? (turn : Turn F) : Option Yielded :=
  match turn.step with
  | .yield y => some y
  | .done _ => none

end Block.Turn

namespace Dialogue

variable {turns : List (Block.Turn F)} {outlook : Outlook F}

theorem filterMap_rejections {α : Type} {rejections : List (PollEvent F)}
    (hr : ∀ event ∈ rejections, event.isRejected = true) {f : PollEvent F → Option α}
    (hf : ∀ y point, f (.rejected y point) = none) : rejections.filterMap f = [] := by
  refine List.filterMap_eq_nil_iff.mpr fun event hevent => ?_
  cases event with
  | rejected y point => exact hf y point
  | _ => cases hr _ hevent

theorem accepted_delivers (outlook : Outlook F) (input : Resume) :
    (outlook.delivers input).filterMap PollEvent.accepted? = [] := by
  cases outlook <;> rfl

theorem delivered_delivers (outlook : Outlook F) (input : Resume) :
    (outlook.delivers input).filterMap PollEvent.delivered? =
      outlook.points.map fun point => (point, input) := by
  cases outlook <;> rfl

theorem accepted_yield {outlook : Outlook F} {input : Resume} {y : Yielded} {point : Point F}
    {rejections : List (PollEvent F)} (hr : ∀ event ∈ rejections, event.isRejected = true)
    (step : Step) :
    Block.Turn.accepted ⟨input, outlook.delivers input ++ .accepted y point :: rejections, step⟩ =
      [(y, point)] := by
  unfold Block.Turn.accepted
  rw [List.filterMap_append, accepted_delivers, List.filterMap_cons,
    filterMap_rejections hr fun _ _ => rfl]
  rfl

theorem delivered_yield {outlook : Outlook F} {input : Resume} {y : Yielded} {point : Point F}
    {rejections : List (PollEvent F)} (hr : ∀ event ∈ rejections, event.isRejected = true)
    (step : Step) :
    Block.Turn.delivered ⟨input, outlook.delivers input ++ .accepted y point :: rejections, step⟩ =
      outlook.points.map fun point => (point, input) := by
  unfold Block.Turn.delivered
  rw [List.filterMap_append, delivered_delivers, List.filterMap_cons,
    filterMap_rejections hr fun _ _ => rfl]
  exact List.append_nil _

theorem accepted_done (outlook : Outlook F) (input r : Resume) (step : Step) :
    Block.Turn.accepted ⟨input, outlook.delivers input ++ [.returned r], step⟩ = [] := by
  unfold Block.Turn.accepted
  rw [List.filterMap_append, accepted_delivers]
  rfl

theorem delivered_done (outlook : Outlook F) (input r : Resume) (step : Step) :
    Block.Turn.delivered ⟨input, outlook.delivers input ++ [.returned r], step⟩ =
      outlook.points.map fun point => (point, input) := by
  unfold Block.Turn.delivered
  rw [List.filterMap_append, delivered_delivers]
  exact List.append_nil _

/-- The suspension points that were accepted got the inputs, in order, but for the one that is still
outstanding. -/
theorem accepted_points (h : Dialogue turns outlook) :
    (turns.flatMap Block.Turn.accepted).map Prod.snd =
      (turns.flatMap Block.Turn.delivered).map Prod.fst ++ outlook.points := by
  have hpoints : ∀ (ps : List (Point F)) (input : Resume),
      (ps.map fun point => (point, input)).map Prod.fst = ps := fun ps input => by
    rw [List.map_map]
    exact List.map_id ps
  induction h with
  | start => rfl
  | yield input y point h hlive hr ih =>
    rw [List.flatMap_append, List.flatMap_append, List.map_append, List.map_append, ih,
      List.flatMap_singleton, List.flatMap_singleton, accepted_yield hr, delivered_yield hr,
      hpoints]
    rfl
  | done input r h hlive ih =>
    rw [List.flatMap_append, List.flatMap_append, List.map_append, List.map_append, ih,
      List.flatMap_singleton, List.flatMap_singleton, accepted_done, delivered_done, hpoints]
    rfl
  | after input h ih =>
    rw [List.flatMap_append, List.flatMap_append, List.map_append, List.map_append, ih]
    simp [Block.Turn.accepted, Block.Turn.delivered]

/-- The resumes return the yields that were accepted, and so none that failed. -/
theorem yields_eq (h : Dialogue turns outlook) :
    turns.filterMap Block.Turn.yield? = (turns.flatMap Block.Turn.accepted).map Prod.fst := by
  induction h with
  | start => rfl
  | yield input y point h hlive hr ih =>
    rw [List.filterMap_append, List.flatMap_append, List.map_append, ih, List.flatMap_singleton,
      accepted_yield hr]
    rfl
  | done input r h hlive ih =>
    rw [List.filterMap_append, List.flatMap_append, List.map_append, ih, List.flatMap_singleton,
      accepted_done]
    rfl
  | after input h ih =>
    rw [List.filterMap_append, List.flatMap_append, List.map_append, ih]
    rfl

/-- A resume that is the end returns what the code returned; one that comes after the end polls
nothing. -/
theorem done_eq (h : Dialogue turns outlook) :
    ∀ turn ∈ turns, ∀ o, turn.step = .done o →
      (∃ r, .returned r ∈ turn.events ∧ o = r.map Output.wire) ∨
        turn.events = [] ∧ o = .error Block.completed := by
  induction h with
  | start => exact List.forall_mem_nil _
  | yield input y point h hlive hr ih =>
    refine List.forall_mem_append.mpr ⟨ih, List.forall_mem_singleton.mpr fun o ho => ?_⟩
    cases ho
  | done input r h hlive ih =>
    refine List.forall_mem_append.mpr ⟨ih, List.forall_mem_singleton.mpr fun o ho => ?_⟩
    cases ho
    exact .inl ⟨r, List.mem_append_right _ List.mem_cons_self, rfl⟩
  | after input h ih =>
    refine List.forall_mem_append.mpr ⟨ih, List.forall_mem_singleton.mpr fun o ho => ?_⟩
    cases ho
    exact .inr ⟨rfl, rfl⟩

theorem closed_of_done (h : Dialogue turns outlook) {turn : Block.Turn F} (hturn : turn ∈ turns)
    {o : Outcome} (ho : turn.step = .done o) : outlook = .closed := by
  induction h with
  | start => cases hturn
  | yield input y point h hlive hr ih =>
    rcases List.mem_append.mp hturn with hturn | hturn
    · exact absurd (ih hturn) hlive
    · rw [List.mem_singleton.mp hturn] at ho
      cases ho
  | done input r h hlive ih => rfl
  | after input h ih => rfl

end Dialogue

/-- **Exactly one suspension point is outstanding between two resumes**, for code that awaits only its
own, whatever the inputs: the resumes are a dialogue. The one that was accepted is the one whose yield
was returned, and gets the next input; the very first input goes to none; those polled meanwhile fail,
and no resume returns what they would have yielded. Either way the code goes on at once with what the
suspension point returns. The end is what the code returns, never that it waits for something else,
and after it nothing is polled any more. -/
theorem one_point_outstanding {run : F → Act Co Fu (Stage F)} (hown : OwnAwaits run own) {f : F}
    (hf : own f) {turns : List (Block.Turn F)} {b : Block F}
    (h : Block.Story run (.ofCode f) turns b) :
    ∃ outlook, Dialogue turns outlook ∧ b.outstanding = outlook.points ∧
      (turns.flatMap Block.Turn.accepted).map Prod.snd =
        (turns.flatMap Block.Turn.delivered).map Prod.fst ++ outlook.points ∧
      turns.filterMap Block.Turn.yield? = (turns.flatMap Block.Turn.accepted).map Prod.fst ∧
      (∀ b events progress, Block.PollStep run b events progress → ∀ event ∈ events,
        ∀ point r, event.result? = some (point, r) →
          ∃ ex st path, point.place = placeOf path ∧
            progress = .more ⟨ex, st, .polling ⟨path, .code (point.next r), true⟩⟩) ∧
      (∀ turn ∈ turns, ∀ o, turn.step = .done o →
        (∃ r, .returned r ∈ turn.events ∧ o = r.map Output.wire) ∨
          turn.events = [] ∧ o = .error Block.completed) ∧
      ∀ turn ∈ turns, ∀ o, turn.step = .done o → ∀ input, b.resume input = b ∧
        b.advance run = .ret (.done (.error Block.completed) b) := by
  obtain ⟨outlook, hd, hrests⟩ := exists_dialogue hown hf h
  refine ⟨outlook, hd, hrests.outstanding_eq, hd.accepted_points, hd.yields_eq, ?_, hd.done_eq, ?_⟩
  · exact fun b events progress hs event hevent point r hr => hs.next_of_result hevent hr
  · intro turn hturn o ho input
    cases hd.closed_of_done hturn ho
    cases hrests with
    | closed => exact ⟨rfl, rfl⟩

/-! ## Sequential code -/

/-- The code awaits nothing but its own suspension points. -/
def Code.AwaitsOwn : Code → Prop
  | .done _ | .panic => True
  | .ask _ k => ∀ r, (k r).AwaitsOwn
  | .dispatch _ _ k => ∀ v, (k v).AwaitsOwn
  | .start _ _ _ _ k | .spawn _ _ _ _ k => ∀ h, (k h).AwaitsOwn
  | .run _ _ _ _ _ | .wait _ _ => False
  | .suspend _ k => ∀ r, (k r).AwaitsOwn
  | .delegate _ _ _ => True
  | .both left right k => left.AwaitsOwn ∧ right.AwaitsOwn ∧ ∀ r r', (k r r').AwaitsOwn

/-- A stop of code that awaits only its own suspension points. -/
def Pause.AwaitsOwn : Pause → Prop
  | .done _ | .delegate _ _ _ => True
  | .suspend _ k => ∀ r, (k r).AwaitsOwn
  | .wait _ _ => False
  | .both left right k => left.AwaitsOwn ∧ right.AwaitsOwn ∧ ∀ r r', (k r r').AwaitsOwn

theorem Code.awaitsOwn_pause {c : Code} (hc : c.AwaitsOwn) {stop : Pause}
    (h : (c.pause : Act Co Code Pause).Ends stop) : stop.AwaitsOwn := by
  induction c with
  | done r =>
    cases Act.ends_ret.mp h
    trivial
  | panic => cases h
  | ask q k ih =>
    cases h with
    | ask r h => exact ih r (hc r) h
  | dispatch sink event k ih =>
    cases h with
    | dispatch v h => exact ih v (hc v) h
  | start s name target args k ih =>
    unfold Code.pause at h
    cases h with
    | invoke i h =>
      cases i with
      | pending fu => cases h
      | coroutine co =>
        cases h with
        | start t h => exact ih t (hc t) h
  | spawn s name target args k ih =>
    unfold Code.pause at h
    cases h with
    | invoke i h =>
      cases i with
      | coroutine co => cases h
      | pending fu =>
        cases h with
        | spawn t h => exact ih t (hc t) h
  | run s name target args k ih => exact hc.elim
  | suspend y k ih =>
    cases Act.ends_ret.mp h
    exact hc
  | wait w k ih => exact hc.elim
  | delegate b e k ih =>
    cases Act.ends_ret.mp h
    trivial
  | both left right k ihl ihr ihk =>
    cases Act.ends_ret.mp h
    exact hc

/-- Going on from a stop stays within such code. -/
theorem ownAwaits_stage :
    OwnAwaits (Code.stage : Code → Act Co Code (Stage Code)) Code.AwaitsOwn where
  suspend := by
    intro c y k hc h
    obtain ⟨stop, hstop, h⟩ := Act.exists_of_ends_bind h
    have hown := Code.awaitsOwn_pause hc hstop
    cases stop with
    | suspend y' k' =>
      cases Act.ends_ret.mp h
      exact hown
    | delegate b e k' => cases h
    | _ => cases Act.ends_ret.mp h
  both := by
    intro c left right k hc h
    obtain ⟨stop, hstop, h⟩ := Act.exists_of_ends_bind h
    have hown := Code.awaitsOwn_pause hc hstop
    cases stop with
    | both left' right' k' =>
      cases Act.ends_ret.mp h
      exact hown
    | delegate b e k' => cases h
    | _ => cases Act.ends_ret.mp h
  foreign := by
    intro c w k hc h
    obtain ⟨stop, hstop, h⟩ := Act.exists_of_ends_bind h
    have hown := Code.awaitsOwn_pause hc hstop
    cases stop with
    | wait w' k' => exact hown
    | delegate b e k' => cases h
    | _ => cases Act.ends_ret.mp h

/-- Two branches that yield at once, of which the first gives the result. -/
def Code.yieldTwice (y y' : Yielded) : Code :=
  .both (.suspend y .done) (.suspend y' .done) fun r _ => .done r

/-- The second yield fails, and the input goes to the first. -/
theorem story_yieldTwice (y y' : Yielded) (null r : Resume) :
    Block.Story (Code.stage : Code → Act Co Code (Stage Code)) (.ofCode (.yieldTwice y y'))
      [⟨null, [.accepted y ⟨[.left], .done⟩, .rejected y' ⟨[.right], .done⟩], .yield y⟩,
        ⟨r, [.delivered ⟨[.left], .done⟩ r, .returned r], .done (r.map Output.wire)⟩]
      ⟨{}, true, .over⟩ := by
  have hfirst : Block.Polls (Code.stage : Code → Act Co Code (Stage Code))
      ((Block.ofCode (.yieldTwice y y')).resume null) _ _ _ :=
    .more (.both (.ret _)) <| .more .fork <| .more (.accepted (.ret _)) <| .more .turn <|
      .more (.rejected (.ret _)) <| .more (.done (.ret _)) <| .more (.rest fun _ _ h => nomatch h) <|
        .yield (.yielded fun _ h => nomatch h)
  have hsecond : Block.Polls (Code.stage : Code → Act Co Code (Stage Code))
      (Block.resume ⟨{}, true, .resting (.both (.suspended .done)
        (.finished (.error Block.yieldedTwice)) fun r _ => .done r)⟩ r) _ _ _ :=
    .more .fork <| .more .delivered <| .more (.done (.ret _)) <| .more .turn <| .more .finished <|
      .more .join <| .more (.done (.ret _)) <| .done .returned
  exact .snoc (.snoc .nil hfirst) hsecond

/-- The resumes of two branches that yield at once are a dialogue. -/
theorem yieldTwice_outstanding :
    (OwnAwaits (Code.stage : Code → Act Unit Code (Stage Code)) Code.AwaitsOwn ∧
      (Code.yieldTwice (.pass (.value .null)) (.effect (.put .null))).AwaitsOwn) ∧
    ∃ turns b, Block.Story (Code.stage : Code → Act Unit Code (Stage Code))
        (.ofCode (.yieldTwice (.pass (.value .null)) (.effect (.put .null)))) turns b ∧
      turns.filterMap Block.Turn.yield? = [.pass (.value .null)] ∧
      ∃ outlook, Dialogue turns outlook ∧ b.outstanding = outlook.points := by
  have hbody : (Code.yieldTwice (.pass (.value .null)) (.effect (.put .null))).AwaitsOwn :=
    ⟨fun _ => trivial, fun _ => trivial, fun _ _ => trivial⟩
  have hstory : Block.Story (Code.stage : Code → Act Unit Code (Stage Code)) _ _ _ :=
    story_yieldTwice (.pass (.value .null)) (.effect (.put .null)) (.ok (.value .null))
      (.ok (.value .null))
  obtain ⟨outlook, hd, hpoints, _⟩ := one_point_outstanding ownAwaits_stage hbody hstory
  exact ⟨⟨ownAwaits_stage, hbody⟩, _, _, hstory, rfl, outlook, hd, hpoints⟩

end EffectLoop
