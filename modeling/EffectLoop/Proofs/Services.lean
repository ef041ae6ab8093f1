import EffectLoop.Order.Run
import EffectLoop.Proofs.Flows

/-!
# What the services of a checkout answer

A program offers the services if it runs blocks of code as they are written and gives for each target of the
services what that service is (`Offers`); the program that orders does (`offers_program`). Every service but
the payment idles and comes to its response, however slow it is. So in any run a call of it is answered with
its response, and of a fork of it nothing else can be joined (`Backs`). A join of the fork fails if the task of
the fork is terminated or dropped, and does not otherwise (`joined_of_unhindered`).
-/

namespace EffectLoop.Order

open EventLoop

variable {Co : Type}

/-- The program runs blocks of code as they are written, and invokes these services as they are. -/
structure Offers (p : Program Co Code) (ofBlock : Block Code → Co) (services : Services) : Prop where
  blocks : p.RunsBlocks ofBlock
  work : p.work = Code.await
  invoke : ∀ service args, p.invoke (services.target service) args =
    .ret (Order.invoke ofBlock services service args)

theorem ofName?_name (service : Service) : Service.ofName? service.name = some service := by
  cases service <;> decide

theorem ofCaptured?_target (services : Services) (service : Service) :
    Services.ofCaptured? (services.target service).body.captured = some services := by
  obtain ⟨latency, cardValid⟩ := services
  cases cardValid <;> rfl

/-- The program that orders offers all services. -/
theorem offers_program (config : SchedulerConfig) (services : Services) :
    Offers (program config) id services where
  blocks := .of_eq rfl rfl
  work := rfl
  invoke service args := by
    have hinvoke : (invoke? id (services.target service) args : Option (Invoked (Block Code) Code)) =
        some (Order.invoke id services service args) := by
      rw [invoke?, ofCaptured?_target]
      show (Service.ofName? service.name).bind (fun service => some (Order.invoke id services service args)) = _
      rw [ofName?_name]
      rfl
    show ((invoke? id (services.target service) args).map Act.ret).getD .panic = _
    rw [hinvoke]
    rfl

section

variable {p : Program Co Code} {ofBlock : Block Code → Co} {services : Services} {service : Service}
  {args : List Json}

/-- Every service but the payment idles and comes to its response. -/
theorem givesIdle_of_offers (hp : Offers p ofBlock services) (hs : service ≠ .makePayment) (args : List Json) :
    GivesIdle p (services.target service) args (.ok (.value (services.respond service args))) := by
  intro work hwork
  rw [hp.invoke] at hwork
  cases Act.gives_ret.mp hwork
  -- the validation answers at once, the others after a sleep
  cases service with
  | makePayment => exact absurd rfl hs
  | validateCard =>
    refine ⟨_, rfl, ?_⟩
    rw [hp.work]
    exact .done
  | _ =>
    refine ⟨_, rfl, ?_⟩
    rw [hp.work]
    refine .ask fun now => .sleep ?_
    rw [hp.work]
    exact .done

/-- The payment is the block of its code. -/
theorem eq_of_gives_payment (hp : Offers p ofBlock services) {work : Invoked Co Code}
    (h : (p.invoke (services.target .makePayment) args).Gives p work) :
    work = .coroutine (ofBlock (.ofCode (makePayment services args).code)) := by
  rw [hp.invoke] at h
  exact Act.gives_ret.mp h

end

/-! ## The answers in a run -/

/-- What the effects of a checkout may be answered with: the sink with any value, a service with its response,
the payment and a join with any outcome, and a fork with a handle of which nothing but the response is joined. -/
structure Backs (services : Services) (A : Effect → Resume → Prop) : Prop where
  put : ∀ {event r}, A (.put event) r → ∃ v, r = .ok (.value v)
  call : ∀ {service args r}, service ≠ .makePayment → A (.call (services.target service) args) r →
    r = .ok (.value (services.respond service args))
  payment : ∀ {args r}, A (.call (services.target .makePayment) args) r → ∃ o : Outcome, r = o.map .value
  join : ∀ {t r}, A (.join t) r → ∃ o : Outcome, r = o.map .value
  fork : ∀ {target args r}, A (.fork target args) r → ∃ t, r = .ok (.task t)
  joined : ∀ {service args t v}, service ≠ .makePayment →
    A (.fork (services.target service) args) (.ok (.task t)) → A (.join t) (.ok (.value v)) →
    v = services.respond service args

section

variable {p : Program Co Code} {ofBlock : Block Code → Co} {services : Services} {service : Service}
  {args : List Json} {moves : List (Move Co Code)} {key : DriverKey} {s : SchedulerId} {co₀ : Co}
  {t : TaskHandle} {r : Resume}

/-- The history around an answer. -/
theorem history_of_answered {b : Builtin} {e : Effect} (hb : b.kind = e.kind)
    (h : Answered p moves key s co₀ e r) :
    ∃ past rest, history p moves key = past ++ .given (.builtin b) e :: .resolved r :: rest := by
  obtain ⟨past, co, b', rest, hb', h⟩ := h
  have hbb : b' = b := by
    rw [← hb] at hb'
    cases b <;> cases b' <;> first | rfl | cases hb'
  subst hbb
  exact ⟨.entered s co₀ :: past ++ [.yielded (.effect e) co], rest, by simp [h]⟩

/-- A join is answered with the outcome of the task. -/
theorem outcome_of_joined (h : Answered p moves key s co₀ (.join t) r) :
    ∃ o, (after p {} moves).outcome? t = some o ∧ r = o.map .value := by
  obtain ⟨past, rest, h⟩ := history_of_answered (b := .join) rfl h
  rcases history_joined p moves h with hnil | ⟨o, ho, hrest | ⟨co, more, hrest⟩⟩
  · cases hnil
  · cases hrest
    exact ⟨o, ho, rfl⟩
  · cases hrest
    exact ⟨o, ho, rfl⟩

/-- A fork of a service that idles is answered with the handle of a task that was entered for it. -/
theorem enters_of_forked (hp : Offers p ofBlock services) (hs : service ≠ .makePayment)
    (h : Answered p moves key s co₀ (.fork (services.target service) args) (.ok (.task t))) :
    ∃ first fu n, first ++ [.step] <+: moves ∧ Enters (after p {} first) key .fork (.pending fu) n t ∧
      Idles p (.ok (.value (services.respond service args))) (p.work fu) := by
  obtain ⟨past, rest, h⟩ := history_of_answered (b := .fork) rfl h
  obtain ⟨t', ht, work, n, hgives, first, hle, _, henters⟩ := forked_of_resolved p h
  cases ht
  obtain ⟨fu, rfl, hidles⟩ := givesIdle_of_offers hp hs args work hgives
  exact ⟨first, fu, n, hle, henters, hidles⟩

/-- **The answers of a run are such**, at whatever times tasks are terminated in it. -/
theorem backs_answered (hp : Offers p ofBlock services) (hbuiltin : (p.scheduler s).processors = .builtin) :
    Backs services (Answered p moves key s co₀) where
  put := by
    rintro event r ⟨past, co, b, rest, _, h⟩
    have hserves : ServesPuts p s := by
      rw [ServesPuts, hbuiltin]
      rfl
    obtain ⟨v, _, hv⟩ := resolved_of_put p hserves h
    exact ⟨v, hv⟩
  call hs h := by
    obtain ⟨past, rest, h⟩ := history_of_answered (b := .call) rfl h
    exact resolved_of_idle (givesIdle_of_offers hp hs _) h
  payment h := by
    obtain ⟨past, rest, h⟩ := history_of_answered (b := .call) rfl h
    obtain ⟨_, _, o, _, _, _, _, hr⟩ := driven_of_resolved (fun _ hwork => ⟨_, eq_of_gives_payment hp hwork⟩) h
    exact ⟨o, hr⟩
  join h := (outcome_of_joined h).imp fun _ ho => ho.2
  fork h := by
    obtain ⟨past, rest, h⟩ := history_of_answered (b := .fork) rfl h
    exact (forked_of_resolved p h).imp fun _ ht => ht.1
  joined hs hfork hjoin := by
    obtain ⟨first, fu, n, hle, henters, hidles⟩ := enters_of_forked hp hs hfork
    obtain ⟨o, ho, hr⟩ := outcome_of_joined hjoin
    cases o with
    | error e => cases hr
    | ok v =>
      cases hr
      cases outcome_of_idle p hle henters hidles ho
      rfl

/-- If nobody hinders its task, a fork of a service is joined with the response. -/
theorem joined_of_unhindered (hp : Offers p ofBlock services) (hs : service ≠ .makePayment)
    (hu : Unhindered p moves key)
    (hfork : Answered p moves key s co₀ (.fork (services.target service) args) (.ok (.task t)))
    (hjoin : Answered p moves key s co₀ (.join t) r) : r = .ok (.value (services.respond service args)) := by
  obtain ⟨first, fu, n, hle, henters, hidles⟩ := enters_of_forked hp hs hfork
  obtain ⟨o, ho, rfl⟩ := outcome_of_joined hjoin
  obtain ⟨hterminated, hdropped⟩ := hu first _ _ n t hle henters
  rw [outcome_of_undropped_idle p hle henters hidles hterminated hdropped ho]
  rfl

end

end EffectLoop.Order
