import EffectLoop.Loop.Program

/-!
# Wire forms

An effect travels as its kind and payload, in which a target shows only its name and a task only its
number. Equality of effects tells more apart: the code of a target, and the place where the outcome of a
task is kept.

* `Json.beq_eucl`: equality of values is an equivalence, decimals being compared by value.
* `Json.object_pair_beq`: built objects are equal if their members are.
* `Effect.beq_iff`: what equality of effects comes to beyond their kinds and payloads.
* `Effect.Made.ofTag_kind`: no tag of an effect that a creator has made denotes another kind.
* `wires_agree`: equal effects, equal wire forms and equal routes.
-/

namespace EffectLoop

/-! ## Equality of values -/

namespace Decimal

theorem beq_iff {a b : Decimal} :
    (a == b) = true ↔ a.signed * Int.pow 10 b.places = b.signed * Int.pow 10 a.places := by
  show (a.signed * Int.pow 10 b.places == b.signed * Int.pow 10 a.places) = true ↔ _
  exact beq_iff_eq

theorem pow_ten_ne_zero (n : Nat) : Int.pow 10 n ≠ 0 :=
  Int.pow_ne_zero (by decide)

instance : EquivBEq Decimal where
  rfl := beq_iff.mpr rfl
  symm h := beq_iff.mpr (beq_iff.mp h).symm
  trans {a b c} hab hbc := by
    rw [beq_iff] at hab hbc ⊢
    refine Int.eq_of_mul_eq_mul_right (pow_ten_ne_zero b.places) ?_
    calc a.signed * Int.pow 10 c.places * Int.pow 10 b.places
        = a.signed * Int.pow 10 b.places * Int.pow 10 c.places := Int.mul_right_comm ..
      _ = b.signed * Int.pow 10 c.places * Int.pow 10 a.places := by
        rw [hab, Int.mul_right_comm]
      _ = c.signed * Int.pow 10 a.places * Int.pow 10 b.places := by
        rw [hbc, Int.mul_right_comm]

end Decimal

namespace Json

variable {a b c : Json}

theorem beq_null : beq .null b = true ↔ .null = b := by
  cases b <;> simp [beq]

theorem beq_bool {x : Bool} : beq (.bool x) b = true ↔ .bool x = b := by
  cases b <;> simp [beq]

theorem beq_int {n : Int} : beq (.int n) b = true ↔ .int n = b := by
  cases b <;> simp [beq]

theorem beq_decimal {d : Decimal} :
    beq (.decimal d) b = true ↔ ∃ d', b = .decimal d' ∧ (d == d') = true := by
  cases b <;> simp [beq]

theorem beq_str {s : String} : beq (.str s) b = true ↔ .str s = b := by
  cases b <;> simp [beq]

theorem beq_arr {items : List Json} :
    beq (.arr items) b = true ↔ ∃ items', b = .arr items' ∧ beqItems items items' = true := by
  cases b <;> simp [beq]

theorem beq_obj {members : List (String × Json)} :
    beq (.obj members) b = true ↔ ∃ members', b = .obj members' ∧ beqMembers members members' = true := by
  cases b <;> simp [beq]

theorem beqItems_cons {items l : List Json} :
    beqItems (a :: items) l = true ↔
      ∃ b items', l = b :: items' ∧ beq a b = true ∧ beqItems items items' = true := by
  cases l with
  | nil => simp [beqItems]
  | cons b items' =>
    rw [beqItems, Bool.and_eq_true]
    constructor
    · exact fun h => ⟨b, items', rfl, h⟩
    · rintro ⟨_, _, heq, h⟩
      cases heq
      exact h

theorem beqMembers_cons {key : String} {members l : List (String × Json)} :
    beqMembers ((key, a) :: members) l = true ↔
      ∃ b members', l = (key, b) :: members' ∧ beq a b = true ∧ beqMembers members members' = true := by
  cases l with
  | nil => simp [beqMembers]
  | cons m members' =>
    obtain ⟨k, b⟩ := m
    rw [beqMembers, Bool.and_eq_true, Bool.and_eq_true, beq_iff_eq]
    constructor
    · rintro ⟨⟨rfl, hb⟩, h⟩
      exact ⟨b, members', rfl, hb, h⟩
    · rintro ⟨_, _, heq, hb, h⟩
      cases heq
      exact ⟨⟨rfl, hb⟩, h⟩

mutual

theorem beq_refl (a : Json) : beq a a = true := by
  cases a with
  | null => rfl
  | bool x => exact beq_bool.mpr rfl
  | int n => exact beq_int.mpr rfl
  | decimal d => exact beq_decimal.mpr ⟨d, rfl, BEq.rfl⟩
  | str s => exact beq_str.mpr rfl
  | arr items => exact beqItems_refl items
  | obj members => exact beqMembers_refl members

theorem beqItems_refl (l : List Json) : beqItems l l = true := by
  cases l with
  | nil => rfl
  | cons a items => exact beqItems_cons.mpr ⟨a, items, rfl, beq_refl a, beqItems_refl items⟩

theorem beqMembers_refl (l : List (String × Json)) : beqMembers l l = true := by
  cases l with
  | nil => rfl
  | cons m members =>
    cases m with
    | mk key a =>
      exact beqMembers_cons.mpr ⟨a, members, rfl, beq_refl a, beqMembers_refl members⟩

end

mutual

/-- Two values that a third one equals are equal. -/
theorem beq_eucl (a : Json) {b c : Json} (h : beq a b = true) (h' : beq a c = true) :
    beq b c = true := by
  cases a with
  | null =>
    cases beq_null.mp h
    exact h'
  | bool x =>
    cases beq_bool.mp h
    exact h'
  | int n =>
    cases beq_int.mp h
    exact h'
  | decimal d =>
    obtain ⟨d', rfl, hd⟩ := beq_decimal.mp h
    obtain ⟨d'', rfl, hd'⟩ := beq_decimal.mp h'
    exact beq_decimal.mpr ⟨d'', rfl, BEq.trans (BEq.symm hd) hd'⟩
  | str s =>
    cases beq_str.mp h
    exact h'
  | arr items =>
    obtain ⟨items', rfl, hitems⟩ := beq_arr.mp h
    obtain ⟨items'', rfl, hitems'⟩ := beq_arr.mp h'
    exact beqItems_eucl items hitems hitems'
  | obj members =>
    obtain ⟨members', rfl, hmembers⟩ := beq_obj.mp h
    obtain ⟨members'', rfl, hmembers'⟩ := beq_obj.mp h'
    exact beqMembers_eucl members hmembers hmembers'

theorem beqItems_eucl (l : List Json) {l' l'' : List Json} (h : beqItems l l' = true)
    (h' : beqItems l l'' = true) : beqItems l' l'' = true := by
  cases l with
  | nil =>
    cases l' with
    | nil => exact h'
    | cons _ _ => cases h
  | cons a items =>
    obtain ⟨b, items', rfl, hb, hitems⟩ := beqItems_cons.mp h
    obtain ⟨c, items'', rfl, hc, hitems'⟩ := beqItems_cons.mp h'
    exact beqItems_cons.mpr ⟨c, items'', rfl, beq_eucl a hb hc, beqItems_eucl items hitems hitems'⟩

theorem beqMembers_eucl (l : List (String × Json)) {l' l'' : List (String × Json)}
    (h : beqMembers l l' = true) (h' : beqMembers l l'' = true) : beqMembers l' l'' = true := by
  cases l with
  | nil =>
    cases l' with
    | nil => exact h'
    | cons _ _ => cases h
  | cons m members =>
    cases m with
    | mk key a =>
      obtain ⟨b, members', rfl, hb, hmembers⟩ := beqMembers_cons.mp h
      obtain ⟨c, members'', rfl, hc, hmembers'⟩ := beqMembers_cons.mp h'
      exact beqMembers_cons.mpr
        ⟨c, members'', rfl, beq_eucl a hb hc, beqMembers_eucl members hmembers hmembers'⟩

end

theorem beqItems_eq (l l' : List Json) : beqItems l l' = (l == l') := by
  induction l generalizing l' with
  | nil => cases l' <;> rfl
  | cons a items ih =>
    cases l' with
    | nil => rfl
    | cons b items' => rw [beqItems, ih]; rfl

theorem str_beq {s s' : String} : (Json.str s == .str s') = (s == s') := rfl

theorem arr_beq {l l' : List Json} : (Json.arr l == .arr l') = (l == l') := beqItems_eq l l'

instance : EquivBEq Json where
  rfl := beq_refl _
  symm h := beq_eucl _ h (beq_refl _)
  trans h h' := beq_eucl _ (beq_eucl _ h (beq_refl _)) h'

/-! ## Members of built objects -/

/-- What equal objects have under a key is equal. -/
theorem beqMembers_find? {members members' : List (String × Json)}
    (h : beqMembers members members' = true) (key : String) :
    beq (((members.find? fun m => m.1 == key).map Prod.snd).getD .null)
      (((members'.find? fun m => m.1 == key).map Prod.snd).getD .null) = true := by
  induction members generalizing members' with
  | nil =>
    cases members' with
    | nil => rfl
    | cons _ _ => cases h
  | cons m members ih =>
    obtain ⟨k, a⟩ := m
    obtain ⟨b, rest, rfl, hb, hrest⟩ := beqMembers_cons.mp h
    rw [find?_key_cons, find?_key_cons]
    split
    · exact hb
    · exact ih hrest

theorem field_beq (h : (a == b) = true) (key : String) : (a.field key == b.field key) = true := by
  cases a with
  | obj members =>
    obtain ⟨members', rfl, hmembers⟩ := beq_obj.mp h
    exact beqMembers_find? hmembers key
  | arr items =>
    obtain ⟨items', rfl, _⟩ := beq_arr.mp h
    rfl
  | decimal d =>
    obtain ⟨d', rfl, _⟩ := beq_decimal.mp h
    rfl
  | null => cases beq_null.mp h; rfl
  | bool x => cases beq_bool.mp h; rfl
  | int n => cases beq_int.mp h; rfl
  | str s => cases beq_str.mp h; rfl

theorem beqMembers_insertMember {key : String} {members members' : List (String × Json)}
    (hab : beq a b = true) (h : beqMembers members members' = true) :
    beqMembers (insertMember key a members) (insertMember key b members') = true := by
  induction members generalizing members' with
  | nil =>
    cases members' with
    | nil => exact beqMembers_cons.mpr ⟨b, [], rfl, hab, rfl⟩
    | cons _ _ => cases h
  | cons m members ih =>
    obtain ⟨k, v⟩ := m
    obtain ⟨w, rest, rfl, hvw, hrest⟩ := beqMembers_cons.mp h
    rw [insertMember, insertMember]
    split
    · exact beqMembers_cons.mpr ⟨b, _, rfl, hab, h⟩
    · split
      · exact beqMembers_cons.mpr ⟨w, _, rfl, hvw, ih hrest⟩
      · exact beqMembers_cons.mpr ⟨b, _, rfl, hab, hrest⟩

/-- Objects built from equal members are equal. -/
theorem object_beq {members members' : List (String × Json)}
    (h : beqMembers members members' = true) : (object members == object members') = true := by
  suffices hfold : ∀ {acc acc' : List (String × Json)}, beqMembers acc acc' = true →
      beqMembers (members.foldl (fun acc m => insertMember m.1 m.2 acc) acc)
        (members'.foldl (fun acc m => insertMember m.1 m.2 acc) acc') = true from hfold rfl
  induction members generalizing members' with
  | nil =>
    cases members' with
    | nil => exact fun hacc => hacc
    | cons _ _ => cases h
  | cons m members ih =>
    obtain ⟨k, v⟩ := m
    obtain ⟨w, rest, rfl, hvw, hrest⟩ := beqMembers_cons.mp h
    exact fun hacc => ih hrest (beqMembers_insertMember hvw hacc)

theorem object_single_beq {key : String} : (object [(key, a)] == object [(key, b)]) = (a == b) := by
  refine Bool.eq_iff_iff.mpr ⟨fun h => ?_, fun h => object_beq (beqMembers_cons.mpr ⟨b, [], rfl, h, rfl⟩)⟩
  simpa [field, member?_object] using field_beq h key

theorem object_pair_beq {key key' : String} (hne : key ≠ key') {a' b' : Json} :
    (object [(key, a), (key', a')] == object [(key, b), (key', b')]) = (a == b && a' == b') := by
  refine Bool.eq_iff_iff.mpr ⟨fun h => ?_, fun h => ?_⟩
  · have hkey := field_beq h key
    have hkey' := field_beq h key'
    simp only [field, member?_object, List.reverse_cons, List.reverse_nil, List.nil_append,
      List.cons_append, find?_key_cons, if_true, if_neg hne, if_neg hne.symm, Option.map_some,
      Option.getD_some] at hkey hkey'
    exact (Bool.and_eq_true ..).mpr ⟨hkey, hkey'⟩
  · obtain ⟨h, h'⟩ := (Bool.and_eq_true ..).mp h
    exact object_beq (beqMembers_cons.mpr ⟨b, _, rfl, h, beqMembers_cons.mpr ⟨b', [], rfl, h', rfl⟩⟩)

end Json

/-! ## Equality of effects -/

/-- Both names refer to the same code. -/
def Target.SharesBody (t t' : Target) : Prop := t.shape = t'.shape ∧ t.body = t'.body

theorem Target.eq_iff {t t' : Target} : t = t' ↔ t.name = t'.name ∧ t.SharesBody t' := by
  constructor
  · rintro rfl
    exact ⟨rfl, rfl, rfl⟩
  · obtain ⟨name, shape, body⟩ := t
    rintro ⟨rfl, rfl, rfl⟩
    rfl

namespace TaskHandle

variable {h h' : TaskHandle}

/-- Both handles show the same outcome, whatever is kept in the registers of the schedulers. -/
def SharesCell (h h' : TaskHandle) : Prop :=
  ∀ registers : SchedulerId → ActiveTasks,
    (registers h.scheduler).outcome? h.id = (registers h'.scheduler).outcome? h'.id

theorem beq_iff : (h == h') = true ↔ h.scheduler = h'.scheduler ∧ h.id = h'.id := by
  show (h.scheduler == h'.scheduler && h.id == h'.id) = true ↔ _
  rw [Bool.and_eq_true, beq_iff_eq, beq_iff_eq]

theorem sharesCell_iff : h.SharesCell h' ↔ (h == h') = true := by
  rw [beq_iff]
  constructor
  · intro hcell
    -- a register in which nothing but the first handle's task is settled
    have hone := hcell fun s =>
      if s = h.scheduler then { settlements := [(h.id, .ok .null)] } else {}
    by_cases hs : h'.scheduler = h.scheduler
    · by_cases hid : h.id = h'.id
      · exact ⟨hs.symm, hid⟩
      · simp [ActiveTasks.outcome?, hs, hid] at hone
    · simp [ActiveTasks.outcome?, hs] at hone
  · rintro ⟨hs, hid⟩ registers
    rw [hs, hid]

instance : EquivBEq TaskHandle where
  rfl := beq_iff.mpr ⟨rfl, rfl⟩
  symm h := beq_iff.mpr ⟨(beq_iff.mp h).1.symm, (beq_iff.mp h).2.symm⟩
  trans h h' := beq_iff.mpr
    ⟨(beq_iff.mp h).1.trans (beq_iff.mp h').1, (beq_iff.mp h).2.trans (beq_iff.mp h').2⟩

end TaskHandle

namespace Effect

variable {e e' : Effect}

/-- The handle of a join. -/
def task? : Effect → Option TaskHandle
  | .join h => some h
  | _ => none

/-- What a creator has made. -/
inductive Made : Effect → Prop
  | put {event : Json} {e : Effect} (h : put? event = .ok e) : Made e
  | call (target : Target) (args : List Json) : Made (.call target args)
  | fork (target : Target) (args : List Json) : Made (.fork target args)
  | join {o : Output} {e : Effect} (h : join? o = .ok e) : Made e
  | custom {tag : String} {payload : Json} {e : Effect} (h : custom? tag payload = .ok e) : Made e

theorem put?_eq_ok {event : Json} : put? event = .ok e ↔ event.isObject = true ∧ e = .put event := by
  unfold put?
  split <;> rename_i h
  · exact ⟨fun heq => ⟨h, (Except.ok.inj heq).symm⟩, fun heq => congrArg _ heq.2.symm⟩
  · exact ⟨nofun, fun heq => absurd heq.1 h⟩

theorem join?_eq_ok {o : Output} : join? o = .ok e ↔ ∃ h, o = .task h ∧ e = .join h := by
  cases o with
  | task h =>
    constructor
    · rintro ⟨⟩
      exact ⟨h, rfl, rfl⟩
    · rintro ⟨_, ⟨⟩, rfl⟩
      rfl
  | value v => exact ⟨nofun, nofun⟩

theorem custom?_eq_ok {tag : String} {payload : Json} : custom? tag payload = .ok e ↔
    tag ≠ "" ∧ tag ∉ reservedTags ∧ payload.isObject = true ∧ e = .custom tag payload := by
  unfold custom?
  split <;> rename_i hempty
  · exact ⟨nofun, fun h => absurd hempty h.1⟩
  · split <;> rename_i hreserved
    · exact ⟨nofun, fun h => absurd hreserved h.2.1⟩
    · split <;> rename_i hobject
      · exact ⟨fun h => ⟨hempty, hreserved, hobject, (Except.ok.inj h).symm⟩,
          fun h => congrArg _ h.2.2.2.symm⟩
      · exact ⟨nofun, fun h => absurd h.2.2.1 hobject⟩

/-- A called or forked target is that of an equal effect if the name on the wire and the body are. -/
theorem target_beq {t t' : Target} {args args' : List Json} : (t == t' && args == args') = true ↔
    (Json.object [("target", .str t.name), ("args", .arr args)] ==
      Json.object [("target", .str t'.name), ("args", .arr args')]) = true ∧ t.SharesBody t' := by
  rw [Json.object_pair_beq (by decide), Json.str_beq, Json.arr_beq, Bool.and_eq_true,
    Bool.and_eq_true, beq_iff_eq, beq_iff_eq (a := t.name), Target.eq_iff]
  exact and_right_comm

theorem handle_beq {h h' : TaskHandle} : (h == h') = true ↔
    (Json.object [("task", h.wire)] == Json.object [("task", h'.wire)]) = true ∧ h.SharesCell h' := by
  rw [Json.object_single_beq, TaskHandle.wire, TaskHandle.wire, TaskId.wire, TaskId.wire,
    Json.object_single_beq, TaskHandle.sharesCell_iff, iff_and_self]
  intro heq
  rw [(TaskHandle.beq_iff.mp heq).2]
  exact BEq.rfl

/-- **Equal effects** are of one kind and carry equal payloads, and what the payloads do not show is the
same too. -/
theorem beq_iff : (e == e') = true ↔ e.kind = e'.kind ∧ (e.payload == e'.payload) = true ∧
    (∀ t ∈ e.target?, ∀ t' ∈ e'.target?, t.SharesBody t') ∧
    ∀ h ∈ e.task?, ∀ h' ∈ e'.task?, h.SharesCell h' := by
  cases e with
  | put event =>
    cases e' with
    | put event' =>
      show (event == event') = true ↔ _
      simp [kind, payload, target?, task?, Json.object_single_beq]
    | _ => exact ⟨nofun, fun h => nomatch h.1⟩
  | call target args =>
    cases e' with
    | call target' args' =>
      refine target_beq.trans ?_
      simp [kind, payload, target?, task?]
    | _ => exact ⟨nofun, fun h => nomatch h.1⟩
  | fork target args =>
    cases e' with
    | fork target' args' =>
      refine target_beq.trans ?_
      simp [kind, payload, target?, task?]
    | _ => exact ⟨nofun, fun h => nomatch h.1⟩
  | join h =>
    cases e' with
    | join h' =>
      refine (handle_beq : (h == h') = true ↔ _).trans ?_
      simp [kind, payload, target?, task?]
    | _ => exact ⟨nofun, fun h => nomatch h.1⟩
  | custom tag payload =>
    cases e' with
    | custom tag' payload' =>
      simp only [kind, Effect.payload, target?, task?, EffectKind.custom.injEq]
      show (tag == tag' && payload == payload') = true ↔ _
      rw [Bool.and_eq_true, beq_iff_eq]
      exact ⟨fun h => ⟨h.1, h.2, nofun, nofun⟩, fun h => ⟨h.1, h.2.1⟩⟩
    | _ => exact ⟨nofun, fun h => nomatch h.1⟩

theorem target?_of_kind {t : Target} (hkind : e.kind = e'.kind) (ht : t ∈ e.target?) :
    ∃ t', t' ∈ e'.target? := by
  cases e <;> cases e' <;> cases hkind <;> first | exact ⟨_, rfl⟩ | cases ht

theorem task?_of_kind {h : TaskHandle} (hkind : e.kind = e'.kind) (hh : h ∈ e.task?) :
    ∃ h', h' ∈ e'.task? := by
  cases e <;> cases e' <;> cases hkind <;> first | exact ⟨_, rfl⟩ | cases hh

instance : EquivBEq Effect where
  rfl := by
    refine beq_iff.mpr ⟨rfl, BEq.rfl, fun t ht t' ht' => ?_, fun h hh h' hh' _ => ?_⟩
    · cases Option.mem_unique ht ht'
      exact ⟨rfl, rfl⟩
    · cases Option.mem_unique hh hh'
      rfl
  symm h := by
    obtain ⟨hkind, hpayload, hbody, hcell⟩ := beq_iff.mp h
    exact beq_iff.mpr ⟨hkind.symm, BEq.symm hpayload,
      fun t ht t' ht' => ⟨(hbody t' ht' t ht).1.symm, (hbody t' ht' t ht).2.symm⟩,
      fun h hh h' hh' registers => (hcell h' hh' h hh registers).symm⟩
  trans h h' := by
    obtain ⟨hkind, hpayload, hbody, hcell⟩ := beq_iff.mp h
    obtain ⟨hkind', hpayload', hbody', hcell'⟩ := beq_iff.mp h'
    refine beq_iff.mpr ⟨hkind.trans hkind', BEq.trans hpayload hpayload', fun t ht t'' ht'' => ?_,
      fun h hh h'' hh'' registers => ?_⟩
    · obtain ⟨t', ht'⟩ := target?_of_kind hkind ht
      obtain ⟨hshape, hcode⟩ := hbody t ht t' ht'
      obtain ⟨hshape', hcode'⟩ := hbody' t' ht' t'' ht''
      exact ⟨hshape.trans hshape', hcode.trans hcode'⟩
    · obtain ⟨h', hh'⟩ := task?_of_kind hkind hh
      exact (hcell h hh h' hh' registers).trans (hcell' h' hh' h'' hh'' registers)

/-! ## Kinds on the wire -/

theorem field_wire (e : Effect) : e.wire.field "kind" = .str e.kind.tag := by
  simp [wire, Json.field, Json.member?_object]

theorem wire_beq : (e.wire == e'.wire) = (e.kind.tag == e'.kind.tag && e.payload == e'.payload) := by
  rw [wire, wire, Json.object_pair_beq (by decide), Json.str_beq]

namespace Made

theorem not_reserved (h : e.Made) {tag : String} (hkind : e.kind = .custom tag) :
    tag ∉ reservedTags := by
  cases h with
  | put h =>
    obtain ⟨_, rfl⟩ := put?_eq_ok.mp h
    cases hkind
  | join h =>
    obtain ⟨_, _, rfl⟩ := join?_eq_ok.mp h
    cases hkind
  | custom h =>
    obtain ⟨_, hreserved, _, rfl⟩ := custom?_eq_ok.mp h
    cases hkind
    exact hreserved
  | _ => cases hkind

/-- The word on the wire denotes the kind. -/
theorem ofTag_kind (h : e.Made) : EffectKind.ofTag e.kind.tag = e.kind :=
  EffectKind.ofTag_tag _ fun _ hkind hmem => h.not_reserved hkind (List.mem_append_left _ hmem)

theorem kind_eq (h : e.Made) (h' : e'.Made) (htag : e.kind.tag = e'.kind.tag) : e.kind = e'.kind := by
  rw [← h.ofTag_kind, htag, h'.ofTag_kind]

theorem tag_ne_terminate (h : e.Made) : e.kind.tag ≠ terminateTag := by
  cases hkind : e.kind with
  | custom tag =>
    rintro rfl
    exact h.not_reserved hkind (List.mem_append_right _ (List.mem_singleton_self _))
  | _ => decide

end Made

end Effect

/-- What the creators accept, and what they make of it. -/
structure CreatorsAccept : Prop where
  put : ∀ event e, Effect.put? event = .ok e ↔ event.isObject = true ∧ e = .put event
  join : ∀ o e, Effect.join? o = .ok e ↔ ∃ h, o = .task h ∧ e = .join h
  custom : ∀ tag payload e, Effect.custom? tag payload = .ok e ↔
    tag ≠ "" ∧ tag ∉ ["PUT", "CALL", "FORK", "JOIN", "TERMINATE"] ∧ payload.isObject = true ∧
      e = .custom tag payload

/-- How two effects and their wire forms belong together. -/
structure WiresAgree (e e' : Effect) : Prop where
  /-- The wire leaves out the body of a target and the place of an outcome, and nothing else. -/
  beq_iff : (e == e') = true ↔ (e.wire == e'.wire) = true ∧
    (∀ t ∈ e.target?, ∀ t' ∈ e'.target?, t.SharesBody t') ∧
    ∀ h ∈ e.task?, ∀ h' ∈ e'.task?, h.SharesCell h'
  /-- The word on the wire denotes the kind. -/
  kind : ∃ tag, e.wire.field "kind" = .str tag ∧ EffectKind.ofTag tag = e.kind
  /-- Effects with one word on the wire share their place in every table of processors. -/
  routed : (e.wire.field "kind" == e'.wire.field "kind") = true → ∀ table : ProcessorTable ProcessorRef,
    table.get? e.kind = table.get? e'.kind ∧ ∀ ref, (table.insert e.kind ref).get? e'.kind = some ref
  /-- The early-termination signal is told apart from every effect. -/
  no_token : ∀ token : TerminationToken, (e.wire == token.wire) = false

/-- **Wire form, equality and routing agree** for all effects that the creators make, which accept no
more than they should: two of them are equal exactly if their wire forms are, the bodies of their
targets and the places of the outcomes they wait for being the same. Equality of effects is an
equivalence. The kind on the wire decides which processor an effect goes to, and no wire form is that
of a termination token. -/
theorem wires_agree {e e' : Effect} (h : e.Made) (h' : e'.Made) :
    CreatorsAccept ∧ Equivalence (fun a b : Effect => (a == b) = true) ∧ WiresAgree e e' := by
  refine ⟨⟨fun _ _ => Effect.put?_eq_ok, fun _ _ => Effect.join?_eq_ok,
    fun _ _ _ => Effect.custom?_eq_ok⟩, ⟨fun _ => BEq.rfl, BEq.symm, BEq.trans⟩, ?_⟩
  have hroute : (e.wire.field "kind" == e'.wire.field "kind") = true → e.kind = e'.kind := by
    rw [Effect.field_wire, Effect.field_wire, Json.str_beq, beq_iff_eq]
    exact h.kind_eq h'
  exact
    { beq_iff := by
        rw [Effect.beq_iff, Effect.wire_beq, Bool.and_eq_true, beq_iff_eq (a := e.kind.tag), and_assoc]
        exact and_congr_left fun _ => ⟨congrArg EffectKind.tag, h.kind_eq h'⟩
      kind := ⟨e.kind.tag, e.field_wire, h.ofTag_kind⟩
      routed := fun heq table => by
        rw [hroute heq]
        exact ⟨rfl, fun ref => by rw [ProcessorTable.get?_insert, if_pos rfl]⟩
      no_token := fun token => by
        rw [Effect.wire, TerminationToken.wire, Json.object_pair_beq (by decide), Json.str_beq,
          beq_eq_false_iff_ne.mpr h.tag_ne_terminate, Bool.false_and] }

/-- Two functions of one name look alike on the wire, and calls of them are not equal. -/
theorem namesakes_agree :
    let doubling : Effect := .call ⟨"double", .function, ⟨"double", []⟩⟩ [.nat 2]
    let shifting : Effect := .call ⟨"double", .function, ⟨"shift", []⟩⟩ [.nat 2]
    (doubling.wire == shifting.wire) = true ∧ ¬ (doubling == shifting) = true ∧
      (doubling.wire == (⟨⟨2⟩⟩ : TerminationToken).wire) = false := by
  obtain ⟨_, _, hagree⟩ := wires_agree
    (.call ⟨"double", .function, ⟨"double", []⟩⟩ [.nat 2])
    (.call ⟨"double", .function, ⟨"shift", []⟩⟩ [.nat 2])
  refine ⟨BEq.rfl, fun heq => ?_, hagree.no_token ⟨⟨2⟩⟩⟩
  obtain ⟨_, hbody⟩ := (hagree.beq_iff.mp heq).2.1 _ rfl _ rfl
  exact absurd hbody (by decide)

end EffectLoop
