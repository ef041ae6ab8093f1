import EffectLoop.Order.Config
import EffectLoop.Proofs.Numerals
import EffectLoop.Scheduler.Config
import Mathlib.Data.List.Forall2

/-!
# Which settings are read

Two sets of settings are read from the same kind of lookup, and they are not equally strict: a limit has
to be positive, a latency may be zero; a blank name counts as none, an empty id is taken as it stands.
`SettingsRead` says for every lookup which settings are accepted and what they come to, in terms of the
grammar of numerals alone; `settings_read` is the proof.
-/

namespace EffectLoop

open Text

/-- The characters of a word, each in either ASCII letter case. -/
def SameLetters (cs word : List Char) : Prop := List.Forall₂ (fun c d => c = d ∨ c = d.toUpper) cs word

/-- The words that take a checkout off its happy path. -/
def refusals : List String := ["false", "0", "no"]

/-- What is read from the settings that `lookup` finds. -/
structure SettingsRead (lookup : String → Option String) : Prop where
  /-- A limit that is set has to be a number from 1 to the largest 64-bit word; nothing else matters. -/
  accepts : (∃ config, SchedulerConfig.ofLookup lookup = .ok config) ↔
    ∀ raw ∈ lookup SchedulerConfig.limitKey, ∃ n, Denotes raw n ∧ 1 ≤ n ∧ n ≤ Nat.pow 2 64 - 1
  limit : ∀ config, SchedulerConfig.ofLookup lookup = .ok config →
    (lookup SchedulerConfig.limitKey = none ∧ config.passThroughLimit = none) ∨
    ∃ raw n, lookup SchedulerConfig.limitKey = some raw ∧ Denotes raw n ∧
      config.passThroughLimit = some n
  name : ∀ config, SchedulerConfig.ofLookup lookup = .ok config →
    (∃ raw, lookup SchedulerConfig.nameKey = some raw ∧ Trimmed raw.toList config.name.toList ∧
      config.name ≠ "") ∨
    ((∀ raw ∈ lookup SchedulerConfig.nameKey, Blank raw.toList) ∧ config.name = "yield-effect")
  /-- The error shows the limit as it was set, blanks and all. -/
  refuses : ∀ e, SchedulerConfig.ofLookup lookup = .error e →
    e.key = SchedulerConfig.limitKey ∧ lookup SchedulerConfig.limitKey = some e.value
  /-- A latency that is set has to be a number up to the largest 64-bit word; nothing else matters. -/
  orderAccepts : (∃ config, Order.Config.ofLookup lookup = .ok config) ↔
    ∀ raw ∈ lookup Order.Config.latencyKey, ∃ n, Denotes raw n ∧ n ≤ Nat.pow 2 64 - 1
  latency : ∀ config, Order.Config.ofLookup lookup = .ok config →
    (lookup Order.Config.latencyKey = none ∧ config.latency = 250) ∨
    ∃ raw, lookup Order.Config.latencyKey = some raw ∧ Denotes raw config.latency
  ids : ∀ config, Order.Config.ofLookup lookup = .ok config →
    config.productId = (lookup Order.Config.productKey).getD "PRDCT_ID_1122" ∧
    config.userId = (lookup Order.Config.userKey).getD "USR_ID_9999"
  happyPath : ∀ config, Order.Config.ofLookup lookup = .ok config →
    (config.happyPath = false ↔ ∃ raw core word, lookup Order.Config.happyPathKey = some raw ∧
      Trimmed raw.toList core ∧ word ∈ refusals ∧ SameLetters core word.toList)
  orderRefuses : ∀ e, Order.Config.ofLookup lookup = .error e →
    lookup Order.Config.latencyKey = some e.value
  /-- A number in range reads back as itself from its decimal form between any blanks. -/
  decimal : ∀ (n : Nat) (before after : String), Blank before.toList → Blank after.toList →
    (lookup SchedulerConfig.limitKey = some (before ++ toString n ++ after) →
      1 ≤ n → n ≤ Nat.pow 2 64 - 1 →
      ∃ config, SchedulerConfig.ofLookup lookup = .ok config ∧ config.passThroughLimit = some n) ∧
    (lookup Order.Config.latencyKey = some (before ++ toString n ++ after) → n ≤ Nat.pow 2 64 - 1 →
      ∃ config, Order.Config.ofLookup lookup = .ok config ∧ config.latency = n)

/-! ## Numbers of settings -/

theorem map_eq_error_iff {ε α β : Type} {f : α → β} {x : Except ε α} {e : ε} :
    x.map f = .error e ↔ x = .error e := by
  cases x <;> simp [Except.map]

/-- What a setting denotes is what the reader finds in it, if that is within the bound. -/
theorem readNumeral_trimChars_iff (bound : Nat) (raw : String) (n : Nat) :
    readNumeral bound (trimChars raw.toList) = .ok n ↔ Denotes raw n ∧ n ≤ bound := by
  rw [readNumeral_eq_ok_iff, denotes_iff]

theorem Text.Denotes.unique {raw : String} {m n : Nat} (hm : Denotes raw m) (hn : Denotes raw n) :
    m = n :=
  (denotes_iff.mp hm).unique (denotes_iff.mp hn)

/-! ## The scheduler's settings -/

namespace SchedulerConfig

theorem readLimit_eq_ok_iff (raw : String) (limit : Option Nat) :
    readLimit (some raw) = .ok limit ↔
      ∃ n, limit = some n ∧ Denotes raw n ∧ 1 ≤ n ∧ n ≤ Nat.pow 2 64 - 1 := by
  have hread : ∀ n, readNumeral maxWord (trimChars raw.toList) = .ok n ↔
      Denotes raw n ∧ n ≤ Nat.pow 2 64 - 1 := readNumeral_trimChars_iff maxWord raw
  unfold readLimit
  dsimp only
  split
  case h_1 m hm =>
    obtain ⟨hdenotes, hle⟩ := (hread (m + 1)).mp hm
    constructor
    · intro h
      cases h
      exact ⟨m + 1, rfl, hdenotes, Nat.le_add_left 1 m, hle⟩
    · rintro ⟨n, rfl, hn, -⟩
      rw [hn.unique hdenotes]
  case h_2 hother =>
    refine iff_of_false nofun ?_
    rintro ⟨n, -, hn, hpos, hle⟩
    obtain ⟨m, rfl⟩ := Nat.exists_eq_add_of_le' hpos
    exact hother m ((hread (m + 1)).mpr ⟨hn, hle⟩)

example : readLimit (some " +007\n") = .ok (some 7) := rfl

theorem exists_readLimit_iff (setting : Option String) :
    (∃ limit, readLimit setting = .ok limit) ↔
      ∀ raw ∈ setting, ∃ n, Denotes raw n ∧ 1 ≤ n ∧ n ≤ Nat.pow 2 64 - 1 := by
  cases setting with
  | none => exact iff_of_true ⟨none, rfl⟩ nofun
  | some raw =>
    simp only [readLimit_eq_ok_iff, Option.mem_def, Option.some.injEq, forall_eq']
    constructor
    · rintro ⟨limit, n, -, hn⟩
      exact ⟨n, hn⟩
    · rintro ⟨n, hn⟩
      exact ⟨some n, n, rfl, hn⟩

/-- A limit that is read was not set, or is what the setting denotes. -/
theorem limit_of_readLimit {setting : Option String} {limit : Option Nat}
    (h : readLimit setting = .ok limit) : (setting = none ∧ limit = none) ∨
      ∃ raw n, setting = some raw ∧ Denotes raw n ∧ limit = some n := by
  cases setting with
  | none => exact .inl ⟨rfl, (Except.ok.inj h).symm⟩
  | some raw =>
    obtain ⟨n, hn, hdenotes, -⟩ := (readLimit_eq_ok_iff raw limit).mp h
    exact .inr ⟨raw, n, rfl, hdenotes, hn⟩

theorem readLimit_eq_error {setting : Option String} {e : InvalidNumber}
    (h : readLimit setting = .error e) : e.key = limitKey ∧ setting = some e.value := by
  cases setting with
  | none => cases h
  | some raw =>
    unfold readLimit at h
    dsimp only at h
    split at h
    · cases h
    · cases h
      exact ⟨rfl, rfl⟩

theorem ofLookup_eq (lookup : String → Option String) :
    ofLookup lookup =
      (readLimit (lookup limitKey)).map fun limit => ⟨readName (lookup nameKey), limit⟩ := by
  unfold ofLookup
  cases readLimit (lookup limitKey) <;> rfl

/-- The settings are read as soon as the limit is. -/
theorem exists_ofLookup_iff (lookup : String → Option String) :
    (∃ config, ofLookup lookup = .ok config) ↔ ∃ limit, readLimit (lookup limitKey) = .ok limit := by
  rw [ofLookup_eq]
  cases readLimit (lookup limitKey) <;> simp [Except.map]

theorem ofLookup_eq_ok_iff (lookup : String → Option String) (config : SchedulerConfig) :
    ofLookup lookup = .ok config ↔
      readLimit (lookup limitKey) = .ok config.passThroughLimit ∧
      config.name = readName (lookup nameKey) := by
  rw [ofLookup_eq]
  obtain ⟨name, passThroughLimit⟩ := config
  cases readLimit (lookup limitKey) with
  | error e => exact iff_of_false nofun fun h => nomatch h.1
  | ok limit =>
    simp only [Except.map, Except.ok.injEq, mk.injEq]
    exact ⟨fun h => ⟨h.2, h.1.symm⟩, fun h => ⟨h.2.symm, h.1⟩⟩

theorem ofLookup_eq_error_iff (lookup : String → Option String) (e : InvalidNumber) :
    ofLookup lookup = .error e ↔ readLimit (lookup limitKey) = .error e := by
  rw [ofLookup_eq, map_eq_error_iff]

/-- A name is what is left without the blanks, or the default if nothing is left. -/
theorem readName_cases (setting : Option String) :
    (∃ raw, setting = some raw ∧ Trimmed raw.toList (readName setting).toList ∧
      readName setting ≠ "") ∨
    ((∀ raw ∈ setting, Blank raw.toList) ∧ readName setting = "yield-effect") := by
  cases setting with
  | none => exact .inr ⟨nofun, rfl⟩
  | some raw =>
    unfold readName
    dsimp only
    split
    case isTrue hempty =>
      right
      refine ⟨?_, rfl⟩
      rintro _ ⟨⟩
      have hcore : trimChars raw.toList = [] := String.ofList_injective hempty
      obtain ⟨before, after, happ, hbefore, hafter, -⟩ := trimmed_iff.mpr hcore
      rw [happ, List.append_nil]
      exact fun c hc => (List.mem_append.mp hc).elim (hbefore c) (hafter c)
    case isFalse hne =>
      left
      exact ⟨raw, rfl, trimmed_iff.mpr String.toList_ofList.symm, hne⟩

end SchedulerConfig

/-! ## The settings of a checkout -/

theorem toNat_toLower (c : Char) :
    c.toLower.toNat = if 65 ≤ c.toNat ∧ c.toNat ≤ 90 then c.toNat + 32 else c.toNat := by
  unfold Char.toLower
  split
  · rename_i h
    obtain ⟨hge, hle⟩ : 65 ≤ c.toNat ∧ c.toNat ≤ 90 := h
    rw [if_pos ⟨hge, hle⟩]
    show (c.toNat + 32) % 2 ^ 32 = _
    exact Nat.mod_eq_of_lt (by omega)
  · exact (if_neg ‹_›).symm

theorem toNat_toUpper (c : Char) :
    c.toUpper.toNat = if 97 ≤ c.toNat ∧ c.toNat ≤ 122 then c.toNat - 32 else c.toNat := by
  unfold Char.toUpper
  split
  · rename_i h
    obtain ⟨hge, hle⟩ : 97 ≤ c.toNat ∧ c.toNat ≤ 122 := h
    rw [if_pos ⟨hge, hle⟩]
    -- The distance of the two cases is negative, so it is added modulo the word.
    have hshift : ('A'.val - 'a'.val).toNat = 2 ^ 32 - 32 := by decide
    refine (UInt32.toNat_add _ _).trans ?_
    rw [hshift]
    show (c.toNat + _) % _ = _
    omega
  · exact (if_neg ‹_›).symm

/-- Only a letter and its capital become the letter. -/
theorem toLower_eq_iff {d : Char} (hd : d.isUpper = false) (c : Char) :
    c.toLower = d ↔ c = d ∨ c = d.toUpper := by
  have hd : ¬ (65 ≤ d.toNat ∧ d.toNat ≤ 90) := of_decide_eq_false hd
  simp only [← Char.toNat_inj, toNat_toLower, toNat_toUpper]
  split <;> split <;> omega

theorem map_toLower_eq_iff {word : List Char} (hword : ∀ d ∈ word, d.isUpper = false)
    (cs : List Char) : cs.map Char.toLower = word ↔ SameLetters cs word := by
  induction word generalizing cs with
  | nil => rw [List.map_eq_nil_iff, SameLetters, List.forall₂_nil_right_iff]
  | cons d word ih =>
    obtain ⟨hd, hword⟩ := List.forall_mem_cons.mp hword
    cases cs with
    | nil => exact iff_of_false nofun nofun
    | cons c cs =>
      rw [List.map_cons, List.cons.injEq, toLower_eq_iff hd, ih hword]
      simp only [SameLetters, List.forall₂_cons]

namespace Order.Config

theorem readLatency_eq_ok_iff (raw : String) (n : Nat) :
    readLatency (some raw) = .ok n ↔ Denotes raw n ∧ n ≤ Nat.pow 2 64 - 1 := by
  rw [show (Nat.pow 2 64 - 1 : Nat) = maxWord from rfl, ← readNumeral_trimChars_iff]
  unfold readLatency
  dsimp only
  cases readNumeral maxWord (trimChars raw.toList) with
  | ok m => simp only [Except.ok.injEq]
  | error cause => exact iff_of_false nofun nofun

theorem exists_readLatency_iff (setting : Option String) :
    (∃ n, readLatency setting = .ok n) ↔
      ∀ raw ∈ setting, ∃ n, Denotes raw n ∧ n ≤ Nat.pow 2 64 - 1 := by
  cases setting with
  | none => exact iff_of_true ⟨_, rfl⟩ nofun
  | some raw => simp only [readLatency_eq_ok_iff, Option.mem_def, Option.some.injEq, forall_eq']

/-- A latency that is read is the default, or what the setting denotes. -/
theorem latency_of_readLatency {setting : Option String} {n : Nat} (h : readLatency setting = .ok n) :
    (setting = none ∧ n = 250) ∨ ∃ raw, setting = some raw ∧ Denotes raw n := by
  cases setting with
  | none => exact .inl ⟨rfl, (Except.ok.inj h).symm⟩
  | some raw => exact .inr ⟨raw, rfl, ((readLatency_eq_ok_iff raw n).mp h).1⟩

theorem readLatency_eq_error {setting : Option String} {e : InvalidLatency}
    (h : readLatency setting = .error e) : setting = some e.value := by
  cases setting with
  | none => cases h
  | some raw =>
    unfold readLatency at h
    dsimp only at h
    split at h
    · cases h
    · cases h
      rfl

theorem readHappyPath_eq_false_iff (setting : Option String) :
    readHappyPath setting = false ↔ ∃ raw core word, setting = some raw ∧
      Trimmed raw.toList core ∧ word ∈ refusals ∧ SameLetters core word.toList := by
  cases setting with
  | none => exact iff_of_false nofun fun ⟨_, _, _, h, _⟩ => nomatch h
  | some raw =>
    have hlower : ∀ word ∈ refusals, ∀ d ∈ word.toList, d.isUpper = false := by simp [refusals]
    have hread : readHappyPath (some raw) = false ↔
        ∃ word ∈ refusals, (trimChars raw.toList).map Char.toLower = word.toList := by
      simp only [readHappyPath, refusals, decide_eq_false_iff_not, not_not, List.mem_cons,
        List.not_mem_nil, or_false, exists_eq_or_imp, exists_eq_left]
    rw [hread]
    constructor
    · rintro ⟨word, hword, h⟩
      exact ⟨raw, _, word, rfl, trimmed_trimChars _, hword,
        (map_toLower_eq_iff (hlower word hword) _).mp h⟩
    · rintro ⟨raw', core, word, hraw, hcore, hword, h⟩
      cases hraw
      exact ⟨word, hword, hcore.eq ▸ (map_toLower_eq_iff (hlower word hword) _).mpr h⟩

example : readHappyPath (some " No ") = false := rfl

theorem ofLookup_eq (lookup : String → Option String) :
    ofLookup lookup = (readLatency (lookup latencyKey)).map fun latency =>
      { productId := (lookup productKey).getD "PRDCT_ID_1122"
        userId := (lookup userKey).getD "USR_ID_9999"
        happyPath := readHappyPath (lookup happyPathKey)
        latency } := by
  unfold ofLookup
  cases readLatency (lookup latencyKey) <;> rfl

/-- The settings are read as soon as the latency is. -/
theorem exists_ofLookup_iff (lookup : String → Option String) :
    (∃ config, ofLookup lookup = .ok config) ↔ ∃ n, readLatency (lookup latencyKey) = .ok n := by
  rw [ofLookup_eq]
  cases readLatency (lookup latencyKey) <;> simp [Except.map]

theorem ofLookup_eq_ok_iff (lookup : String → Option String) (config : Config) :
    ofLookup lookup = .ok config ↔
      readLatency (lookup latencyKey) = .ok config.latency ∧
      config.productId = (lookup productKey).getD "PRDCT_ID_1122" ∧
      config.userId = (lookup userKey).getD "USR_ID_9999" ∧
      config.happyPath = readHappyPath (lookup happyPathKey) := by
  rw [ofLookup_eq]
  obtain ⟨productId, userId, happyPath, latency⟩ := config
  cases readLatency (lookup latencyKey) with
  | error e => exact iff_of_false nofun fun h => nomatch h.1
  | ok read =>
    simp only [Except.map, Except.ok.injEq, mk.injEq]
    constructor
    · rintro ⟨rfl, rfl, rfl, rfl⟩
      exact ⟨rfl, rfl, rfl, rfl⟩
    · rintro ⟨rfl, rfl, rfl, rfl⟩
      exact ⟨rfl, rfl, rfl, rfl⟩

theorem ofLookup_eq_error_iff (lookup : String → Option String) (e : InvalidLatency) :
    ofLookup lookup = .error e ↔ readLatency (lookup latencyKey) = .error e := by
  rw [ofLookup_eq, map_eq_error_iff]

end Order.Config

/-! ## All together -/

/-- **Settings are accepted exactly by their grammar**, and come to what they denote. -/
theorem settings_read (lookup : String → Option String) : SettingsRead lookup := by
  constructor
  case accepts =>
    exact (SchedulerConfig.exists_ofLookup_iff lookup).trans (SchedulerConfig.exists_readLimit_iff _)
  case limit =>
    intro config h
    exact SchedulerConfig.limit_of_readLimit ((SchedulerConfig.ofLookup_eq_ok_iff lookup config).mp h).1
  case name =>
    intro config h
    rw [((SchedulerConfig.ofLookup_eq_ok_iff lookup config).mp h).2]
    exact SchedulerConfig.readName_cases _
  case refuses =>
    intro e h
    exact SchedulerConfig.readLimit_eq_error ((SchedulerConfig.ofLookup_eq_error_iff lookup e).mp h)
  case orderAccepts =>
    exact (Order.Config.exists_ofLookup_iff lookup).trans (Order.Config.exists_readLatency_iff _)
  case latency =>
    intro config h
    exact Order.Config.latency_of_readLatency ((Order.Config.ofLookup_eq_ok_iff lookup config).mp h).1
  case ids =>
    intro config h
    obtain ⟨-, hproduct, huser, -⟩ := (Order.Config.ofLookup_eq_ok_iff lookup config).mp h
    exact ⟨hproduct, huser⟩
  case happyPath =>
    intro config h
    rw [((Order.Config.ofLookup_eq_ok_iff lookup config).mp h).2.2.2,
      Order.Config.readHappyPath_eq_false_iff]
  case orderRefuses =>
    intro e h
    exact Order.Config.readLatency_eq_error ((Order.Config.ofLookup_eq_error_iff lookup e).mp h)
  case decimal =>
    intro n before after hbefore hafter
    have hn := denotes_decimal n hbefore hafter
    refine ⟨fun hset hpos hle => ?_, fun hset hle => ?_⟩
    · have hread := (SchedulerConfig.readLimit_eq_ok_iff _ _).mpr ⟨n, rfl, hn, hpos, hle⟩
      rw [SchedulerConfig.ofLookup_eq, hset, hread]
      exact ⟨_, rfl, rfl⟩
    · have hread := (Order.Config.readLatency_eq_ok_iff _ _).mpr ⟨hn, hle⟩
      rw [Order.Config.ofLookup_eq, hset, hread]
      exact ⟨_, rfl, rfl⟩

end EffectLoop
