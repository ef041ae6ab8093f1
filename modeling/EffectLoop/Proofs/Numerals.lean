import EffectLoop.Text.Blank
import EffectLoop.Text.Numeral
import Mathlib.Data.List.DropRight

/-!
# What counts as a number

The grammar that reading a setting is held to, told without a reader.

* `Trimmed`: what is left of a text when the blanks at both ends are gone. There is one such text, and
  trimming finds it (`trimmed_iff`).
* `Numeral`: an optional plus sign, then ASCII digits, and the number they denote in base ten. Reading
  accepts exactly the numerals up to its bound (`readNumeral_eq_ok_iff`): a sum of digits never falls
  (`le_ofDigitChars`), so a text refused in the middle denotes a number above the bound.
* `Denotes`: a setting that is a numeral between blanks. A number in decimal, between any blanks,
  denotes itself (`denotes_decimal`).
-/

namespace EffectLoop.Text

/-- Nothing but white space. -/
def Blank (cs : List Char) : Prop := ∀ c ∈ cs, isBlank c = true

/-- `core` is what is left of `cs` without the blanks at both ends. -/
def Trimmed (cs core : List Char) : Prop :=
  ∃ before after, cs = before ++ core ++ after ∧ Blank before ∧ Blank after ∧
    (∀ c ∈ core.head?, isBlank c = false) ∧ ∀ c ∈ core.getLast?, isBlank c = false

/-- `cs` is an optional plus sign and then ASCII digits, at least one, that denote `n`. -/
def Numeral (cs : List Char) (n : Nat) : Prop :=
  ∃ sign digits, cs = sign ++ digits ∧ (sign = [] ∨ sign = ['+']) ∧ digits ≠ [] ∧
    (∀ c ∈ digits, '0' ≤ c ∧ c ≤ '9') ∧ n = Nat.ofDigitChars 10 digits 0

/-- A setting is a numeral for `n`, with blanks around it. -/
def Denotes (raw : String) (n : Nat) : Prop := ∃ core, Trimmed raw.toList core ∧ Numeral core n

/-! ## Trimming -/

theorem dropWhile_blank_append {before : List Char} (h : Blank before) (cs : List Char) :
    (before ++ cs).dropWhile isBlank = cs.dropWhile isBlank := by
  rw [List.dropWhile_append, List.dropWhile_eq_nil_iff.mpr h]
  rfl

theorem dropWhile_of_head? {core : List Char} (h : ∀ c ∈ core.head?, isBlank c = false)
    (hne : core ≠ []) (cs : List Char) : (core ++ cs).dropWhile isBlank = core ++ cs := by
  cases core with
  | nil => exact absurd rfl hne
  | cons c rest =>
    have hc : isBlank c = false := h c rfl
    rw [List.cons_append, List.dropWhile_cons_of_neg (by simp [hc])]

/-- A text has no other trimmed form than the one that trimming finds. -/
theorem Trimmed.eq {cs core : List Char} (h : Trimmed cs core) : trimChars cs = core := by
  obtain ⟨before, after, rfl, hbefore, hafter, hhead, hlast⟩ := h
  have hafter : Blank after.reverse := fun c hc => hafter c (List.mem_reverse.mp hc)
  rw [trimChars, List.append_assoc, dropWhile_blank_append hbefore]
  by_cases hne : core = []
  · subst hne
    rw [List.nil_append, List.dropWhile_eq_nil_iff.mpr fun c hc => hafter c (List.mem_reverse.mpr hc)]
    rfl
  · have hlast : ∀ c ∈ core.reverse.head?, isBlank c = false := by rwa [List.head?_reverse]
    have hback := dropWhile_of_head? hlast (by simpa using hne) []
    rw [List.append_nil] at hback
    rw [dropWhile_of_head? hhead hne, List.reverse_append, dropWhile_blank_append hafter, hback,
      List.reverse_reverse]

theorem trimmed_trimChars (cs : List Char) : Trimmed cs (trimChars cs) := by
  have hcore : trimChars cs = (cs.dropWhile isBlank).rdropWhile isBlank := rfl
  refine ⟨cs.takeWhile isBlank, (cs.dropWhile isBlank).rtakeWhile isBlank, ?_, ?_, ?_, ?_, ?_⟩
  · rw [hcore, List.append_assoc, List.rdropWhile_append_rtakeWhile,
      List.takeWhile_append_dropWhile]
  · exact fun c hc => List.mem_takeWhile_imp hc
  · exact fun c hc => List.mem_rtakeWhile_imp hc
  · -- The first character of a prefix is the first character of the whole.
    intro c hc
    obtain ⟨tail, htail⟩ := List.rdropWhile_prefix isBlank (l := cs.dropWhile isBlank)
    rw [← hcore] at htail
    have hhead : c ∈ (cs.dropWhile isBlank).head? := by
      rw [← htail, List.head?_append, hc]
      rfl
    have hne : cs.dropWhile isBlank ≠ [] := fun he => by rw [he] at hhead; cases hhead
    rw [List.head?_eq_some_head hne] at hhead
    cases hhead
    exact List.head_dropWhile_not isBlank hne
  · intro c hc
    rw [hcore] at hc
    have hne : (cs.dropWhile isBlank).rdropWhile isBlank ≠ [] := fun he => by rw [he] at hc; cases hc
    rw [List.getLast?_eq_some_getLast hne] at hc
    cases hc
    exact Bool.eq_false_iff.mpr (List.rdropWhile_last_not isBlank _ hne)

/-- **Trimming leaves what is not blank at its ends**, and nothing else will do. -/
theorem trimmed_iff {cs core : List Char} : Trimmed cs core ↔ trimChars cs = core :=
  ⟨Trimmed.eq, fun h => h ▸ trimmed_trimChars cs⟩

theorem denotes_iff {raw : String} {n : Nat} : Denotes raw n ↔ Numeral (trimChars raw.toList) n := by
  constructor
  · rintro ⟨core, hcore, hn⟩
    rwa [hcore.eq]
  · exact fun h => ⟨_, trimmed_trimChars _, h⟩

/-! ## Reading digits -/

theorem digit?_of_digit {c : Char} (h : '0' ≤ c ∧ c ≤ '9') : digit? c = some (c.toNat - '0'.toNat) :=
  if_pos h

theorem digit?_eq_none {c : Char} (h : ¬ ('0' ≤ c ∧ c ≤ '9')) : digit? c = none := if_neg h

/-- More digits never make a number smaller. -/
theorem le_ofDigitChars (cs : List Char) (acc : Nat) : acc ≤ Nat.ofDigitChars 10 cs acc := by
  induction cs generalizing acc with
  | nil => exact Nat.le_refl acc
  | cons c rest ih =>
    rw [Nat.ofDigitChars_cons]
    have := ih (10 * acc + (c.toNat - '0'.toNat))
    omega

/-- Digits are read after those that made `acc` exactly if the whole stays within the bound. -/
theorem readDigits_eq_ok_iff {bound acc : Nat} (hacc : acc ≤ bound) (cs : List Char) (n : Nat) :
    readDigits bound acc cs = .ok n ↔
      (∀ c ∈ cs, '0' ≤ c ∧ c ≤ '9') ∧ n = Nat.ofDigitChars 10 cs acc ∧ n ≤ bound := by
  induction cs generalizing acc with
  | nil =>
    rw [readDigits, Except.ok.injEq]
    constructor
    · rintro rfl
      exact ⟨List.forall_mem_nil _, rfl, hacc⟩
    · exact fun h => h.2.1.symm
  | cons c rest ih =>
    rw [readDigits, List.forall_mem_cons, Nat.ofDigitChars_cons, Nat.mul_comm 10 acc]
    by_cases hc : '0' ≤ c ∧ c ≤ '9'
    · rw [digit?_of_digit hc]
      dsimp only
      split
      case isTrue hle =>
        rw [ih hle]
        exact and_congr_left' (and_iff_right hc).symm
      case isFalse hgt =>
        -- The bound is passed already, and what follows only adds to it.
        refine iff_of_false nofun fun h => hgt ?_
        exact (le_ofDigitChars rest _).trans (h.2.1 ▸ h.2.2)
    · rw [digit?_eq_none hc]
      exact iff_of_false nofun fun h => hc h.1.1

theorem digit_ne_plus {c : Char} (h : '0' ≤ c ∧ c ≤ '9') : c ≠ '+' := by
  rintro rfl
  exact absurd h (by decide)

/-- **Reading accepts exactly the numerals up to its bound**, with their number. -/
theorem readNumeral_eq_ok_iff (bound : Nat) (cs : List Char) (n : Nat) :
    readNumeral bound cs = .ok n ↔ Numeral cs n ∧ n ≤ bound := by
  have hdigits : ∀ digits : List Char, digits ≠ [] →
      (readDigits bound 0 digits = .ok n ↔
        (digits ≠ [] ∧ (∀ c ∈ digits, '0' ≤ c ∧ c ≤ '9') ∧ n = Nat.ofDigitChars 10 digits 0) ∧
          n ≤ bound) := by
    intro digits hne
    rw [readDigits_eq_ok_iff (Nat.zero_le bound)]
    tauto
  unfold readNumeral
  split
  case h_1 =>
    refine iff_of_false nofun ?_
    rintro ⟨⟨sign, digits, happ, -, hne, -⟩, -⟩
    exact hne (List.append_eq_nil_iff.mp happ.symm).2
  case h_2 =>
    refine iff_of_false nofun ?_
    rintro ⟨⟨sign, digits, happ, hsign, hne, hall, -⟩, -⟩
    rcases hsign with rfl | rfl
    · rw [List.nil_append] at happ
      subst happ
      exact digit_ne_plus (hall '+' List.mem_cons_self) rfl
    · exact hne (List.cons.inj happ).2.symm
  case h_3 rest hrest =>
    rw [hdigits rest fun h => hrest (h ▸ rfl)]
    refine and_congr_left' ⟨fun h => ⟨['+'], rest, rfl, .inr rfl, h⟩, ?_⟩
    rintro ⟨sign, digits, happ, hsign, hne, hall, hn⟩
    rcases hsign with rfl | rfl
    · rw [List.nil_append] at happ
      subst happ
      exact absurd rfl (digit_ne_plus (hall '+' List.mem_cons_self))
    · cases (List.cons.inj happ).2
      exact ⟨hne, hall, hn⟩
  case h_4 hnil hplus hrest =>
    rw [hdigits cs hnil]
    refine and_congr_left' ⟨fun h => ⟨[], cs, rfl, .inl rfl, h⟩, ?_⟩
    rintro ⟨sign, digits, happ, hsign, hne, hall, hn⟩
    rcases hsign with rfl | rfl
    · cases happ
      exact ⟨hne, hall, hn⟩
    · exact absurd happ (hrest digits)

/-- A text denotes one number. -/
theorem Numeral.unique {cs : List Char} {m n : Nat} (hm : Numeral cs m) (hn : Numeral cs n) :
    m = n := by
  have hm := (readNumeral_eq_ok_iff (max m n) cs m).mpr ⟨hm, Nat.le_max_left m n⟩
  have hn := (readNumeral_eq_ok_iff (max m n) cs n).mpr ⟨hn, Nat.le_max_right m n⟩
  exact Except.ok.inj (hm.symm.trans hn)

/-! ## Numbers in decimal -/

theorem isBlank_of_digit {c : Char} (h : '0' ≤ c ∧ c ≤ '9') : isBlank c = false := by
  obtain ⟨hge, hle⟩ : 48 ≤ c.toNat ∧ c.toNat ≤ 57 := h
  simp only [isBlank, blankRanges, List.any_cons, List.any_nil, Bool.or_false, Bool.or_eq_false_iff,
    Bool.and_eq_false_imp, decide_eq_true_eq, decide_eq_false_iff_not, not_le]
  omega

theorem digit_of_mem_toDigits {n : Nat} {c : Char} (h : c ∈ Nat.toDigits 10 n) :
    '0' ≤ c ∧ c ≤ '9' := by
  have := Nat.isDigit_of_mem_toDigits (by decide) (by decide) h
  rwa [Char.isDigit, Bool.and_eq_true, decide_eq_true_eq, decide_eq_true_eq] at this

/-- **A number in decimal denotes itself**, whatever blanks there are around it. -/
theorem denotes_decimal (n : Nat) {before after : String} (hbefore : Blank before.toList)
    (hafter : Blank after.toList) : Denotes (before ++ toString n ++ after) n := by
  have hne : Nat.toDigits 10 n ≠ [] := Nat.toDigits_ne_nil
  refine ⟨Nat.toDigits 10 n, ⟨before.toList, after.toList, ?_, hbefore, hafter, ?_, ?_⟩,
    [], Nat.toDigits 10 n, rfl, .inl rfl, hne, fun c => digit_of_mem_toDigits,
    (Nat.ofDigitChars_toDigits (by decide) (by decide)).symm⟩
  · simp
  · exact fun c hc => isBlank_of_digit (digit_of_mem_toDigits (List.mem_of_mem_head? hc))
  · exact fun c hc => isBlank_of_digit (digit_of_mem_toDigits (List.mem_of_getLast? hc))

end EffectLoop.Text
