import Mathlib.Data.String.Basic
import Mathlib.Data.Nat.Digits.Defs

/-!
# Decimal keys

Numbers written in decimal are compared as strings by an ordered key-value store.  The string
order is the numeric order exactly between numbers written with the same number of digits:

* `Decimal.toString_lt_toString`: with as many digits, the string order is the numeric order;
* `Decimal.toString_lt_max`: a decimal key sorts below the largest code point.
-/

namespace OpenViking.Decimal

/-- The number of decimal digits that `str(n)` has. -/
def numDigits (n : ℕ) : ℕ := (toString n).length

variable (n : ℕ)

theorem toList_toString : (toString n).toList = Nat.toDigits 10 n := by
  change n.repr.toList = _
  rw [Nat.toList_repr]

theorem numDigits_eq : numDigits n = (Nat.toDigits 10 n).length := by
  rw [numDigits, ← toList_toString, String.length_toList]

variable {n} in
/-- What is no digit is not in a number. -/
theorem notMem_toString {c : Char} (hc : c.isDigit = false) : c ∉ (toString n).toList := by
  rw [toList_toString]
  exact fun h => Bool.false_ne_true (hc.symm.trans (Nat.isDigit_of_mem_toDigits (by decide) (by decide) h))

theorem notMem_toString_int {c : Char} (hc : c.isDigit = false) (hminus : c ≠ '-') (n : ℤ) :
    c ∉ (toString n).toList := by
  cases n with
  | ofNat n => exact notMem_toString hc
  | negSucc n =>
    show c ∉ ("-" ++ toString (n + 1)).toList
    rw [String.toList_append, List.mem_append, not_or]
    exact ⟨fun h => hminus (List.mem_singleton.1 h), notMem_toString hc⟩

theorem toString_injective : Function.Injective (toString : ℕ → String) := by
  intro a b h
  have hd : Nat.toDigits 10 a = Nat.toDigits 10 b := by
    rw [← toList_toString, ← toList_toString, h]
  rw [← @Nat.ofDigitChars_ten_toDigits a, ← @Nat.ofDigitChars_ten_toDigits b, hd]

theorem digitChar_lt_digitChar {c d : ℕ} (hc : c < 10) (hd : d < 10) :
    c.digitChar < d.digitChar ↔ c < d := by
  have : ∀ c : Fin 10, ∀ d : Fin 10, (c : ℕ).digitChar < (d : ℕ).digitChar ↔ (c : ℕ) < d := by
    decide
  exact this ⟨c, hc⟩ ⟨d, hd⟩

/-- Appending one character to lists of one length refines their order. -/
theorem concat_lt_concat {x y : List Char} {c d : Char} (h : x.length = y.length) :
    x ++ [c] < y ++ [d] ↔ x < y ∨ (x = y ∧ c < d) := by
  induction x generalizing y with
  | nil =>
    cases y with
    | nil => simp [List.cons_lt_cons_iff]
    | cons b y => simp at h
  | cons a x ih =>
    cases y with
    | nil => simp at h
    | cons b y =>
      have h' : x.length = y.length := by simpa using h
      simp only [List.cons_append, List.cons_lt_cons_iff, ih h', List.cons.injEq]
      constructor
      · rintro (hab | ⟨rfl, hxy | ⟨rfl, hcd⟩⟩)
        · exact .inl (.inl hab)
        · exact .inl (.inr ⟨rfl, hxy⟩)
        · exact .inr ⟨⟨rfl, rfl⟩, hcd⟩
      · rintro ((hab | ⟨rfl, hxy⟩) | ⟨⟨rfl, rfl⟩, hcd⟩)
        · exact .inl hab
        · exact .inr ⟨rfl, .inl hxy⟩
        · exact .inr ⟨rfl, .inr ⟨rfl, hcd⟩⟩

theorem length_toDigits_pos : 0 < (Nat.toDigits 10 n).length :=
  List.length_pos_iff.2 (by simp)

variable {a b : ℕ}

theorem toDigits_lt_toDigits (h : (Nat.toDigits 10 a).length = (Nat.toDigits 10 b).length) :
    Nat.toDigits 10 a < Nat.toDigits 10 b ↔ a < b := by
  induction a using Nat.strong_induction_on generalizing b with
  | _ a ih =>
    by_cases ha : 10 ≤ a
    · have hb : 10 ≤ b := by
        by_contra hb
        rw [Nat.toDigits_of_base_le (by omega) ha, Nat.toDigits_of_lt_base (n := b) (by omega)] at h
        simp at h
      rw [Nat.toDigits_of_base_le (by omega) ha, Nat.toDigits_of_base_le (by omega) hb] at h ⊢
      have hl : (Nat.toDigits 10 (a / 10)).length = (Nat.toDigits 10 (b / 10)).length := by
        simpa using h
      have hq : Nat.toDigits 10 (a / 10) = Nat.toDigits 10 (b / 10) ↔ a / 10 = b / 10 := by
        refine ⟨fun he => ?_, fun he => by rw [he]⟩
        rw [← @Nat.ofDigitChars_ten_toDigits (a / 10), ← @Nat.ofDigitChars_ten_toDigits (b / 10), he]
      rw [concat_lt_concat hl, ih (a / 10) (by omega) hl, hq,
        digitChar_lt_digitChar (Nat.mod_lt _ (by omega)) (Nat.mod_lt _ (by omega))]
      omega
    · have hb : b < 10 := by
        by_contra hb
        rw [Nat.toDigits_of_lt_base (n := a) (by omega),
          Nat.toDigits_of_base_le (n := b) (by omega) (by omega)] at h
        simp at h
      rw [Nat.toDigits_of_lt_base (n := a) (by omega), Nat.toDigits_of_lt_base hb]
      have hlt := digitChar_lt_digitChar (c := a) (by omega) hb
      simpa [List.cons_lt_cons_iff] using hlt

/-- Between numbers with as many digits, the string order is the numeric order. -/
theorem toString_lt_toString (h : numDigits a = numDigits b) : toString a < toString b ↔ a < b := by
  rw [String.lt_iff_toList_lt, toList_toString, toList_toString]
  refine toDigits_lt_toDigits ?_
  rwa [← numDigits_eq, ← numDigits_eq]

theorem toString_le_toString (h : numDigits a = numDigits b) : toString a ≤ toString b ↔ a ≤ b := by
  rw [← not_lt, toString_lt_toString h.symm, not_lt]

/-- A decimal key starts with a digit. -/
theorem exists_digit_cons : ∃ d ds, Nat.toDigits 10 n = d :: ds ∧ '0' ≤ d ∧ d ≤ '9' := by
  have hpos := length_toDigits_pos n
  cases hd : Nat.toDigits 10 n with
  | nil => simp [hd] at hpos
  | cons d ds =>
    have hdig : d.isDigit := Nat.isDigit_of_mem_toDigits (by omega) (by omega)
      (hd ▸ List.mem_cons_self : d ∈ Nat.toDigits 10 n)
    simp only [Char.isDigit, Bool.and_eq_true, decide_eq_true_eq] at hdig
    exact ⟨d, ds, rfl, hdig.1, hdig.2⟩

/-- No decimal key sorts below `"0"`. -/
theorem toString_zero_le : toString 0 ≤ toString n := by
  obtain ⟨d, ds, hd, h0, -⟩ := exists_digit_cons n
  rw [← not_lt, String.lt_iff_toList_lt, toList_toString, toList_toString, hd]
  intro h
  rcases List.cons_lt_cons_iff.1 h with h | ⟨-, h⟩
  · exact absurd h (not_lt.2 h0)
  · simp at h

/-- A decimal key sorts below every string that starts beyond the digits. -/
theorem toString_lt_max {c : Char} (hc : '9' < c) : toString n < String.singleton c := by
  obtain ⟨d, ds, hd, -, h9⟩ := exists_digit_cons n
  rw [String.lt_iff_toList_lt, toList_toString, hd]
  simp [List.cons_lt_cons_iff, lt_of_le_of_lt h9 hc]

theorem numDigits_le_of_le (h : a ≤ b) : numDigits a ≤ numDigits b := by
  rw [numDigits_eq, numDigits_eq, Nat.length_toDigits_le_iff (by omega) (length_toDigits_pos b)]
  exact lt_of_le_of_lt h ((Nat.length_toDigits_le_iff (by omega) (length_toDigits_pos b)).1 le_rfl)

end OpenViking.Decimal
