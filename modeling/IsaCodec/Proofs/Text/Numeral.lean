import IsaCodec.Proofs.Outcome
import IsaCodec.Text.Number
import Mathlib.Data.Nat.Digits.Defs

/-! # Numerals and the numbers that they stand for

    * **`IsNumeralIn`** — digits of a base and the sum of their weights.
    * **`boundedNumeral?_eq_some`** — reading gives that number, if it is not
      too big.
    * **`isNumeralIn_decimal`** — writing a number gives a numeral for it. -/

namespace IsaCodec.Text

/-- Digits of a base, and the number that they stand for. -/
def IsNumeralIn (base : Nat) (s : List Char) (n : Nat) : Prop :=
  s ≠ [] ∧ ∃ digits, List.Forall₂ (fun c d => digit? base c = some d) s digits ∧
    n = Nat.ofDigits base digits.reverse

theorem numeralFrom?_cons_of_some {base acc d : Nat} {c : Char} (s : List Char)
    (hd : digit? base c = some d) :
    numeralFrom? base acc (c :: s) = numeralFrom? base (base * acc + d) s := by
  rw [numeralFrom?, hd]

theorem numeralFrom?_cons_of_none {base acc : Nat} {c : Char} (s : List Char)
    (hd : digit? base c = none) : numeralFrom? base acc (c :: s) = none := by
  rw [numeralFrom?, hd]

/-- A numeral that was read before stands for one more digit in front. -/
theorem numeralFrom?_eq_some {base acc n : Nat} {s : List Char} :
    numeralFrom? base acc s = some n ↔
      ∃ digits, List.Forall₂ (fun c d => digit? base c = some d) s digits ∧
        n = Nat.ofDigits base (digits.reverse ++ [acc]) := by
  induction s generalizing acc with
  | nil =>
    rw [numeralFrom?, Option.some.injEq]
    constructor
    · rintro rfl
      exact ⟨[], .nil, by simp⟩
    · rintro ⟨digits, hdigits, rfl⟩
      cases hdigits
      simp
  | cons c s ih =>
    have hshift : ∀ (digits : List Nat) (d : Nat),
        Nat.ofDigits base (digits.reverse ++ [base * acc + d]) =
          Nat.ofDigits base ((d :: digits).reverse ++ [acc]) := by
      intro digits d
      rw [List.reverse_cons, List.append_assoc, Nat.ofDigits_append, Nat.ofDigits_append]
      simp [Nat.ofDigits_cons, Nat.add_comm]
    cases hd : digit? base c with
    | none =>
      rw [numeralFrom?_cons_of_none s hd]
      constructor
      · intro h
        cases h
      · rintro ⟨digits, hdigits, -⟩
        obtain ⟨d, _, hd', -⟩ := List.forall₂_cons_left_iff.1 hdigits
        rw [hd] at hd'
        cases hd'
    | some d =>
      rw [numeralFrom?_cons_of_some s hd, ih]
      constructor
      · rintro ⟨digits, hdigits, rfl⟩
        exact ⟨d :: digits, .cons hd hdigits, hshift digits d⟩
      · rintro ⟨_, hdigits, rfl⟩
        obtain ⟨d', digits, hd', hrest, rfl⟩ := List.forall₂_cons_left_iff.1 hdigits
        obtain rfl := Option.some.inj (hd.symm.trans hd')
        exact ⟨digits, hrest, (hshift digits d).symm⟩

theorem numeral?_eq_some {base n : Nat} {s : List Char} :
    numeral? base s = some n ↔ IsNumeralIn base s n := by
  unfold numeral? IsNumeralIn
  by_cases hs : s = []
  · simp [hs]
  · rw [if_neg (by simpa using hs), numeralFrom?_eq_some]
    simp [hs, Nat.ofDigits_append]

theorem boundedNumeral?_eq_some {base bits n : Nat} {s : List Char} :
    boundedNumeral? base bits s = some n ↔ IsNumeralIn base s n ∧ n < 2 ^ bits := by
  rw [boundedNumeral?, Option.filter_eq_some_iff, numeral?_eq_some, decide_eq_true_iff,
    Nat.one_shiftLeft]

/-! ## Decimal numerals -/

theorem isDigit_of_digit? {c : Char} {d : Nat} (h : digit? 10 c = some d) : c.isDigit := by
  rw [digit?, Option.filter_eq_some_iff, decide_eq_true_iff] at h
  obtain ⟨hvalue, hd⟩ := h
  unfold digitValue? at hvalue
  split at hvalue
  next hc =>
    rw [Char.isDigit, Bool.and_eq_true, decide_eq_true_iff, decide_eq_true_iff]
    exact hc
  next =>
    split at hvalue
    · simp only [Option.some.injEq] at hvalue
      omega
    · split at hvalue
      · simp only [Option.some.injEq] at hvalue
        omega
      · cases hvalue

theorem IsNumeralIn.isDigit_of_mem {s : List Char} {n : Nat} (h : IsNumeralIn 10 s n) :
    ∀ c ∈ s, c.isDigit := by
  obtain ⟨-, digits, hdigits, -⟩ := h
  intro c hc
  induction hdigits with
  | nil => cases hc
  | cons hd _ ih =>
    rcases List.mem_cons.1 hc with rfl | hc
    · exact isDigit_of_digit? hd
    · exact ih hc

theorem digit?_of_isDigit {c : Char} (h : c.isDigit) :
    digit? 10 c = some (c.toNat - '0'.toNat) := by
  have hc : '0' ≤ c ∧ c ≤ '9' := by
    rwa [Char.isDigit, Bool.and_eq_true, decide_eq_true_iff, decide_eq_true_iff] at h
  have hlt : c.toNat - '0'.toNat < 10 := by
    have hle : c.toNat ≤ '9'.toNat := hc.2
    have hnine : '9'.toNat = '0'.toNat + 9 := rfl
    omega
  rw [digit?, digitValue?, if_pos hc, Option.filter_some, if_pos (by simpa using hlt)]

theorem numeralFrom?_eq_ofDigitChars {acc : Nat} {s : List Char} (h : ∀ c ∈ s, c.isDigit) :
    numeralFrom? 10 acc s = some (Nat.ofDigitChars 10 s acc) := by
  induction s generalizing acc with
  | nil => rfl
  | cons c s ih =>
    rw [numeralFrom?_cons_of_some s (digit?_of_isDigit (h c List.mem_cons_self)),
      ih fun d hd => h d (List.mem_cons_of_mem c hd), Nat.ofDigitChars_cons]

/-- Written numbers are read back. -/
theorem isNumeralIn_decimal (n : Nat) : IsNumeralIn 10 (decimal n) n := by
  have hdigit : ∀ c ∈ decimal n, c.isDigit :=
    fun c hc => Nat.isDigit_of_mem_toDigits (by decide) (by decide) hc
  rw [← numeral?_eq_some, numeral?, if_neg (by simp [decimal, Nat.toDigits_ne_nil]),
    numeralFrom?_eq_ofDigitChars hdigit]
  exact congrArg some Nat.ofDigitChars_ten_toDigits

end IsaCodec.Text
