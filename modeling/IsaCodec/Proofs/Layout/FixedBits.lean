import IsaCodec.FixedBits

/-! # Fixed bits of patterns

    Which bits the pattern of a format fixes, and to what.  A pattern lists
    its bits from the most significant one, so bit `i` of the instruction is
    item `i` of the reversed pattern; that is also the order in which the
    induction takes the bits away again. -/

namespace IsaCodec.FixedBits

/-- The word that has a bit where the bit of the pattern passes a test. -/
def bitsWhere (test : PatternBit → Bool) (pattern : List PatternBit) : Code :=
  pattern.foldl (fun word bit => word <<< 1 ||| if test bit then 1 else 0) 0

theorem push_eq (fixed : FixedBits) (bit : PatternBit) :
    fixed.push bit =
      ⟨fixed.mask <<< 1 ||| if bit != .any then 1 else 0,
        fixed.bits <<< 1 ||| if bit == .one then 1 else 0⟩ := by
  cases bit <;> simp [push]

/-- The mask and the bits are made side by side. -/
theorem ofPattern_eq (pattern : List PatternBit) :
    ofPattern pattern = ⟨bitsWhere (· != .any) pattern, bitsWhere (· == .one) pattern⟩ := by
  have hfold : ∀ mask bits, pattern.foldl push ⟨mask, bits⟩ =
      ⟨pattern.foldl (fun word bit => word <<< 1 ||| if bit != .any then 1 else 0) mask,
        pattern.foldl (fun word bit => word <<< 1 ||| if bit == .one then 1 else 0) bits⟩ := by
    induction pattern with
    | nil => exact fun mask bits => rfl
    | cons bit pattern ih =>
      intro mask bits
      rw [List.foldl_cons, List.foldl_cons, List.foldl_cons, push_eq, ih]
  exact hfold 0 0

theorem getLsbD_bitsWhere (test : PatternBit → Bool) (pattern : List PatternBit) (i : Nat) :
    (bitsWhere test pattern).getLsbD i = true ↔
      i < 64 ∧ ∃ bit, pattern.reverse[i]? = some bit ∧ test bit := by
  rw [bitsWhere, ← List.foldr_reverse]
  induction pattern.reverse generalizing i with
  | nil => simp
  | cons bit bits ih =>
    rw [List.foldr_cons, BitVec.getLsbD_or, BitVec.getLsbD_shiftLeft]
    cases i with
    | zero => by_cases htest : test bit <;> simp [htest]
    | succ i =>
      have hlast : (if test bit then 1 else 0 : Code).getLsbD (i + 1) = false := by
        by_cases htest : test bit <;> simp [htest, BitVec.getLsbD_one]
      rw [hlast, Bool.or_false, List.getElem?_cons_succ, Nat.add_sub_cancel, Bool.and_eq_true, ih]
      simp only [Bool.and_eq_true, decide_eq_true_iff, Bool.not_eq_true', decide_eq_false_iff_not]
      constructor
      · intro h
        obtain ⟨⟨hi, -⟩, -, hbit⟩ := h
        exact ⟨hi, hbit⟩
      · intro h
        obtain ⟨hi, hbit⟩ := h
        exact ⟨⟨hi, by omega⟩, by omega, hbit⟩

/-- Bit `n - 1 - k` of `n` bits belongs to item `k` of the pattern. -/
theorem getLsbD_bitsWhere_of_lt (test : PatternBit → Bool) {pattern : List PatternBit}
    (hlength : pattern.length ≤ 64) {k : Nat} (hk : k < pattern.length) :
    (bitsWhere test pattern).getLsbD (pattern.length - 1 - k) = test pattern[k] := by
  have hitem : pattern.reverse[pattern.length - 1 - k]? = some pattern[k] := by
    rw [List.getElem?_reverse (by omega), List.getElem?_eq_getElem (by omega)]
    congr 2
    omega
  rw [Bool.eq_iff_iff, getLsbD_bitsWhere, hitem]
  constructor
  · intro h
    obtain ⟨-, bit, heq, htest⟩ := h
    rwa [Option.some.inj heq]
  · intro htest
    exact ⟨by omega, _, rfl, htest⟩

theorem getLsbD_bitsWhere_of_le (test : PatternBit → Bool) {pattern : List PatternBit} {i : Nat}
    (hi : pattern.length ≤ i) : (bitsWhere test pattern).getLsbD i = false := by
  rw [← Bool.not_eq_true, getLsbD_bitsWhere, List.getElem?_eq_none (by simpa using hi)]
  intro h
  obtain ⟨-, bit, heq, -⟩ := h
  cases heq

end IsaCodec.FixedBits
