/-! # Lines and parts

    Text cut at line ends or at the first occurrence of a character. -/

namespace IsaCodec.Text

/-- A terminated line without the carriage return that belongs to its end. -/
def dropReturn (line : List Char) : List Char :=
  if line.getLast? = some '\r' then line.dropLast else line

/-- The lines of a text.  A line ends with a line feed, before which one
    carriage return is dropped; the last line need not have an end. -/
def lines (s : List Char) : List (List Char) :=
  let pieces := s.splitOn '\n'
  pieces.dropLast.map dropReturn ++ (pieces.getLast?.toList).filter (!·.isEmpty)

/-- The text before the first `c` and the text after it, if there is one. -/
def cutAt? (c : Char) (s : List Char) : Option (List Char × List Char) :=
  match s.dropWhile (· != c) with
  | [] => none
  | _ :: rest => some (s.takeWhile (· != c), rest)

theorem eq_append_of_cutAt? {c : Char} {s before rest : List Char}
    (h : cutAt? c s = some (before, rest)) : s = before ++ c :: rest ∧ c ∉ before := by
  unfold cutAt? at h
  split at h
  · simp at h
  · rename_i d tail hd
    simp only [Option.some.injEq, Prod.mk.injEq] at h
    obtain ⟨rfl, rfl⟩ := h
    have hc : d = c := by
      have := List.head?_dropWhile_not (· != c) s
      simp_all
    subst hc
    refine ⟨?_, fun hmem => ?_⟩
    · rw [← hd, List.takeWhile_append_dropWhile]
    · have := List.all_takeWhile (p := (· != d)) (l := s)
      simp only [List.all_eq_true] at this
      simpa using this d hmem

theorem cutAt?_of_not_mem {c : Char} {s : List Char} (h : c ∉ s) : cutAt? c s = none := by
  cases hcut : cutAt? c s with
  | none => rfl
  | some parts =>
    obtain ⟨heq, -⟩ := eq_append_of_cutAt? hcut
    exact absurd (heq ▸ List.mem_append_right _ List.mem_cons_self) h

theorem cutAt?_append {c : Char} {before : List Char} (rest : List Char) (h : c ∉ before) :
    cutAt? c (before ++ c :: rest) = some (before, rest) := by
  have hbefore : ∀ d ∈ before, (d != c) = true := by
    intro d hd
    rw [bne_iff_ne]
    rintro rfl
    exact h hd
  have hstop : ¬(c != c) = true := ne_true_of_eq_false (bne_self_eq_false c)
  rw [cutAt?, List.dropWhile_append_of_pos hbefore, List.takeWhile_append_of_pos hbefore,
    List.dropWhile_cons_of_neg (p := (· != c)) hstop,
    List.takeWhile_cons_of_neg (p := (· != c)) hstop, List.append_nil]

end IsaCodec.Text
