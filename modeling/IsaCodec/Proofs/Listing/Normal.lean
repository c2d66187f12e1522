import IsaCodec.Listing.Normal
import IsaCodec.Proofs.Text.White

/-! # Normal form

    The normal form of an expected text shows the words of its items and
    nothing else, and the words can be read off it again
    (`itemWords_joinItems`).  So it is its own normal form
    (`normalize_normalize`), and white space around a text does not change it
    (`normalize_trim`). -/

namespace IsaCodec.Listing

open Text

/-- The words of the items of an expected text. -/
def itemWords (s : List Char) : List (List (List Char)) :=
  (s.splitOn '|').map words

/-- Items as text, given by their words. -/
def joinItems (items : List (List (List Char))) : List Char :=
  [' ', '|', ' '].intercalate (items.map [' '].intercalate)

theorem normalizeChars_eq (s : List Char) : normalizeChars s = joinItems (itemWords s) := by
  rw [joinItems, itemWords, List.map_map]
  rfl

/-! ## Items -/

variable {s t blanks : List Char}

theorem itemWords_of_not_mem (h : '|' ∉ s) : itemWords s = [words s] := by
  rw [itemWords, List.splitOn_eq_singleton h, List.map_singleton]

theorem itemWords_append_bar (s t : List Char) :
    itemWords (s ++ '|' :: t) = itemWords s ++ itemWords t := by
  rw [itemWords, List.splitOn, List.splitOnP_append_cons s t (p := (· == '|')) rfl,
    List.map_append]
  rfl

theorem itemWords_cons {c : Char} (h : isWhite c) : itemWords (c :: s) = itemWords s := by
  have hbar : (c == '|') = false := by
    rw [beq_eq_false_iff_ne]
    rintro rfl
    exact absurd h (by decide)
  obtain ⟨first, rest, hsplit⟩ :=
    List.exists_cons_of_ne_nil (List.splitOnP_ne_nil (fun c => c == '|') s)
  rw [itemWords, itemWords, List.splitOn, List.splitOn, List.splitOnP_cons_eq_if_modifyHead, hbar,
    hsplit, if_neg Bool.false_ne_true, List.modifyHead_cons, List.map_cons, List.map_cons,
    words_cons h]

theorem itemWords_areWhite_append (h : AreWhite blanks) :
    itemWords (blanks ++ s) = itemWords s := by
  induction blanks with
  | nil => rfl
  | cons c blanks ih =>
    obtain ⟨hc, hblanks⟩ := List.forall_mem_cons.1 h
    rw [List.cons_append, itemWords_cons hc, ih hblanks]

theorem itemWords_append_areWhite (h : AreWhite blanks) :
    itemWords (s ++ blanks) = itemWords s := by
  -- The white space is in the last item, which is what follows the last bar.
  induction hn : s.length using Nat.strongRecOn generalizing s with
  | ind n ih =>
    subst hn
    by_cases hbar : '|' ∈ s
    · obtain ⟨first, rest, rfl⟩ := List.append_of_mem hbar
      have hlt : rest.length < (first ++ '|' :: rest).length := by
        rw [List.length_append, List.length_cons]
        omega
      rw [List.append_assoc, List.cons_append, itemWords_append_bar, itemWords_append_bar,
        ih rest.length hlt rfl]
    · have hbar' : '|' ∉ s ++ blanks := by
        rw [List.mem_append, not_or]
        exact ⟨hbar, h.not_mem rfl⟩
      rw [itemWords_of_not_mem hbar, itemWords_of_not_mem hbar', words_append_areWhite h]

/-! ## Reading items -/

/-- The words of an item, which have no bar. -/
def AreItemWords (item : List (List Char)) : Prop :=
  ∀ word ∈ item, IsWord word ∧ '|' ∉ word

theorem areItemWords_of_mem_itemWords {item : List (List Char)} (h : item ∈ itemWords s) :
    AreItemWords item := by
  obtain ⟨piece, hpiece, rfl⟩ := List.mem_map.1 h
  refine fun word hword => ⟨isWord_of_mem_words hword, fun hbar => ?_⟩
  have hmem : '|' ∈ piece := (forall_mem_splitOnP (List.mem_filter.1 hword).1 '|' hbar).1
  exact absurd (forall_mem_splitOnP hpiece '|' hmem).2 (by decide)

theorem bar_not_mem_intercalate {item : List (List Char)} (h : AreItemWords item) :
    '|' ∉ [' '].intercalate item := by
  induction item with
  | nil => exact List.not_mem_nil
  | cons word rest ih =>
    obtain ⟨hword, hrest⟩ := List.forall_mem_cons.1 h
    cases rest with
    | nil =>
      rw [List.intercalate_singleton]
      exact hword.2
    | cons next rest =>
      rw [List.intercalate_cons_cons, List.mem_append, List.mem_append, List.mem_singleton]
      rintro ((hmem | hmem) | hmem)
      · exact hword.2 hmem
      · cases hmem
      · exact ih hrest hmem

/-- Items are **read off** the text that shows them. -/
theorem itemWords_joinItems {items : List (List (List Char))} (hne : items ≠ [])
    (h : ∀ item ∈ items, AreItemWords item) : itemWords (joinItems items) = items := by
  induction items with
  | nil => exact absurd rfl hne
  | cons item rest ih =>
    obtain ⟨hitem, hrest⟩ := List.forall_mem_cons.1 h
    have hbar := bar_not_mem_intercalate hitem
    have hwords := words_intercalate fun word hword => (hitem word hword).1
    cases rest with
    | nil =>
      rw [joinItems, List.map_singleton, List.intercalate_singleton, itemWords_of_not_mem hbar,
        hwords]
    | cons next rest =>
      have hjoin : joinItems (item :: next :: rest) =
          ([' '].intercalate item ++ [' ']) ++ '|' :: ([' '] ++ joinItems (next :: rest)) := by
        rw [joinItems, List.map_cons, List.map_cons, List.intercalate_cons_cons, List.append_assoc,
          List.append_assoc]
        rfl
      rw [hjoin, itemWords_append_bar, itemWords_append_areWhite areWhite_space,
        itemWords_areWhite_append areWhite_space, itemWords_of_not_mem hbar, hwords,
        ih (List.cons_ne_nil next rest) hrest, List.singleton_append]

/-! ## Normal forms -/

theorem normalizeChars_normalizeChars (s : List Char) :
    normalizeChars (normalizeChars s) = normalizeChars s := by
  have hne : itemWords s ≠ [] := by
    rw [itemWords, Ne, List.map_eq_nil_iff]
    exact List.splitOn_ne_nil '|' s
  rw [normalizeChars_eq (normalizeChars s), normalizeChars_eq s,
    itemWords_joinItems hne fun item => areItemWords_of_mem_itemWords]

/-- The normal form of a text is **its own normal form**. -/
theorem normalize_normalize (text : String) : normalize (normalize text) = normalize text := by
  rw [normalize, normalize, String.toList_ofList, normalizeChars_normalizeChars]

/-- White space around a text does not change its normal form. -/
theorem normalize_trim (text : String) :
    normalize (String.ofList (trim text.toList)) = normalize text := by
  obtain ⟨before, after, hbefore, hafter, heq⟩ := exists_eq_append_trim text.toList
  have hwords : itemWords text.toList = itemWords (trim text.toList) := by
    conv =>
      lhs
      rw [heq]
    rw [List.append_assoc, itemWords_areWhite_append hbefore, itemWords_append_areWhite hafter]
  rw [normalize, normalize, String.toList_ofList, normalizeChars_eq, normalizeChars_eq, hwords]

end IsaCodec.Listing
