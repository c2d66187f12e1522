import IsaCodec.Format.Parser
import IsaCodec.Proofs.Reading

/-! # Shape of formats

    A format that was read has elements, each of them has segments, and each
    of these has bits.  Nothing in the type of formats says so; it holds
    because the grammar asks for one item before it looks for separators. -/

namespace IsaCodec

namespace Format

/-- No part of a format is empty. -/
structure IsProper (format : Format) : Prop where
  elements : format.elements ≠ []
  segments : ∀ element ∈ format.elements, element.segments ≠ []
  patterns : ∀ element ∈ format.elements, ∀ segment ∈ element.segments, segment.pattern ≠ []

namespace Parser

theorem pattern_ne_nil {input rest : List Char} {bits : List PatternBit}
    (h : pattern input = .ok (bits, rest)) : bits ≠ [] := by
  unfold pattern at h
  dsimp only at h
  split at h
  · cases h
  · rename_i hbits
    obtain ⟨rfl, -⟩ := Prod.mk.inj (Except.ok.inj h)
    exact hbits

theorem segment_pattern_ne_nil {input rest : List Char} {read : Segment}
    (h : segment input = .ok (read, rest)) : read.pattern ≠ [] := by
  obtain ⟨⟨bits, s⟩, hbits, hnext⟩ := bind_eq_ok.1 h
  have hne := pattern_ne_nil hbits
  cases hcolon : eat? ':' s with
  | none =>
    simp only [hcolon] at hnext
    obtain ⟨rfl, -⟩ := Prod.mk.inj (pure_eq_ok.1 hnext)
    exact hne
  | some s' =>
    simp only [hcolon] at hnext
    obtain ⟨⟨field, s''⟩, -, hranges⟩ := bind_eq_ok.1 hnext
    obtain ⟨⟨ranges, s'''⟩, -, heq⟩ := bind_eq_ok.1 hranges
    obtain ⟨rfl, -⟩ := Prod.mk.inj (pure_eq_ok.1 heq)
    exact hne

theorem element_segments {input rest : List Char} {read : Element}
    (h : element input = .ok (read, rest)) :
    read.segments ≠ [] ∧ ∀ segment ∈ read.segments, segment.pattern ≠ [] := by
  obtain ⟨⟨segments, s⟩, hsegments, heq⟩ := bind_eq_ok.1 h
  obtain ⟨rfl, -⟩ := Prod.mk.inj (pure_eq_ok.1 heq)
  obtain ⟨hne, hread⟩ := Reader.of_separated hsegments
  refine ⟨hne, fun segment hmem => ?_⟩
  obtain ⟨s, s', hsegment⟩ := hread segment hmem
  exact segment_pattern_ne_nil hsegment

theorem format_isProper {input rest : List Char} {read : Format}
    (h : format input = .ok (read, rest)) : read.IsProper := by
  obtain ⟨⟨elements, s⟩, helements, hend⟩ := bind_eq_ok.1 h
  obtain ⟨hne, hread⟩ := Reader.of_separated helements
  -- Only the end of the text is looked at after the elements.
  have heq : read.elements = elements := by
    dsimp only at hend
    split at hend
    · rw [← (Prod.mk.inj (pure_eq_ok.1 hend)).1]
    · cases hend
  have hsegments : ∀ element ∈ read.elements,
      element.segments ≠ [] ∧ ∀ segment ∈ element.segments, segment.pattern ≠ [] := by
    intro element hmem
    obtain ⟨s, s', helement⟩ := hread element (heq ▸ hmem)
    exact element_segments helement
  exact ⟨heq ▸ hne, fun element hmem => (hsegments element hmem).1,
    fun element hmem => (hsegments element hmem).2⟩

end Parser

/-- What was read is **proper**. -/
theorem isProper_of_parse {text : String} {format : Format} (h : parse text = .ok format) :
    format.IsProper := by
  unfold parse at h
  dsimp only at h
  split at h
  · cases h
  · split at h
    · rename_i read s hformat
      obtain rfl := Except.ok.inj h
      exact Parser.format_isProper hformat
    · cases h

theorem IsProper.bitLen_pos {format : Format} (h : format.IsProper) : 0 < format.bitLen := by
  obtain ⟨element, helement⟩ := List.exists_mem_of_ne_nil _ h.elements
  obtain ⟨segment, hsegment⟩ := List.exists_mem_of_ne_nil _ (h.segments element helement)
  obtain ⟨bit, hbit⟩ := List.exists_mem_of_ne_nil _ (h.patterns element helement segment hsegment)
  refine List.length_pos_of_mem (a := bit) (List.mem_flatMap.2 ⟨element, helement, ?_⟩)
  exact List.mem_flatMap.2 ⟨segment, hsegment, hbit⟩

theorem IsProper.segment_bitLen_pos {format : Format} (h : format.IsProper) {segment : Segment}
    (hsegment : segment ∈ format.segments) : 0 < segment.bitLen := by
  obtain ⟨element, helement, hsegment⟩ := List.mem_flatMap.1 hsegment
  exact List.length_pos_iff.2 (h.patterns element helement segment hsegment)

end Format

end IsaCodec
