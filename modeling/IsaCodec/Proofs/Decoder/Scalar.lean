import IsaCodec.Decoder.Scalar
import IsaCodec.Proofs.Outcome
import IsaCodec.Proofs.Traced.Search

/-! # Entry points for one code

    A code has all its instructions (`decode`), a first one (`decodeFirst`)
    and perhaps a unique one (`decodeUnique`).  The three take the same
    candidates, but the first one stops at the first candidate that is
    confirmed, and conditions of later candidates are not evaluated there.

    * **`decodeFirst_isStartOf_decode`** — the search for the first instruction
      is the start of the search for all.
    * **`decodeUnique_of_ok`, `decodeUnique_of_error`** — the unique
      instruction is looked for among all.
    * **`entryPoints_agree`** — what the three say to each other, for every
      code. -/

namespace IsaCodec.Decoder

variable {decoder : Decoder} {code : Code}

theorem decodeFirst_isStartOf_decode (decoder : Decoder) (code : Code) :
    Traced.IsStartOf (decoder.decodeFirst code) (decoder.decode code) :=
  (Traced.find?_isStartOf_filter _ _).map Candidate.instruction

/-! ## Unique instructions -/

/-- The unique instruction among all that were found. -/
def unique (code : Code) : List Instruction → Traced UniqueError (Option Instruction)
  | [] => pure none
  | [instruction] => pure (some instruction)
  | several => .fail (.ambiguity ⟨code, several.map (·.name)⟩)

theorem decodeUnique_eq (decoder : Decoder) (code : Code) :
    decoder.decodeUnique code = (decoder.decode code).mapError .condition >>= unique code := rfl

theorem unique_of_le {found : List Instruction} (h : found.length ≤ 1) :
    (unique code found).outcome = .ok found.head? := by
  match found with
  | [] => rfl
  | [instruction] => rfl
  | _ :: _ :: _ =>
    simp only [List.length_cons] at h
    omega

theorem unique_of_lt {found : List Instruction} (h : 1 < found.length) :
    (unique code found).outcome = .error (.ambiguity ⟨code, found.map (·.name)⟩) := by
  match found with
  | [] => cases h
  | [instruction] => exact absurd h (Nat.lt_irrefl 1)
  | _ :: _ :: _ => rfl

theorem decodeUnique_of_ok {found : List Instruction}
    (h : (decoder.decode code).outcome = .ok found) :
    (decoder.decodeUnique code).outcome = (unique code found).outcome := by
  have hmapped : ((decoder.decode code).mapError UniqueError.condition).outcome = .ok found :=
    mapError_eq_ok.2 h
  rw [decodeUnique_eq, Traced.bind_of_ok hmapped]

theorem decodeUnique_of_error {error : ConditionError}
    (h : (decoder.decode code).outcome = .error error) :
    (decoder.decodeUnique code).outcome = .error (.condition error) := by
  have hmapped : ((decoder.decode code).mapError UniqueError.condition).outcome =
      .error (.condition error) := by
    rw [Traced.mapError, h]
    rfl
  rw [decodeUnique_eq, Traced.bind_of_error hmapped]

/-! ## Agreement -/

/-- **The entry points for one code agree.**  If all instructions are found, the first one is the
    head of the list, and so is the unique one unless there are several.  A fault of the search for
    all is a fault of the search for a unique one, and the search for the first one meets it or has
    found an instruction before; a fault of the latter is one of the former.  The search for the
    first one makes the first calls of the search for all. -/
theorem entryPoints_agree (decoder : Decoder) (code : Code) :
    (∀ found, (decoder.decode code).outcome = .ok found →
      (decoder.decodeFirst code).outcome = .ok found.head? ∧
        (found.length ≤ 1 → (decoder.decodeUnique code).outcome = .ok found.head?) ∧
        (1 < found.length → (decoder.decodeUnique code).outcome =
          .error (.ambiguity ⟨code, found.map (·.name)⟩))) ∧
    (∀ error, (decoder.decode code).outcome = .error error →
      (decoder.decodeUnique code).outcome = .error (.condition error) ∧
        ((decoder.decodeFirst code).outcome = .error error ∨
          ∃ instruction, (decoder.decodeFirst code).outcome = .ok (some instruction))) ∧
    (∀ error, (decoder.decodeFirst code).outcome = .error error →
      (decoder.decode code).outcome = .error error) ∧
    (decoder.decodeFirst code).calls <+: (decoder.decode code).calls := by
  have hstart := decodeFirst_isStartOf_decode decoder code
  refine ⟨fun found hfound => ⟨hstart.ok found hfound, fun hle => ?_, fun hlt => ?_⟩,
    fun error herror => ⟨decodeUnique_of_error herror, hstart.stopped error herror⟩,
    hstart.error, hstart.calls⟩
  · rw [decodeUnique_of_ok hfound, unique_of_le hle]
  · rw [decodeUnique_of_ok hfound, unique_of_lt hlt]

end IsaCodec.Decoder
