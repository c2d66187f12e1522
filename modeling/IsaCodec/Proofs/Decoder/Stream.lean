import IsaCodec.Decoder.Stream
import IsaCodec.Proofs.Decoder.Bytes
import Mathlib.Logic.Relation

/-! # Walks of streams

    A stream walks over bytes: as long as an instruction is found, its bytes
    are dropped and the address moves on.  The number of bytes that a decoder
    gives for the same data is computed by a loop of its own.

    * **`isConsuming_of_keepsForms`** — what is found takes at least one byte
      and not more than there are, since its code was assembled from them.
    * **`IsPassed.step`** — one step passes the bytes of one instruction, and
      what is left to count is the number of the bytes that are left.
    * **`IsPassed.run`** — so does a walk of any length, by induction.
    * **`walk_agrees`** — every walk comes to an end, and there the stream and
      the count agree. -/

namespace IsaCodec

/-! ## Consumed bytes -/

namespace Decoder

/-- What is found in bytes takes at least one of them and not more than there are.  Without bytes
    no condition is evaluated, so none can fail. -/
structure IsConsuming (decoder : Decoder) : Prop where
  taken : ∀ {bytes found decoded}, (decoder.decodeBytes bytes).outcome = .ok found →
    decoded ∈ found → 1 ≤ decoded.byteLen ∧ decoded.byteLen ≤ bytes.length
  ne_nil : ∀ {bytes error}, (decoder.decodeBytes bytes).outcome = .error error → bytes ≠ []

theorem isConsuming_of_keepsForms {options : Options} {registry : Registry} {hook : Hook}
    {description : Description} {decoder : Decoder}
    (hbuild : buildHooked options registry hook description = .ok decoder)
    (hkeeps : decoder.KeepsForms description) : decoder.IsConsuming := by
  obtain ⟨instructions, -, rfl⟩ := buildHooked_eq_ok.1 hbuild
  have hcounted : ∀ instruction ∈ instructions, instruction.form.IsCounted :=
    fun _ => hkeeps.isCounted
  have hlength : ∀ {bytes code instruction}, instruction ∈ instructions →
      assemble bytes description.machine.byteOrder instruction.form = some code →
        1 ≤ instruction.form.byteLen ∧ instruction.form.byteLen ≤ bytes.length := by
    intro bytes code instruction hmem hcode
    have hfits := hkeeps.fitsWord hmem
    obtain ⟨-, hshort, -⟩ := (assemble_eq_some hfits.isCounted).1 hcode
    exact ⟨Form.byteLen_pos hfits.bitLen_pos, hshort⟩
  refine ⟨fun hfound hdecoded => ?_, fun {bytes error} herror => ?_⟩
  · obtain ⟨hmem, hcode, -⟩ := mem_of_decodeBytes hcounted hfound hdecoded
    exact hlength hmem hcode
  · -- Something fails, so there is a candidate, and it was assembled from some bytes.
    rw [decodeBytes_eq hcounted, Traced.outcome_bind_pure_eq_error] at herror
    obtain ⟨candidate, hcandidate, -⟩ := Traced.exists_filter_eq_error.1 ⟨error, herror⟩
    obtain ⟨hmem, hcode⟩ := mem_byteCandidates hcounted hcandidate
    obtain ⟨hpos, hle⟩ := hlength hmem hcode
    exact List.length_pos_iff.1 (Nat.lt_of_lt_of_le hpos hle)

end Decoder

/-! ## Attempts -/

namespace Stream

variable {stream : Stream} {bytes : List Byte}

theorem decode_fst : (stream.decode bytes).1 =
    stream.decoder.decodeBytes bytes >>= fun found => pure found.head? := by
  unfold decode
  dsimp only
  split <;> rfl

/-- The result is the **head** of all that is found in the bytes. -/
theorem result_eq : stream.result bytes =
    (stream.decoder.decodeBytes bytes).outcome.map List.head? := by
  rw [result, decode_fst]
  cases h : (stream.decoder.decodeBytes bytes).outcome with
  | error error => rw [Traced.bind_of_error h]; rfl
  | ok found => rw [Traced.bind_of_ok h]; rfl

theorem result_eq_error {error : ConditionError} :
    stream.result bytes = .error error ↔
      (stream.decoder.decodeBytes bytes).outcome = .error error := by
  rw [result_eq]
  cases (stream.decoder.decodeBytes bytes).outcome <;> simp [Except.map]

theorem result_eq_ok {first : Option Decoded} :
    stream.result bytes = .ok first ↔
      ∃ found, (stream.decoder.decodeBytes bytes).outcome = .ok found ∧ found.head? = first := by
  rw [result_eq]
  cases (stream.decoder.decodeBytes bytes).outcome <;> simp [Except.map]

/-- What comes of an attempt decides where the stream is after it. -/
theorem next_eq : stream.next bytes =
    match stream.result bytes with
    | .ok (some first) => stream.skip first.byteLen
    | .ok none | .error _ => stream := by
  unfold next result decode
  dsimp only
  split
  · next error h => rw [h]
  · next h => rw [h]
  · next first h => rw [h]

/-- An attempt that finds an instruction moves the stream by its length. -/
theorem next_of_some {first : Decoded} (h : stream.result bytes = .ok (some first)) :
    stream.next bytes = stream.skip first.byteLen := by
  rw [next_eq, h]

/-- An attempt that finds nothing, or fails, **leaves the stream** as it is. -/
theorem next_of_not_some (h : ∀ first, stream.result bytes ≠ .ok (some first)) :
    stream.next bytes = stream := by
  rw [next_eq]
  cases hresult : stream.result bytes with
  | error error => rfl
  | ok first =>
    cases first with
    | none => rfl
    | some first => exact absurd hresult (h first)

end Stream

/-! ## Counting -/

namespace Decoder

variable {decoder : Decoder} {bytes : List Byte}

theorem decodeLen_of_error {error : ConditionError} (hne : bytes ≠ [])
    (h : (decoder.decodeBytes bytes).outcome = .error error) :
    (decoder.decodeLen bytes).outcome = .error error := by
  rw [decodeLen, if_neg (by simpa using hne), Traced.bind_of_error h]

theorem decodeLen_of_none {found : List Decoded}
    (h : (decoder.decodeBytes bytes).outcome = .ok found) (hfound : found.head? = none) :
    (decoder.decodeLen bytes).outcome = .ok 0 := by
  rw [decodeLen]
  by_cases hne : bytes.isEmpty
  · rw [if_pos hne]
    rfl
  · rw [if_neg hne, Traced.bind_of_ok h, List.head?_eq_none_iff.1 hfound]
    rfl

/-- The bytes of an instruction are counted, and then those after it. -/
theorem decodeLen_of_some {found : List Decoded} {first : Decoded}
    (h : (decoder.decodeBytes bytes).outcome = .ok found) (hfirst : found.head? = some first)
    (hpos : 1 ≤ first.byteLen) (hle : first.byteLen ≤ bytes.length) :
    (decoder.decodeLen bytes).outcome =
      (decoder.decodeLen (bytes.drop first.byteLen)).outcome.map (first.byteLen + ·) := by
  obtain ⟨others, rfl⟩ := List.head?_eq_some_iff.1 hfirst
  have hne : ¬bytes.isEmpty := by
    rw [List.isEmpty_iff_length_eq_zero]
    omega
  rw [decodeLen, if_neg hne, Traced.bind_of_ok h]
  dsimp only
  rw [dif_pos ⟨hpos, hle⟩]
  cases hrest : (decoder.decodeLen (bytes.drop first.byteLen)).outcome with
  | error error => rw [Traced.bind_of_error hrest]; rfl
  | ok rest => rw [Traced.bind_of_ok hrest]; rfl

end Decoder

/-! ## Walks -/

/-- A stream in front of the bytes that are not decoded yet. -/
structure Position where
  stream : Stream
  rest : List Byte

namespace Position

/-- A step decodes an instruction and drops its bytes. -/
def Step (position next : Position) : Prop :=
  ∃ decoded, position.stream.result position.rest = .ok (some decoded) ∧
    next = ⟨position.stream.next position.rest, position.rest.drop decoded.byteLen⟩

/-- A walk of any length. -/
abbrev Walk : Position → Position → Prop :=
  Relation.ReflTransGen Step

/-- Between the start of some data and a position there are `count` bytes.  The decoder is the same
    and the address has grown by as many; the count for the whole data is this number and the count
    for the bytes that are left. -/
structure IsPassed (decoder : Decoder) (address : Nat) (data : List Byte) (count : Nat)
    (position : Position) : Prop where
  stream : position.stream = ⟨decoder, address + count⟩
  rest : position.rest = data.drop count
  count_le : count ≤ data.length
  decodeLen : (decoder.decodeLen data).outcome =
    (decoder.decodeLen position.rest).outcome.map (count + ·)

section walk

variable {decoder : Decoder} {address count : Nat} {data : List Byte} {position next : Position}

theorem isPassed_start : IsPassed decoder address data 0 ⟨⟨decoder, address⟩, data⟩ := by
  refine ⟨rfl, rfl, Nat.zero_le _, ?_⟩
  simp only [Nat.zero_add]
  cases (decoder.decodeLen data).outcome <;> rfl

/-- What an attempt finds takes some bytes, but not more than there are. -/
theorem IsPassed.byteLen (h : IsPassed decoder address data count position)
    (hdecoder : decoder.IsConsuming) {decoded : Decoded}
    (hresult : position.stream.result position.rest = .ok (some decoded)) :
    1 ≤ decoded.byteLen ∧ decoded.byteLen ≤ position.rest.length := by
  obtain ⟨found, hfound, hfirst⟩ := Stream.result_eq_ok.1 hresult
  rw [h.stream] at hfound
  exact hdecoder.taken hfound (List.mem_of_head? hfirst)

/-- An attempt that finds nothing leaves nothing to count, so all that counts was passed. -/
theorem IsPassed.of_none (h : IsPassed decoder address data count position)
    (hresult : position.stream.result position.rest = .ok none) :
    (decoder.decodeLen data).outcome = .ok count ∧
      position.stream.next position.rest = position.stream := by
  obtain ⟨found, hfound, hnone⟩ := Stream.result_eq_ok.1 hresult
  rw [h.stream] at hfound
  refine ⟨?_, Stream.next_of_not_some fun first hfirst => ?_⟩
  · rw [h.decodeLen, Decoder.decodeLen_of_none hfound hnone]
    rfl
  · rw [hresult] at hfirst
    simp at hfirst

/-- A condition that fails in an attempt fails in the count too. -/
theorem IsPassed.of_error (h : IsPassed decoder address data count position)
    (hdecoder : decoder.IsConsuming) {error : ConditionError}
    (hresult : position.stream.result position.rest = .error error) :
    (decoder.decodeLen data).outcome = .error error ∧
      position.stream.next position.rest = position.stream := by
  have hbytes := Stream.result_eq_error.1 hresult
  rw [h.stream] at hbytes
  refine ⟨?_, Stream.next_of_not_some fun first hfirst => ?_⟩
  · -- The count looks for instructions only as long as there are bytes, and there are some.
    rw [h.decodeLen, Decoder.decodeLen_of_error (hdecoder.ne_nil hbytes) hbytes]
    rfl
  · rw [hresult] at hfirst
    simp at hfirst

/-- **One step** passes the bytes of an instruction. -/
theorem IsPassed.step (h : IsPassed decoder address data count position)
    (hdecoder : decoder.IsConsuming) (hstep : Step position next) :
    ∃ more, 1 ≤ more ∧ IsPassed decoder address data (count + more) next := by
  obtain ⟨decoded, hresult, rfl⟩ := hstep
  obtain ⟨hpos, hle⟩ := h.byteLen hdecoder hresult
  obtain ⟨found, hfound, hfirst⟩ := Stream.result_eq_ok.1 hresult
  have hlength : position.rest.length = data.length - count := by
    rw [h.rest, List.length_drop]
  refine ⟨decoded.byteLen, hpos, ⟨?_, ?_, ?_, ?_⟩⟩
  · rw [Stream.next_of_some hresult, h.stream, ← Nat.add_assoc]
    rfl
  · rw [h.rest, List.drop_drop]
  · have := h.count_le
    omega
  · -- What is left to count is counted in the same way.
    rw [h.stream] at hfound
    rw [h.decodeLen, Decoder.decodeLen_of_some hfound hfirst hpos hle]
    cases (decoder.decodeLen (position.rest.drop decoded.byteLen)).outcome with
    | error error => rfl
    | ok rest => simp [Except.map, Nat.add_assoc]

/-- **A walk** passes the bytes of all its instructions. -/
theorem IsPassed.run (h : IsPassed decoder address data count position)
    (hdecoder : decoder.IsConsuming) (hwalk : Walk position next) :
    ∃ more, IsPassed decoder address data (count + more) next := by
  induction hwalk with
  | refl => exact ⟨0, h⟩
  | tail _ hstep ih =>
    obtain ⟨more, hpassed⟩ := ih
    obtain ⟨most, -, hnext⟩ := hpassed.step hdecoder hstep
    exact ⟨more + most, Nat.add_assoc count more most ▸ hnext⟩

/-- Each step leaves fewer bytes, so no walk goes on for ever. -/
theorem not_forall_step (hdecoder : decoder.IsConsuming) (walk : Nat → Position)
    (hstart : IsPassed decoder address data count (walk 0)) :
    ¬∀ i, Step (walk i) (walk (i + 1)) := by
  intro hsteps
  -- After as many steps as there are bytes, at least as many bytes would be passed.
  have hpassed : ∀ i, ∃ passed, i ≤ passed ∧ IsPassed decoder address data passed (walk i) := by
    intro i
    induction i with
    | zero => exact ⟨count, Nat.zero_le _, hstart⟩
    | succ i ih =>
      obtain ⟨passed, hle, hi⟩ := ih
      obtain ⟨more, hpos, hnext⟩ := hi.step hdecoder (hsteps i)
      exact ⟨passed + more, by omega, hnext⟩
  obtain ⟨passed, hle, hlast⟩ := hpassed (data.length + 1)
  have := hlast.count_le
  omega

/-- Every position has a walk to one from which there is no further step. -/
theorem exists_walk (hdecoder : decoder.IsConsuming)
    (h : IsPassed decoder address data count position) :
    ∃ last, Walk position last ∧ ∀ next, ¬Step last next := by
  induction hleft : data.length - count using Nat.strongRecOn generalizing count position with
  | ind left ih =>
    by_cases hstep : ∃ next, Step position next
    · obtain ⟨next, hstep⟩ := hstep
      obtain ⟨more, hpos, hnext⟩ := h.step hdecoder hstep
      have hless : data.length - (count + more) < left := by
        have := hnext.count_le
        omega
      obtain ⟨last, hwalk, hlast⟩ := ih _ hless hnext rfl
      exact ⟨last, .head hstep hwalk, hlast⟩
    · exact ⟨position, .refl, fun next hnext => hstep ⟨next, hnext⟩⟩

end walk

/-- **Walks agree with counts**: a stream that decodes instruction after instruction comes to an
    end.  Wherever it gets, it has passed as many bytes as its address has grown by.  An instruction
    that it finds there takes at least one byte, and not more than there are.  If it finds nothing,
    then the bytes that were passed are those that the decoder counts; if a condition fails, then
    counting fails with the same error; and either leaves the stream as it is. -/
theorem walk_agrees {options : Options} {registry : Registry} {hook : Decoder.Hook}
    {description : Description} {decoder : Decoder}
    (hbuild : Decoder.buildHooked options registry hook description = .ok decoder)
    (hkeeps : decoder.KeepsForms description) (address : Nat) (data : List Byte) :
    let start : Position := ⟨⟨decoder, address⟩, data⟩
    (¬∃ walk : Nat → Position, walk 0 = start ∧ ∀ i, Step (walk i) (walk (i + 1))) ∧
      (∃ last, Walk start last ∧ ∀ next, ¬Step last next) ∧
      ∀ position, Walk start position →
        ∃ count, count + position.rest.length = data.length ∧ position.rest = data.drop count ∧
          position.stream = ⟨decoder, address + count⟩ ∧
          match position.stream.result position.rest with
          | .ok (some decoded) =>
            1 ≤ decoded.byteLen ∧ decoded.byteLen ≤ position.rest.length
          | .ok none =>
            (decoder.decodeLen data).outcome = .ok count ∧
              position.stream.next position.rest = position.stream
          | .error error =>
            (decoder.decodeLen data).outcome = .error error ∧
              position.stream.next position.rest = position.stream := by
  intro start
  have hdecoder := Decoder.isConsuming_of_keepsForms hbuild hkeeps
  have hstart : IsPassed decoder address data 0 start := isPassed_start
  refine ⟨?_, exists_walk hdecoder hstart, fun position hwalk => ?_⟩
  · intro h
    obtain ⟨walk, hzero, hsteps⟩ := h
    exact not_forall_step hdecoder walk (hzero ▸ hstart) hsteps
  · obtain ⟨count, hpassed⟩ := hstart.run hdecoder hwalk
    rw [Nat.zero_add] at hpassed
    refine ⟨count, ?_, hpassed.rest, hpassed.stream, ?_⟩
    · have := hpassed.count_le
      rw [hpassed.rest, List.length_drop]
      omega
    · cases hresult : position.stream.result position.rest with
      | error error => exact hpassed.of_error hdecoder hresult
      | ok first =>
        cases first with
        | none => exact hpassed.of_none hresult
        | some decoded => exact hpassed.byteLen hdecoder hresult

/-- The push is decoded, and nothing is found in the byte after it. -/
theorem walk_agrees_thumb :
    ∃ decoder, Decoder.buildHooked {} Sample.registry Decoder.numbered Sample.thumb = .ok decoder ∧
      decoder.KeepsForms Sample.thumb ∧
      Walk ⟨⟨decoder, 0x100⟩, Decoder.pushBytes⟩ ⟨⟨decoder, 0x104⟩, [0xff]⟩ ∧
      (decoder.decodeLen Decoder.pushBytes).outcome = .ok 4 := by
  obtain ⟨decoder, hbuild, hkeeps, -, -, -, -, hfound, hnothing⟩ := Decoder.exists_thumb_pushBytes
  obtain ⟨push, hpush, -, hfour, -⟩ := hfound
  have hresult : (Stream.mk decoder 0x100).result Decoder.pushBytes = .ok (some push) :=
    Stream.result_eq_ok.2 ⟨_, hpush, rfl⟩
  have hwalk : Walk ⟨⟨decoder, 0x100⟩, Decoder.pushBytes⟩ ⟨⟨decoder, 0x104⟩, [0xff]⟩ := by
    refine .single ⟨push, hresult, ?_⟩
    rw [Stream.next_of_some hresult, hfour]
    rfl
  have hend : (Stream.mk decoder 0x104).result [0xff] = .ok none :=
    Stream.result_eq_ok.2 ⟨[], hnothing, rfl⟩
  obtain ⟨-, -, hagrees⟩ := walk_agrees hbuild hkeeps 0x100 Decoder.pushBytes
  obtain ⟨count, hcount, -, -, hlast⟩ := hagrees _ hwalk
  obtain rfl : count = 4 := Nat.add_right_cancel hcount
  rw [hend] at hlast
  exact ⟨decoder, hbuild, hkeeps, hwalk, hlast.1⟩

end Position

end IsaCodec
