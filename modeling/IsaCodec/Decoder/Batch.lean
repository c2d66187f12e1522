import IsaCodec.Decoder.Basic
import IsaCodec.Instruction.Confirm

/-! # Decoding batches

    Many codes are decoded at once without a tree.  The instructions are
    tried in order of declaration, each on all codes that no earlier one has
    taken, and an instruction takes the codes that it confirms.  A large
    batch is cut into chunks, one for each worker; all of them are run to
    their ends, and the first chunk with an error gives the result. -/

namespace IsaCodec

/-- Takes the lanes that an instruction accepted; the others keep what is
    found for them later. -/
def takeLanes (instruction : Instruction) (accepted : List Bool)
    (later : List (Option Instruction)) : List (Option Instruction) :=
  replaceWhere Option.isNone
    (accepted.map fun accepted => if accepted then some instruction else none) later

/-- The first of some instructions that each code is, or none. -/
def firstMatches (registry : Registry) (codeBitLen : Nat) (codes : List Code) :
    List Instruction → Traced ConditionError (List (Option Instruction))
  | [] => pure (codes.map fun _ => none)
  | instruction :: rest => do
    let lanes := codes.map (instruction.form.align · codeBitLen)
    let accepted ← instruction.confirmLanes registry lanes
    let later ← firstMatches registry codeBitLen (selectWhere (!·) codes accepted) rest
    pure (takeLanes instruction accepted later)

/-- Cuts a list into pieces of `size` items, of which the last may be shorter. -/
def chunks {α : Type} (size : Nat) (xs : List α) : List (List α) :=
  if xs = [] ∨ size = 0 then []
  else xs.take size :: chunks size (xs.drop size)
termination_by xs.length
decreasing_by
  rename_i h
  have : 0 < xs.length := List.length_pos_iff.2 (fun h' => h (.inl h'))
  simp only [List.length_drop]
  omega

theorem flatten_chunks {α : Type} {size : Nat} (hsize : size ≠ 0) (xs : List α) :
    (chunks size xs).flatten = xs := by
  fun_induction chunks size xs with
  | case1 xs h => simp_all
  | case2 xs h ih => simp [ih]

namespace Options

/-- Number of codes in each chunk of a batch: as many as give every worker
    one chunk, but not fewer than the least number.  There are fewer than
    `2 ^ 64` codes and workers together. -/
def chunkLength (options : Options) (count : Nat) : Nat :=
  max ((count + options.threads - 1) / options.threads) options.chunkSize

/-- There is no empty chunk, even if no least number is given. -/
theorem chunkLength_pos {options : Options} {count : Nat} (hthreads : 1 < options.threads)
    (hcount : 0 < count) : 0 < options.chunkLength count := by
  have hshare : 0 < (count + options.threads - 1) / options.threads :=
    Nat.div_pos (by omega) (by omega)
  exact Nat.lt_of_lt_of_le hshare (Nat.le_max_left _ _)

end Options

namespace Decoder

/-- The first instruction that each code is, or none. -/
def decodeBatch (decoder : Decoder) (codes : List Code) :
    Traced ConditionError (List (Option Instruction)) :=
  let run := fun codes =>
    firstMatches decoder.registry decoder.codeBitLen codes decoder.instructions
  if 1 < decoder.options.threads ∧ decoder.options.chunkSize < codes.length then do
    let results ← Traced.all
      ((chunks (decoder.options.chunkLength codes.length) codes).map run)
    pure results.flatten
  else run codes

end Decoder

end IsaCodec
