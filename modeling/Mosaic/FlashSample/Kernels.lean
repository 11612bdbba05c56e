import Mosaic.Control.Threads
import Mathlib.Order.Defs.LinearOrder
import Mathlib.Data.List.Range
import Mathlib.Data.Int.Order.Basic

/-!
# The fused sampling kernels

A block of threads finds the largest element of a row of logits and sums over the row. Every thread
goes over some columns, and the results of the threads are combined in rounds with a barrier after
each. One kernel returns the probability of the largest element, one the entropy, and one adds noise
to the logits before it looks for the largest. The arithmetic is a parameter.
-/

namespace FlashSample

open Threads

/-- An arithmetic of floating point numbers. -/
structure FloatOps (R : Type) where
  /-- The negative number of the largest size, `-FLT_MAX`. -/
  lowest : R
  zero : R
  one : R
  /-- The lower bound of the random numbers, `1e-10`. -/
  minUniform : R
  neg : R → R
  add : R → R → R
  sub : R → R → R
  mul : R → R → R
  div : R → R → R
  expf : R → R
  logf : R → R

/-- A row of logits. -/
structure Row (R : Type) where
  N : ℕ
  logit : ℕ → R

/-- The arrays in shared memory. -/
inductive Cell where
  | vals (i : ℕ)
  | idxs (i : ℕ)
  deriving DecidableEq, Repr

/-- What a cell holds. -/
abbrev Word (R : Type) : Cell → Type
  | .vals _ => R
  | .idxs _ => ℤ

/-- The variables of a thread that live across a barrier, and what it returns for its row. -/
structure Regs (R : Type) where
  finalMaxVal : R
  finalArgmaxIdx : ℤ
  finalDenominator : R
  out : Option (ℤ × R)
  deriving DecidableEq, Repr

section Kernels

variable {R : Type} [LinearOrder R] (ops : FloatOps R) (blockSize : ℕ) (row : Row R)

/-! ### What a thread computes from its columns -/

/-- The columns of a thread, from its own number in steps of the block. -/
def columns (tid : ℕ) : List ℕ :=
  List.range' tid ((row.N - tid + blockSize - 1) / blockSize) blockSize

/-- The first of the largest values, `-FLT_MAX` and `-1` if there is none. -/
def threadArgmax (values : List (ℕ × R)) : R × ℤ :=
  values.foldl (fun best value => if best.1 < value.2 then (value.2, (value.1 : ℤ)) else best)
    (ops.lowest, -1)

def threadDenominator (finalMaxVal : R) (tid : ℕ) : R :=
  (columns blockSize row tid).foldl
    (fun sum col => ops.add sum (ops.expf (ops.sub (row.logit col) finalMaxVal))) ops.zero

def threadEntropy (finalMaxVal logSum : R) (tid : ℕ) : R :=
  (columns blockSize row tid).foldl
    (fun sum col =>
      let logP := ops.sub (ops.sub (row.logit col) finalMaxVal) logSum
      ops.add sum (ops.mul (ops.expf logP) logP)) ops.zero

/-! ### Phases -/

/-- A thread stores the largest of its values. -/
def scanPhase (values : ℕ → List (ℕ × R)) : Phase (Word R) (Regs R) := fun tid regs =>
  let best := threadArgmax ops (values tid)
  .store (.vals tid) best.1 (.store (.idxs tid) best.2 (.done regs))

/-- The offsets of the rounds, halved until nothing is left. -/
def offsets (offset : ℕ) : List ℕ :=
  if offset = 0 then [] else offset :: offsets (offset / 2)
termination_by offset

def argmaxRound (offset : ℕ) : Phase (Word R) (Regs R) := fun tid regs =>
  if tid < offset then
    .load (.vals (tid + offset)) fun (otherVal : R) =>
    .load (.idxs (tid + offset)) fun (otherIdx : ℤ) =>
    .load (.vals tid) fun (val : R) =>
      if val < otherVal then
        .store (.vals tid) otherVal (.store (.idxs tid) otherIdx (.done regs))
      else
        .load (.vals tid) fun (val : R) =>
          if otherVal = val then
            .load (.idxs tid) fun (idx : ℤ) => .store (.idxs tid) (min idx otherIdx) (.done regs)
          else .done regs
  else .done regs

/-- Thread `0` leaves the result in the last cells. -/
def broadcastPhase : Phase (Word R) (Regs R) := fun tid regs =>
  if tid = 0 then
    .load (.vals 0) fun (val : R) => .store (.vals (blockSize - 1)) val <|
    .load (.idxs 0) fun (idx : ℤ) => .store (.idxs (blockSize - 1)) idx <|
    .done regs
  else .done regs

/-- There is no barrier between the load of the maximum and the store of the partial sum. -/
def denominatorPhase : Phase (Word R) (Regs R) := fun tid regs =>
  .load (.vals (blockSize - 1)) fun (finalMaxVal : R) =>
  .load (.idxs (blockSize - 1)) fun (finalArgmaxIdx : ℤ) =>
  .store (.vals tid) (threadDenominator ops blockSize row finalMaxVal tid) <|
  .done { regs with finalMaxVal, finalArgmaxIdx }

/-- A round that combines the values of two cells. -/
def combineRound (combine : R → R → R) (offset : ℕ) : Phase (Word R) (Regs R) := fun tid regs =>
  if tid < offset then
    .load (.vals tid) fun (val : R) => .load (.vals (tid + offset)) fun (otherVal : R) =>
    .store (.vals tid) (combine val otherVal) (.done regs)
  else .done regs

def sumRound (offset : ℕ) : Phase (Word R) (Regs R) :=
  combineRound ops.add offset

def maxRound (offset : ℕ) : Phase (Word R) (Regs R) :=
  combineRound max offset

def readDenominatorPhase : Phase (Word R) (Regs R) := fun _ regs =>
  .load (.vals 0) fun (finalDenominator : R) => .done { regs with finalDenominator }

def entropyPhase : Phase (Word R) (Regs R) := fun tid regs =>
  .store (.vals tid)
    (threadEntropy ops blockSize row regs.finalMaxVal (ops.logf regs.finalDenominator) tid)
    (.done regs)

/-- Thread `0` returns the probability of the largest element. -/
def writeProbPhase : Phase (Word R) (Regs R) := fun tid regs =>
  if tid = 0 then
    .load (.vals 0) fun (finalDenominator : R) =>
    .done { regs with
      finalDenominator
      out := some (regs.finalArgmaxIdx, ops.div ops.one finalDenominator) }
  else .done regs

/-- Thread `0` returns the entropy. -/
def writeEntropyPhase : Phase (Word R) (Regs R) := fun tid regs =>
  if tid = 0 then
    .load (.vals 0) fun (finalEntropy : R) =>
    .done { regs with out := some (regs.finalArgmaxIdx, finalEntropy) }
  else .done regs

/-! ### Kernels -/

/-- The search for the largest value, up to the barrier after which all threads read it. -/
def argmaxPhases (values : ℕ → List (ℕ × R)) : List (Phase (Word R) (Regs R)) :=
  scanPhase ops values :: (offsets (blockSize / 2)).map argmaxRound ++ [broadcastPhase blockSize]

/-- The logits of a thread. -/
def logitValues (tid : ℕ) : List (ℕ × R) :=
  (columns blockSize row tid).map fun col => (col, row.logit col)

def lowConfidenceKernel : List (Phase (Word R) (Regs R)) :=
  argmaxPhases ops blockSize (logitValues blockSize row) ++
    denominatorPhase ops blockSize row :: (offsets (blockSize / 2)).map (sumRound ops) ++
    [writeProbPhase ops]

/-- The sum of the entropy, after the denominator has been summed. -/
def entropyPhases : List (Phase (Word R) (Regs R)) :=
  [readDenominatorPhase, entropyPhase ops blockSize row] ++
    (offsets (blockSize / 2)).map (sumRound ops) ++ [writeEntropyPhase]

def entropyKernel : List (Phase (Word R) (Regs R)) :=
  argmaxPhases ops blockSize (logitValues blockSize row) ++
    denominatorPhase ops blockSize row :: (offsets (blockSize / 2)).map (sumRound ops) ++
    entropyPhases ops blockSize row

/-! ### The kernel with a temperature -/

section Temperature

variable (temperature : R)

def invTemp : R :=
  if ops.zero < temperature then ops.div ops.one temperature else ops.one

/-- The logits after scaling. -/
def scaledRow : Row R where
  N := row.N
  logit col := ops.mul (row.logit col) (invTemp ops temperature)

/-- The noise that a random number gives. -/
def gumbel (u : R) : R :=
  ops.neg (ops.logf (ops.neg (ops.logf (max u ops.minUniform))))

/-- The noisy values of a thread, which draws a random number for each of its columns. -/
def noisyValues (uniform : ℕ → ℕ → R) (tid : ℕ) : List (ℕ × R) :=
  (columns blockSize row tid).zipIdx.map fun (col, draw) =>
    (col, ops.add ((scaledRow ops row temperature).logit col) (gumbel ops (uniform tid draw)))

def threadLogitMax (tid : ℕ) : R :=
  (columns blockSize row tid).foldl (fun best col => max best (row.logit col)) ops.lowest

/-- The threads read the index and store the largest of their logits. -/
def logitMaxPhase : Phase (Word R) (Regs R) := fun tid regs =>
  .load (.idxs (blockSize - 1)) fun (finalArgmaxIdx : ℤ) =>
  .store (.vals tid) (threadLogitMax ops blockSize row tid) <|
  .done { regs with finalArgmaxIdx }

def readLogitMaxPhase : Phase (Word R) (Regs R) := fun _ regs =>
  .load (.vals 0) fun (finalMaxVal : R) => .done { regs with finalMaxVal }

def storeDenominatorPhase : Phase (Word R) (Regs R) := fun tid regs =>
  .store (.vals tid) (threadDenominator ops blockSize row regs.finalMaxVal tid) (.done regs)

def gumbelMaxEntropyKernel (uniform : ℕ → ℕ → R) : List (Phase (Word R) (Regs R)) :=
  argmaxPhases ops blockSize (noisyValues ops blockSize row temperature uniform) ++
    logitMaxPhase ops blockSize (scaledRow ops row temperature) ::
      (offsets (blockSize / 2)).map maxRound ++
    [readLogitMaxPhase, storeDenominatorPhase ops blockSize (scaledRow ops row temperature)] ++
    (offsets (blockSize / 2)).map (sumRound ops) ++
    entropyPhases ops blockSize (scaledRow ops row temperature)

end Temperature

end Kernels

end FlashSample
