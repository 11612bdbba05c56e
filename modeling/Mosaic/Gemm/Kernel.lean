import Mosaic.Graph.CustomGraph
import Mathlib.Algebra.BigOperators.Group.Finset.Basic
import Mathlib.Algebra.Ring.Defs

/-!
# The gathered matrix product

One kernel reads selected rows of a matrix, multiplies them with a weight matrix and stores the
products. The programs of a launch compute one tile of the output each, in steps of some columns
of the input. The arithmetic on indices is a parameter, so that the same kernel can be read with
exact integers and with those of the machine. An address is a 64-bit sum of the offsets that are
added to a pointer, each computed in the arithmetic.
-/

namespace Gemm

open Finset

/-- An arithmetic on indices. -/
structure IndexOps (I : Type) where
  /-- An integer argument or a constant. -/
  lit : ℤ → I
  val : I → ℤ
  add : I → I → I
  sub : I → I → I
  mul : I → I → I
  div : I → I → I
  mod : I → I → I
  min : I → I → I
  toInt64 : I → I
  /-- The counter of a loop, in the type of its bound. -/
  counter : I → ℕ → I
  /-- A conversion of memory to 32 bits. -/
  narrow : ℤ → ℤ

/-- The sizes and the strides. -/
structure Args where
  M : ℕ
  N : ℕ
  K : ℕ
  strideXm : ℕ
  strideXk : ℕ
  strideWk : ℕ
  strideWn : ℕ
  strideOm : ℕ
  strideOn : ℕ
  deriving DecidableEq, Repr

structure Config where
  blockSizeM : ℕ
  blockSizeN : ℕ
  blockSizeK : ℕ
  groupSizeM : ℕ
  deriving DecidableEq, Repr

/-- The configurations to choose from. -/
def autotuneConfigs : List Config :=
  [⟨128, 128, 64, 8⟩, ⟨128, 256, 64, 8⟩, ⟨256, 128, 64, 8⟩, ⟨128, 128, 32, 8⟩, ⟨64, 256, 32, 8⟩]

/-- A program of a launch. -/
structure Program (I : Type) where
  ops : IndexOps I
  config : Config
  args : Args
  pid : ℕ

namespace Program

variable {I R : Type} (p : Program I)

/-! ### The tile -/

def cdiv (x : I) (size : ℕ) : I :=
  p.ops.div (p.ops.sub (p.ops.add x (p.ops.lit size)) (p.ops.lit 1)) (p.ops.lit size)

def numPidM : I := p.cdiv (p.ops.lit p.args.M) p.config.blockSizeM

def numPidN : I := p.cdiv (p.ops.lit p.args.N) p.config.blockSizeN

def firstPidM : I :=
  let numPidInGroup := p.ops.mul (p.ops.lit p.config.groupSizeM) p.numPidN
  let groupId := p.ops.div (p.ops.lit p.pid) numPidInGroup
  p.ops.mul groupId (p.ops.lit p.config.groupSizeM)

def groupSize : I :=
  p.ops.min (p.ops.sub p.numPidM p.firstPidM) (p.ops.lit p.config.groupSizeM)

def pidM : I := p.ops.add p.firstPidM (p.ops.mod (p.ops.lit p.pid) p.groupSize)

def pidN : I := p.ops.mod (p.ops.div (p.ops.lit p.pid) p.groupSize) p.numPidN

def offsM (i : ℕ) : I := p.ops.add (p.ops.mul p.pidM (p.ops.lit p.config.blockSizeM)) (p.ops.lit i)

def offsN (j : ℕ) : I := p.ops.add (p.ops.mul p.pidN (p.ops.lit p.config.blockSizeN)) (p.ops.lit j)

def offsK (l : ℕ) : I := p.ops.lit l

/-! ### Masks and addresses -/

def inM (i : ℕ) : Bool := p.ops.val (p.offsM i) < p.ops.val (p.ops.lit p.args.M)

def inN (j : ℕ) : Bool := p.ops.val (p.offsN j) < p.ops.val (p.ops.lit p.args.N)

/-- The number of rounds of the loop over `K`. -/
def rounds : ℕ := (p.ops.val (p.cdiv (p.ops.lit p.args.K) p.config.blockSizeK)).toNat

def inK (k l : ℕ) : Bool :=
  let counter := p.ops.counter (p.cdiv (p.ops.lit p.args.K) p.config.blockSizeK) k
  p.ops.val (p.offsK l) < p.ops.val (p.ops.sub (p.ops.lit p.args.K)
    (p.ops.mul counter (p.ops.lit p.config.blockSizeK)))

/-- The row that is gathered, zero where there is none. -/
def rowIndex (indices : ℤ → ℤ) (i : ℕ) : I :=
  p.ops.lit (if p.inM i then p.ops.narrow (indices (p.ops.val (p.offsM i))) else 0)

/-- The addresses of the input in a round. Every round moves them on. -/
def xPtr (indices : ℤ → ℤ) (i l : ℕ) : ℕ → ℤ
  | 0 => p.ops.val (p.ops.mul (p.ops.toInt64 (p.rowIndex indices i)) (p.ops.lit p.args.strideXm)) +
      p.ops.val (p.ops.mul (p.offsK l) (p.ops.lit p.args.strideXk))
  | k + 1 => xPtr indices i l k +
      p.ops.val (p.ops.mul (p.ops.lit p.config.blockSizeK) (p.ops.lit p.args.strideXk))

/-- The addresses of the weight in a round. -/
def wPtr (l j : ℕ) : ℕ → ℤ
  | 0 => p.ops.val (p.ops.mul (p.offsK l) (p.ops.lit p.args.strideWk)) +
      p.ops.val (p.ops.mul (p.offsN j) (p.ops.lit p.args.strideWn))
  | k + 1 => wPtr l j k +
      p.ops.val (p.ops.mul (p.ops.lit p.config.blockSizeK) (p.ops.lit p.args.strideWk))

def outPtr (i j : ℕ) : ℤ :=
  p.ops.val (p.ops.mul (p.ops.lit p.args.strideOm) (p.ops.toInt64 (p.offsM i))) +
    p.ops.val (p.ops.mul (p.ops.lit p.args.strideOn) (p.ops.toInt64 (p.offsN j)))

/-! ### The product -/

/-- The tensors in memory. -/
structure Memory (R : Type) where
  x : ℤ → R
  w : ℤ → R
  indices : ℤ → ℤ

variable [Semiring R] (mem : Memory R)

/-- An element of the input, zero outside of the mask. -/
def loadX (i l k : ℕ) : R :=
  if p.inM i && p.inK k l then mem.x (p.xPtr mem.indices i l k) else 0

/-- An element of the weight, zero outside of the mask. -/
def loadW (l j k : ℕ) : R :=
  if p.inK k l && p.inN j then mem.w (p.wPtr l j k) else 0

/-- The accumulator after some rounds. -/
def accumulator (i j : ℕ) : ℕ → R
  | 0 => 0
  | k + 1 => accumulator i j k +
      ∑ l ∈ range p.config.blockSizeK, p.loadX mem i l k * p.loadW mem l j k

/-- The stores of a program. -/
def gatherMatmulKernel : List (ℤ × R) :=
  (List.range p.config.blockSizeM).flatMap fun i =>
    ((List.range p.config.blockSizeN).filter fun j => p.inM i && p.inN j).map fun j =>
      (p.outPtr i j, p.accumulator mem i j p.rounds)

end Program

/-! ### The launch -/

/-- A matrix as `gather_gemm` sees it. -/
structure Matrix where
  rows : ℕ
  cols : ℕ
  stride0 : ℕ
  stride1 : ℕ
  dtype : Graph.Dtype
  isCuda : Bool
  deriving DecidableEq, Repr

/-- The vector of row numbers. -/
structure IndexVector where
  length : ℕ
  stride : ℕ
  dtype : Graph.Dtype
  isCuda : Bool
  deriving DecidableEq, Repr

/-- The entries of the vector, from the memory behind its pointer. -/
def IndexVector.entries (indices : IndexVector) (storage : ℤ → ℤ) (m : ℤ) : ℤ :=
  storage (m * indices.stride)

/-- The memory that the kernel gets. A conversion to 32 bits copies the entries next to each
other. -/
def IndexVector.loaded (indices : IndexVector) (storage : ℤ → ℤ) : ℤ → ℤ :=
  if indices.dtype = .int64 then indices.entries storage else storage

/-- The checks that can fail. -/
inductive GemmError where
  | xCols (cols hidden : ℕ)
  | outShape (rows cols M vocab : ℕ)
  | xDtype (dtype : Graph.Dtype)
  | weightDtype (dtype : Graph.Dtype)
  | outDtype (dtype : Graph.Dtype)
  | mixedDtypes (x weight out : Graph.Dtype)
  | notCuda
  deriving DecidableEq, Repr

/-- The text of an element type. -/
def dtypeText : Graph.Dtype → String
  | .float16 => "torch.float16"
  | .bfloat16 => "torch.bfloat16"
  | .float32 => "torch.float32"
  | .float64 => "torch.float64"
  | .uint8 => "torch.uint8"
  | .int8 => "torch.int8"
  | .int16 => "torch.int16"
  | .int32 => "torch.int32"
  | .int64 => "torch.int64"

def GemmError.message : GemmError → String
  | .xCols cols hidden => s!"x.shape[1]={cols} != Hidden={hidden}"
  | .outShape rows cols M vocab => s!"out.shape=torch.Size([{rows}, {cols}]) != ({M}, {vocab})"
  | .xDtype dtype => s!"x must be float16 or bfloat16, got {dtypeText dtype}"
  | .weightDtype dtype => s!"weight must be float16 or bfloat16, got {dtypeText dtype}"
  | .outDtype dtype => s!"out must be float16 or bfloat16, got {dtypeText dtype}"
  | .mixedDtypes x weight out =>
    s!"All tensors must have same dtype, got x:{dtypeText x}, " ++
      s!"weight:{dtypeText weight}, out:{dtypeText out}"
  | .notCuda => "All tensors must be on CUDA"

def isHalf (dtype : Graph.Dtype) : Bool :=
  dtype ∈ [.float16, .bfloat16]

/-- The checks of the arguments. -/
def checkArgs (x : Matrix) (indices : IndexVector) (weight out : Matrix) :
    Except GemmError Unit := do
  unless x.cols = weight.rows do throw (.xCols x.cols weight.rows)
  unless out.rows = indices.length ∧ out.cols = weight.cols do
    throw (.outShape out.rows out.cols indices.length weight.cols)
  unless isHalf x.dtype do throw (.xDtype x.dtype)
  unless isHalf weight.dtype do throw (.weightDtype weight.dtype)
  unless isHalf out.dtype do throw (.outDtype out.dtype)
  unless x.dtype = weight.dtype ∧ weight.dtype = out.dtype do
    throw (.mixedDtypes x.dtype weight.dtype out.dtype)
  unless x.isCuda && weight.isCuda && indices.isCuda && out.isCuda do throw .notCuda

/-- The arguments that the kernel is launched with. -/
def launchArgs (x : Matrix) (indices : IndexVector) (weight out : Matrix) : Args where
  M := indices.length
  N := weight.cols
  K := weight.rows
  strideXm := x.stride0
  strideXk := x.stride1
  strideWk := weight.stride0
  strideWn := weight.stride1
  strideOm := out.stride0
  strideOn := out.stride1

/-- The division of the host, which has integers of any size. -/
def hostCdiv (x div : ℕ) : ℕ :=
  (x + div - 1) / div

/-- The number of programs. -/
def gridSize (config : Config) (args : Args) : ℕ :=
  hostCdiv args.M config.blockSizeM * hostCdiv args.N config.blockSizeN

/-- The stores of a launch whose programs run in some order. -/
def gatherGemm {I R : Type} [Semiring R] (ops : IndexOps I) (config : Config) (x : Matrix)
    (indices : IndexVector) (weight out : Matrix) (mem : Program.Memory R) (order : List ℕ) :
    Except GemmError (List (ℤ × R)) := do
  checkArgs x indices weight out
  let args := launchArgs x indices weight out
  let mem := { mem with indices := indices.loaded mem.indices }
  return order.flatMap fun pid => Program.gatherMatmulKernel ⟨ops, config, args, pid⟩ mem

end Gemm
