import Mosaic.Sched.Request

/-!
# The encoder cache

The outputs of the encoder take slots from when an item is scheduled until it is consumed. What is
freed is listed until the list is asked for.
-/

namespace Sched

/-- The cached items of a request are listed in the order in which they were cached. A request
without an entry has none. -/
structure EncoderCacheManager where
  cacheSize : ℕ
  numFreeSlots : ℤ
  cached : String → List ℕ
  freed : List (String × ℕ)

namespace EncoderCacheManager

def new (cacheSize : ℕ) : EncoderCacheManager where
  cacheSize := cacheSize
  numFreeSlots := cacheSize
  cached := fun _ => []
  freed := []

def hasCache (m : EncoderCacheManager) (r : Request) (inputId : ℕ) : Bool :=
  inputId ∈ m.cached r.requestId

def canAllocate (m : EncoderCacheManager) (r : Request) (inputId : ℕ) :
    Except SchedulerError Bool := do
  let numTokens ← r.getNumEncoderTokens inputId
  return decide ((numTokens : ℤ) ≤ m.numFreeSlots)

def getCachedInputIds (m : EncoderCacheManager) (r : Request) : List ℕ := m.cached r.requestId

/-- Reserve slots. Whether there are enough is not tested here. -/
def allocate (m : EncoderCacheManager) (r : Request) (inputId : ℕ) :
    Except SchedulerError EncoderCacheManager := do
  let numTokens ← r.getNumEncoderTokens inputId
  return { m with
    cached := Function.update m.cached r.requestId
      (if inputId ∈ m.cached r.requestId then m.cached r.requestId
        else m.cached r.requestId ++ [inputId])
    numFreeSlots := m.numFreeSlots - numTokens }

/-- A request that has an entry gives back the slots of the item, whether it is cached or not. -/
def freeEncoderInput (m : EncoderCacheManager) (r : Request) (inputId : ℕ) :
    Except SchedulerError EncoderCacheManager :=
  if m.cached r.requestId = [] then .ok m
  else do
    let numTokens ← r.getNumEncoderTokens inputId
    return { m with
      cached := Function.update m.cached r.requestId ((m.cached r.requestId).erase inputId)
      numFreeSlots := m.numFreeSlots + numTokens
      freed := m.freed ++ [(r.requestId, inputId)] }

def free (m : EncoderCacheManager) (r : Request) : Except SchedulerError EncoderCacheManager :=
  (m.getCachedInputIds r).foldlM (fun m inputId => m.freeEncoderInput r inputId) m

/-- The freed items, and the cache with an empty list of them. -/
def getFreedIds (m : EncoderCacheManager) : List (String × ℕ) × EncoderCacheManager :=
  (m.freed, { m with freed := [] })

end EncoderCacheManager

end Sched
