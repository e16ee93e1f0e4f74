import Mathlib

/-!
# The kernel heap

The worst-fit allocator of `DnaMM-WorstFit`.  Regions are headers at the start
of runs of blocks; free and created regions are in two doubly linked lists that
use the same two fields.  Headers are addressed by numbers, and `NULL` is
`none`.
-/

namespace Reverse.Dnaos

inductive RegionStatus where
  | free
  | allocated
deriving DecidableEq, Repr

/-- `struct _kernel_region`. -/
structure Region where
  nblocks : Nat
  status : RegionStatus
  next : Option Nat
  prev : Option Nat
deriving DecidableEq, Repr

/-- `DNA_KERNEL_BLOCK_SIZE`, twice the size of a header of four words. -/
def blockSize : Nat := 32

/-- `kernel_allocator` with the headers in the heap. -/
structure KernelAllocator where
  nblocks : Int
  nextCreatedRegion : Option Nat
  nextFreeRegion : Option Nat
  region : Nat → Region

/-- The heap of a configuration. -/
structure HeapConfig where
  address : Nat
  size : Nat
  notNull : 0 < address
  oneBlock : blockSize ≤ size
  fits : address + size ≤ 2 ^ 32

/-- The blocks of the initial region; the last block is never used. -/
def HeapConfig.blocks (cfg : HeapConfig) : Nat :=
  cfg.size / blockSize - 1

def HeapConfig.initialRegion (cfg : HeapConfig) : Region where
  nblocks := cfg.blocks
  status := .free
  next := none
  prev := none

def memoryCreate (cfg : HeapConfig) : KernelAllocator where
  nblocks := (cfg.size / blockSize : Nat)
  nextCreatedRegion := none
  nextFreeRegion := some cfg.address
  region := fun _ => cfg.initialRegion

namespace KernelAllocator

def setRegion (heap : KernelAllocator) (ptr : Nat) (region : Region) :
    KernelAllocator :=
  { heap with region := Function.update heap.region ptr region }

def setNext (heap : KernelAllocator) (ptr : Nat) (next : Option Nat) :
    KernelAllocator :=
  heap.setRegion ptr { heap.region ptr with next := next }

def setPrev (heap : KernelAllocator) (ptr : Nat) (prev : Option Nat) :
    KernelAllocator :=
  heap.setRegion ptr { heap.region ptr with prev := prev }

def setNblocks (heap : KernelAllocator) (ptr nblocks : Nat) :
    KernelAllocator :=
  heap.setRegion ptr { heap.region ptr with nblocks := nblocks }

def setStatus (heap : KernelAllocator) (ptr : Nat) (status : RegionStatus) : KernelAllocator :=
  heap.setRegion ptr { heap.region ptr with status := status }

theorem setRegion_self (heap : KernelAllocator) (ptr : Nat)
    (region : Region) : (heap.setRegion ptr region).region ptr = region :=
  Function.update_self ..

theorem setRegion_other (differ : other ≠ ptr) (heap : KernelAllocator) (region : Region) :
    (heap.setRegion ptr region).region other = heap.region other :=
  Function.update_of_ne differ ..

end KernelAllocator

/-- The loop that looks for the place of a region in the free list.  A walk
that is longer than the heap goes around in a circle. -/
def freePlace (heap : KernelAllocator) (nblocks : Nat) : Nat → Nat → Option Nat
  | 0, _ => none
  | depth + 1, ptr =>
    match (heap.region ptr).next with
    | none => some ptr
    | some next =>
      if (heap.region ptr).nblocks ≤ nblocks then some ptr
      else freePlace heap nblocks depth next

/-- Put a region into the free list, which is ordered by decreasing size. -/
def orderFree (depth : Nat) (heap : KernelAllocator) (region : Nat) : Option KernelAllocator :=
  match heap.nextFreeRegion with
  | none =>
    some { (heap.setPrev region none).setNext region none with
      nextFreeRegion := some region }
  | some first =>
    (freePlace heap (heap.region region).nblocks depth first).map
      fun ptr =>
        if (heap.region ptr).nblocks ≤ (heap.region region).nblocks then
          let prev := (heap.region ptr).prev
          let heap := (heap.setPrev region prev).setNext region (some ptr)
          let heap :=
            match prev with
            | some prev => heap.setNext prev (some region)
            | none => { heap with nextFreeRegion := some region }
          heap.setPrev ptr (some region)
        else
          ((heap.setNext ptr (some region)).setPrev region (some ptr)).setNext region none

def lastCreated (heap : KernelAllocator) : Nat → Nat → Option Nat
  | 0, _ => none
  | depth + 1, aptr =>
    match (heap.region aptr).next with
    | none => some aptr
    | some next => lastCreated heap depth next

/-- Put an allocated region at the end of the created list. -/
def addCreated (depth : Nat) (heap : KernelAllocator) (region : Nat) :
    Option KernelAllocator :=
  match heap.nextCreatedRegion with
  | none => some { heap with nextCreatedRegion := some region }
  | some first =>
    (lastCreated heap depth first).map fun aptr =>
      (heap.setNext aptr (some region)).setPrev region (some aptr)

/-- The first half of the removal from the created list.  The region loses its
own `next` here. -/
def detachNext (heap : KernelAllocator) (region : Nat) :
    KernelAllocator :=
  match (heap.region region).next with
  | some next =>
    (heap.setPrev next (heap.region region).prev).setNext region none
  | none => heap

/-- The second half, which passes on what is left of `next`. -/
def detachPrev (heap : KernelAllocator) (region : Nat) :
    KernelAllocator :=
  match (heap.region region).prev with
  | some prev =>
    (heap.setNext prev (heap.region region).next).setPrev region none
  | none =>
    { heap with
      nextCreatedRegion := (heap.region region).next }

def unlinkCreated (heap : KernelAllocator) (region : Nat) :
    KernelAllocator :=
  detachPrev (detachNext heap region) region

def unlinkFree (heap : KernelAllocator) (ptr : Nat) : KernelAllocator :=
  let heap :=
    match (heap.region ptr).prev with
    | some prev => heap.setNext prev (heap.region ptr).next
    | none =>
      { heap with nextFreeRegion := (heap.region ptr).next }
  match (heap.region ptr).next with
  | some next => heap.setPrev next (heap.region ptr).prev
  | none => heap

/-- The loop that joins a region with its free neighbours. -/
def joinFree (vregion vrsize : Nat) : Nat → KernelAllocator → Nat →
    Option Nat → Option (KernelAllocator × Nat)
  | _, heap, region, none => some (heap, region)
  | 0, _, _, some _ => none
  | depth + 1, heap, region, some ptr =>
    let (heap, region) :=
      if ptr + (heap.region ptr).nblocks * blockSize = vregion then
        (unlinkFree (heap.setNblocks ptr
          ((heap.region ptr).nblocks + (heap.region region).nblocks)) ptr, ptr)
      else if vregion + vrsize = ptr then
        (unlinkFree (heap.setNblocks region
          ((heap.region region).nblocks + (heap.region ptr).nblocks)) ptr, region)
      else (heap, region)
    joinFree vregion vrsize depth heap region (heap.region ptr).next

/-- `status_t`. -/
inductive Status where
  | ok
  | error
  | outOfMem
deriving DecidableEq, Repr

/-- Cut the first `required` blocks from the first free region. -/
def splitFirst (heap : KernelAllocator) (current required : Nat) :
    KernelAllocator :=
  let next := current + required * blockSize
  let heap :=
    match (heap.region current).next with
    | some second => heap.setPrev second none
    | none => heap
  let heap := { heap with nextFreeRegion := (heap.region current).next }
  let heap := heap.setRegion next
    { heap.region next with
      status := .free
      nblocks := (heap.region current).nblocks - required }
  heap.setRegion current
    { nblocks := required, status := .allocated, next := none, prev := none }

/-- The number of blocks is incremented as a 32-bit number. -/
def kernelRegionCreate (depth : Nat) (heap : KernelAllocator) (requiredNblocks : Nat) :
    Option (Status × Option Nat × KernelAllocator) :=
  let required := (requiredNblocks + 1) % 2 ^ 32
  match heap.nextFreeRegion with
  | none => some (.error, none, heap)
  | some current =>
    if required < (heap.region current).nblocks then
      (orderFree depth (splitFirst heap current required)
        (current + required * blockSize)).bind fun heap =>
      (addCreated depth heap current).map fun heap =>
        (.ok, some current, heap)
    else some (.outOfMem, none, heap)

def kernelRegionDestroy (depth : Nat) (heap : KernelAllocator)
    (region : Nat) : Option KernelAllocator :=
  let heap := unlinkCreated heap region
  match heap.nextFreeRegion with
  | none => some { heap with nextFreeRegion := some region }
  | some ptr =>
    (joinFree region ((heap.region region).nblocks * blockSize) depth
      heap region (some ptr)).bind fun (heap, region) =>
        orderFree depth heap region

/-- The area, or `NULL` when there is none. -/
def kernelMalloc (depth : Nat) (heap : KernelAllocator)
    (size : BitVec 32) : Option (Option Nat × KernelAllocator) :=
  if size = 0 then some (none, heap)
  else
    let nblocks := size.toNat / blockSize
    let nblocks := nblocks + (if size.toNat - nblocks * blockSize ≠ 0 then 1 else 0) + 1
    (kernelRegionCreate depth heap nblocks).map
      fun (_, region, heap) =>
        match region with
        | some region =>
          (some (region + blockSize), { heap with
            nblocks := heap.nblocks - (heap.region region).nblocks })
        | none => (none, heap)

def kernelFree (depth : Nat) (heap : KernelAllocator) (area : Nat) : Option KernelAllocator :=
  let region := area - blockSize
  let heap := heap.setStatus region .free
  let regionNblocks := (heap.region region).nblocks
  (kernelRegionDestroy depth heap region).map fun heap =>
    { heap with nblocks := heap.nblocks + regionNblocks }

inductive HeapCall where
  | malloc (size : BitVec 32)
  | free (area : Nat)

/-- The heap and the areas that clients have, in the order in which they got
them. -/
structure HeapState where
  allocator : KernelAllocator
  live : List Nat

/-- One call, where only a live area may be freed. -/
def heapStep (cfg : HeapConfig) (state : HeapState) : HeapCall → Option HeapState
  | .malloc size =>
    (kernelMalloc cfg.blocks state.allocator size).map
      fun (area, heap) =>
        { allocator := heap, live := state.live ++ area.toList }
  | .free area =>
    if area ∈ state.live then
      (kernelFree cfg.blocks state.allocator area).map fun heap =>
        { allocator := heap, live := state.live.erase area }
    else none

def heapRun (cfg : HeapConfig) (calls : List HeapCall) : Option HeapState :=
  calls.foldlM (heapStep cfg) ⟨memoryCreate cfg, []⟩

end Reverse.Dnaos
