import Reverse.Dnaos.HeapLists

/-!
# The free list of the kernel heap

What the loops over the free list do to a list of any length.  Joining takes
the free neighbours of a region out of the list wherever they are, and adds
their blocks up in the region that comes first in memory.  Ordering puts the
region before the first one that is not larger.
-/

namespace Reverse.Dnaos

open LinkedList List Option

namespace KernelAllocator

def next (heap : KernelAllocator) (ptr : Nat) : Option Nat :=
  (heap.region ptr).next

def prev (heap : KernelAllocator) (ptr : Nat) : Option Nat :=
  (heap.region ptr).prev

def blocks (heap : KernelAllocator) (ptr : Nat) : Nat :=
  (heap.region ptr).nblocks

/-- The free regions from the first to the last one, linked both ways. -/
def FreeList (heap : KernelAllocator) (regions : List Nat) : Prop :=
  Segment heap.next heap.prev none heap.nextFreeRegion regions none

section Fields

variable (heap : KernelAllocator) (ptr other : Nat)

@[simp] theorem next_setNext (next : Option Nat) :
    (heap.setNext ptr next).next other = if other = ptr then next else heap.next other :=
  field_setRegion heap ptr other Region.next _

@[simp] theorem prev_setNext (next : Option Nat) :
    (heap.setNext ptr next).prev other = heap.prev other :=
  field_setRegion_kept heap ptr other rfl

@[simp] theorem blocks_setNext (next : Option Nat) :
    (heap.setNext ptr next).blocks other = heap.blocks other :=
  field_setRegion_kept heap ptr other rfl

@[simp] theorem next_setPrev (prev : Option Nat) :
    (heap.setPrev ptr prev).next other = heap.next other :=
  field_setRegion_kept heap ptr other rfl

@[simp] theorem prev_setPrev (prev : Option Nat) :
    (heap.setPrev ptr prev).prev other = if other = ptr then prev else heap.prev other :=
  field_setRegion heap ptr other Region.prev _

@[simp] theorem blocks_setPrev (prev : Option Nat) :
    (heap.setPrev ptr prev).blocks other = heap.blocks other :=
  field_setRegion_kept heap ptr other rfl

@[simp] theorem next_setNblocks (nblocks : Nat) :
    (heap.setNblocks ptr nblocks).next other = heap.next other :=
  field_setRegion_kept heap ptr other rfl

@[simp] theorem prev_setNblocks (nblocks : Nat) :
    (heap.setNblocks ptr nblocks).prev other = heap.prev other :=
  field_setRegion_kept heap ptr other rfl

@[simp] theorem blocks_setNblocks (nblocks : Nat) :
    (heap.setNblocks ptr nblocks).blocks other =
      if other = ptr then nblocks else heap.blocks other :=
  field_setRegion heap ptr other Region.nblocks _

variable (first : Option Nat)

@[simp] theorem next_withFree :
    { heap with nextFreeRegion := first }.next other =
      heap.next other := rfl

@[simp] theorem prev_withFree :
    { heap with nextFreeRegion := first }.prev other =
      heap.prev other := rfl

@[simp] theorem blocks_withFree :
    { heap with nextFreeRegion := first }.blocks other =
      heap.blocks other := rfl

end Fields

end KernelAllocator

open KernelAllocator (blocks_setNblocks field_setRegion field_setRegion_kept next_setNext
  prev_setPrev)

/-- The pointer to a region is replaced by the one out of it. -/
def bypass (heap : KernelAllocator) (ptr : Nat) : KernelAllocator :=
  match heap.prev ptr with
  | some prev => heap.setNext prev (heap.next ptr)
  | none => { heap with nextFreeRegion := heap.next ptr }

theorem unlinkFree_eq (heap : KernelAllocator) (ptr : Nat) :
    unlinkFree heap ptr =
      match (bypass heap ptr).next ptr with
      | some next =>
        (bypass heap ptr).setPrev next ((bypass heap ptr).prev ptr)
      | none => bypass heap ptr := rfl

theorem bypass_fields (heap : KernelAllocator) (ptr : Nat) :
    (∀ node, (bypass heap ptr).next node =
        if heap.prev ptr = some node then heap.next ptr
        else heap.next node) ∧
      (∀ node, (bypass heap ptr).prev node = heap.prev node) ∧
      (∀ node, (bypass heap ptr).blocks node = heap.blocks node) ∧
      (bypass heap ptr).nextFreeRegion =
        if heap.prev ptr = none then heap.next ptr
        else heap.nextFreeRegion := by
  unfold bypass
  cases heap.prev ptr with
  | none => simp
  | some before =>
    refine ⟨fun node => ?_, by simp, by simp, rfl⟩
    simp only [next_setNext, some.injEq, @eq_comm _ before node]

theorem unlinkFree_fields (other : heap.prev ptr ≠ some ptr) :
    (∀ node, (unlinkFree heap ptr).next node =
        if heap.prev ptr = some node then heap.next ptr
        else heap.next node) ∧
      (∀ node, (unlinkFree heap ptr).prev node =
        if heap.next ptr = some node then heap.prev ptr
        else heap.prev node) ∧
      (∀ node, (unlinkFree heap ptr).blocks node = heap.blocks node) ∧
      (unlinkFree heap ptr).nextFreeRegion =
        if heap.prev ptr = none then heap.next ptr
        else heap.nextFreeRegion := by
  obtain ⟨next, prev, blocks, first⟩ := bypass_fields heap ptr
  have own : (bypass heap ptr).next ptr = heap.next ptr := by
    rw [next, if_neg other]
  rw [unlinkFree_eq, own, prev]
  cases isNext : heap.next ptr with
  | none =>
    rw [isNext] at next first
    exact ⟨next, by simpa using prev, blocks, first⟩
  | some behind =>
    rw [isNext] at next first
    refine ⟨by simpa using next, fun node => ?_, by simpa using blocks, first⟩
    simp only [prev_setPrev, prev, some.injEq, @eq_comm _ behind node]

/-- A region is taken out of the free list, and keeps its own links. -/
theorem KernelAllocator.FreeList.unlink (free : heap.FreeList (left ++ ptr :: right))
    (nodup : (left ++ ptr :: right).Nodup) :
    (unlinkFree heap ptr).FreeList (left ++ right) ∧
      (unlinkFree heap ptr).next ptr = right.head? ∧
      ∀ node, (unlinkFree heap ptr).blocks node = heap.blocks node := by
  obtain ⟨isPrev, isNext⟩ := Segment.links free
  have isFirst := Segment.ptr_eq free
  obtain ⟨_, rightNodup, apart⟩ := nodup_append.mp nodup
  have other : heap.prev ptr ≠ some ptr := by
    rw [isPrev]
    exact fun same => apart ptr (mem_of_getLast? same) ptr mem_cons_self rfl
  obtain ⟨next, prev, blocks, first⟩ := unlinkFree_fields other
  rw [isPrev, isNext] at next prev first
  refine ⟨?_, ?_, blocks⟩
  · have start : (unlinkFree heap ptr).nextFreeRegion = (left ++ right).head? := by
      rw [first, isFirst]
      cases left with
      | nil => rfl
      | cons node left =>
        rw [if_neg (by simp)]
        rfl
    rw [FreeList, start]
    refine Segment.remove free nodup ?_ ?_ ?_ ?_
    · intro node isLast
      rw [next, if_pos isLast]
    · intro node _ notLast
      rw [next, if_neg notLast]
    · intro node isHead
      rw [prev, if_pos isHead]
    · intro node _ notHead
      rw [prev, if_neg notHead]
  · rw [next, isNext, ite_self]

theorem KernelAllocator.FreeList.setNblocks {heap : KernelAllocator}
    (free : heap.FreeList regions) (ptr nblocks : Nat) :
    (heap.setNblocks ptr nblocks).FreeList regions :=
  Segment.congr free (fun _ _ => by simp) (fun _ _ => by simp)

/-- A region that ends where the other one starts. -/
def Before (heap : KernelAllocator) (vregion ptr : Nat) : Bool :=
  ptr + heap.blocks ptr * blockSize = vregion

/-- A region that touches neither end of another one. -/
def Apart (heap : KernelAllocator) (vregion vrsize ptr : Nat) : Bool :=
  !Before heap vregion ptr && vregion + vrsize != ptr

theorem filter_apart_congr {regions : List Nat}
    (same : ∀ region ∈ regions, later.blocks region = heap.blocks region) (vregion vrsize : Nat) :
    regions.filter (Before later vregion) = regions.filter (Before heap vregion) ∧
      regions.filter (Apart later vregion vrsize) =
        regions.filter (Apart heap vregion vrsize) ∧
      regions.filter (! Apart later vregion vrsize ·) =
        regions.filter (! Apart heap vregion vrsize ·) := by
  refine ⟨?_, ?_, ?_⟩
  all_goals
    apply filter_congr
    intro region member
    simp only [Apart, Before, same region member]

theorem map_blocks_congr {heap later : KernelAllocator} {regions : List Nat}
    (same : ∀ region ∈ regions, later.blocks region = heap.blocks region) :
    regions.map later.blocks = regions.map heap.blocks :=
  map_congr_left same

/-- What the loop does to the rest of the free list, behind the regions that
it has kept. -/
structure Joins (vregion vrsize : Nat) (heap : KernelAllocator)
    (region : Nat) (kept remaining : List Nat) (later : KernelAllocator)
    (joined : Nat) : Prop where
  start : joined =
    (remaining.filter (Before heap vregion)).getLast?.getD region
  free : later.FreeList
    (kept ++ remaining.filter (Apart heap vregion vrsize))
  blocks : later.blocks joined = heap.blocks region +
    ((remaining.filter (! Apart heap vregion vrsize ·)).map
      heap.blocks).sum
  others : ∀ ptr, ptr ≠ region →
    ptr ∉ remaining.filter (! Apart heap vregion vrsize ·) →
    later.blocks ptr = heap.blocks ptr

section Joins

variable {vregion vrsize : Nat} {heap middle later : KernelAllocator}
  {region ptr held joined : Nat} {kept remaining : List Nat}

/-- A region that touches the other one is joined with it into one of the
two. -/
theorem Joins.of_touching (joins : Joins vregion vrsize middle held kept remaining later joined)
    (touches : Apart heap vregion vrsize ptr = false)
    (start : ((ptr :: remaining).filter (Before heap vregion)).getLast?.getD region =
      (remaining.filter (Before heap vregion)).getLast?.getD held)
    (isHeld : held = region ∨ held = ptr)
    (outside : held ∉ remaining)
    (own : middle.blocks held = heap.blocks region + heap.blocks ptr)
    (others : ∀ other, other ≠ held → middle.blocks other = heap.blocks other) :
    Joins vregion vrsize heap region kept (ptr :: remaining) later
      joined := by
  obtain ⟨sameBefore, sameApart, sameRest⟩ := filter_apart_congr
    (fun other member => others other
      (ne_of_mem_of_not_mem member outside)) vregion vrsize
  obtain ⟨isStart, free, blocks, frame⟩ := joins
  rw [sameBefore] at isStart
  rw [sameApart] at free
  rw [sameRest] at blocks frame
  have removed : (ptr :: remaining).filter
      (! Apart heap vregion vrsize ·) =
      ptr :: remaining.filter (! Apart heap vregion vrsize ·) :=
    filter_cons_of_pos (by simp [touches])
  refine ⟨isStart.trans start.symm, ?_, ?_, ?_⟩
  · rw [filter_cons_of_neg (by simp [touches])]
    exact free
  · rw [removed, map_cons, sum_cons, blocks, own,
      map_blocks_congr fun other member => others other
        (ne_of_mem_of_not_mem (mem_of_mem_filter member) outside)]
    omega
  · intro other notRegion notRemoved
    rw [removed, mem_cons, not_or] at notRemoved
    have notHeld : other ≠ held := by
      rcases isHeld with rfl | rfl
      · exact notRegion
      · exact notRemoved.1
    rw [frame other notHeld notRemoved.2, others other notHeld]

theorem Joins.of_apart
    (joins : Joins vregion vrsize heap region (kept ++ [ptr]) remaining later joined)
    (apart : Apart heap vregion vrsize ptr = true) :
    Joins vregion vrsize heap region kept (ptr :: remaining) later
      joined := by
  have notBefore : Before heap vregion ptr = false := by
    simp only [Apart, Bool.and_eq_true, Bool.not_eq_true'] at apart
    exact apart.1
  have kept : (ptr :: remaining).filter
      (! Apart heap vregion vrsize ·) =
      remaining.filter (! Apart heap vregion vrsize ·) :=
    filter_cons_of_neg (by simp [apart])
  obtain ⟨start, free, blocks, frame⟩ := joins
  refine ⟨?_, ?_, by rw [kept, blocks], by rw [kept]; exact frame⟩
  · rw [filter_cons_of_neg (by simp [notBefore]), start]
  · rw [filter_cons_of_pos apart]
    rw [append_assoc] at free
    exact free

end Joins

theorem joinFree_some (vregion vrsize depth : Nat) (heap : KernelAllocator) (region ptr : Nat) :
    joinFree vregion vrsize (depth + 1) heap region (some ptr) =
      let step :=
        if ptr + heap.blocks ptr * blockSize = vregion then
          (unlinkFree (heap.setNblocks ptr
            (heap.blocks ptr + heap.blocks region)) ptr, ptr)
        else if vregion + vrsize = ptr then
          (unlinkFree (heap.setNblocks region
            (heap.blocks region + heap.blocks ptr)) ptr, region)
        else (heap, region)
      joinFree vregion vrsize depth step.1 step.2 (step.1.next ptr) := rfl

/-- The loop joins a region with the regions of the free list that touch it. -/
theorem joinFree_joins (vregion vrsize : Nat) (kept remaining : List Nat)
    (free : heap.FreeList (kept ++ remaining))
    (nodup : (kept ++ remaining).Nodup) (outside : region ∉ kept ++ remaining)
    (enough : remaining.length ≤ depth) :
    ∃ later joined,
      joinFree vregion vrsize depth heap region remaining.head? = some (later, joined) ∧
      Joins vregion vrsize heap region kept remaining later joined := by
  induction remaining generalizing heap region depth kept with
  | nil =>
    refine ⟨heap, region, ?_, rfl, free, rfl, fun _ _ _ => rfl⟩
    cases depth <;> rfl
  | cons ptr remaining ih =>
    cases depth with
    | zero => cases enough
    | succ depth =>
      have enough := Nat.le_of_succ_le_succ enough
      obtain ⟨notPtr, unlisted⟩ := nodup_cons.mp (nodup_middle.mp nodup)
      have notListed : region ∉ kept ++ remaining := fun member =>
        outside (perm_middle.symm.subset (mem_cons_of_mem _ member))
      have notRemaining : region ∉ remaining := fun member => notListed (mem_append_right _ member)
      have notBehind : ptr ∉ remaining := fun member => notPtr (mem_append_right _ member)
      rw [List.head?_cons, joinFree_some]
      by_cases before : Before heap vregion ptr = true
      · rw [if_pos (of_decide_eq_true before)]
        obtain ⟨shorter, isNext, blocks⟩ :=
          (free.setNblocks ptr (heap.blocks ptr + heap.blocks region)).unlink nodup
        obtain ⟨later, joined, result, joins⟩ := ih kept shorter unlisted notPtr enough
        refine ⟨later, joined, ?_, joins.of_touching (by simp [Apart, before])
          ?_ (.inr rfl) notBehind ?_ ?_⟩
        · rw [← result, ← isNext]
        · rw [filter_cons_of_pos before, List.getLast?_cons, getD_some]
        · rw [blocks, blocks_setNblocks, if_pos rfl, Nat.add_comm]
        · intro other notThis
          rw [blocks, blocks_setNblocks, if_neg notThis]
      · rw [Bool.not_eq_true] at before
        rw [if_neg (of_decide_eq_false before)]
        by_cases behind : vregion + vrsize = ptr
        · rw [if_pos behind]
          obtain ⟨shorter, isNext, blocks⟩ :=
            (free.setNblocks region (heap.blocks region + heap.blocks ptr)).unlink nodup
          obtain ⟨later, joined, result, joins⟩ := ih kept shorter unlisted notListed enough
          refine ⟨later, joined, ?_, joins.of_touching
            (by simp [Apart, behind]) ?_ (.inl rfl) notRemaining ?_ ?_⟩
          · rw [← result, ← isNext]
          · rw [filter_cons_of_neg (by simp [before])]
          · rw [blocks, blocks_setNblocks, if_pos rfl]
          · intro other notThis
            rw [blocks, blocks_setNblocks, if_neg notThis]
        · rw [if_neg behind]
          have longer : heap.FreeList (kept ++ [ptr] ++ remaining) := by
            rw [append_assoc]
            exact free
          obtain ⟨later, joined, result, joins⟩ := ih
            (kept ++ [ptr]) longer (by rw [append_assoc]; exact nodup)
            (by rw [append_assoc]; exact outside) enough
          refine ⟨later, joined, ?_, joins.of_apart ?_⟩
          · rw [← result, ← (Segment.links free).2]
          · simp [Apart, before, behind]

/-- The order of the free list. -/
def AtLeast (heap : KernelAllocator) (left right : Nat) : Prop :=
  heap.blocks right ≤ heap.blocks left

instance (heap : KernelAllocator) : DecidableRel (AtLeast heap) :=
  fun left right =>
    inferInstanceAs (Decidable (heap.blocks right ≤ heap.blocks left))

instance (heap : KernelAllocator) : Std.Total (AtLeast heap) :=
  ⟨fun left right =>
    Nat.le_total (heap.blocks right) (heap.blocks left)⟩

instance (heap : KernelAllocator) : IsTrans Nat (AtLeast heap) :=
  ⟨fun _ _ _ first second => Nat.le_trans second first⟩

/-- The loop stops at the first region that is not larger, or at the last
one. -/
theorem freePlace_eq (linked : Segment heap.next heap.prev before (some first)
      (first :: rest) none) (enough : rest.length < depth) :
    freePlace heap (heap.blocks region) depth first =
      ((first :: rest).dropWhile
        fun other => ¬ AtLeast heap region other).head?.or
        (first :: rest).getLast? := by
  induction rest generalizing first before depth with
  | nil =>
    cases depth with
    | zero => cases enough
    | succ depth =>
      have ends : (heap.region first).next = none := linked.2.2
      rw [freePlace, ends, dropWhile_cons]
      dsimp only
      split <;> rfl
  | cons second rest ih =>
    cases depth with
    | zero => cases enough
    | succ depth =>
      have isNext : (heap.region first).next = some second := linked.2.2.1
      have behind := linked.2.2
      rw [show heap.next first = some second from isNext] at behind
      rw [freePlace, isNext, dropWhile_cons]
      dsimp only
      change (if AtLeast heap region first then _ else _) = _
      by_cases atLeast : AtLeast heap region first
      · rw [if_pos atLeast, if_neg (by simpa using atLeast)]
        rfl
      · rw [if_neg atLeast, if_pos (by simpa using atLeast),
          ih behind (Nat.lt_of_succ_lt_succ enough),
          List.getLast?_cons_cons]

def linkBefore (heap : KernelAllocator) (region place : Nat) :
    KernelAllocator :=
  let prev := heap.prev place
  let heap := (heap.setPrev region prev).setNext region (some place)
  let heap :=
    match prev with
    | some prev => heap.setNext prev (some region)
    | none => { heap with nextFreeRegion := some region }
  heap.setPrev place (some region)

def linkBehind (heap : KernelAllocator) (region place : Nat) :
    KernelAllocator :=
  ((heap.setNext place (some region)).setPrev region (some place)).setNext region none

theorem orderFree_some (isFirst : heap.nextFreeRegion = some first) (depth region : Nat) :
    orderFree depth heap region =
      (freePlace heap (heap.blocks region) depth first).map
        fun place =>
          if AtLeast heap region place then
            linkBefore heap region place
          else linkBehind heap region place := by
  unfold orderFree
  rw [isFirst]
  rfl

/-- The sizes, the created list and the count of free blocks are as before. -/
structure SameSizes (heap later : KernelAllocator) : Prop where
  blocks : ∀ node, later.blocks node = heap.blocks node
  created : later.nextCreatedRegion = heap.nextCreatedRegion
  count : later.nblocks = heap.nblocks

theorem linkBefore_fields (heap : KernelAllocator) (region place : Nat) :
    (∀ node, (linkBefore heap region place).next node =
        if heap.prev place = some node then some region
        else if node = region then some place else heap.next node) ∧
      (∀ node, (linkBefore heap region place).prev node =
        if node = place then some region
        else if node = region then heap.prev place
        else heap.prev node) ∧
      (linkBefore heap region place).nextFreeRegion =
        (if heap.prev place = none then some region
        else heap.nextFreeRegion) ∧
      SameSizes heap (linkBefore heap region place) := by
  unfold linkBefore
  cases heap.prev place with
  | none =>
    exact ⟨fun node => by simp, fun node => by simp, rfl, fun node => by simp, rfl, rfl⟩
  | some before =>
    refine ⟨fun node => ?_, fun node => by simp, rfl, fun node => by simp, rfl, rfl⟩
    simp only [KernelAllocator.next_setPrev, next_setNext, some.injEq, @eq_comm _ before node]

/-- A region that was put into the free list. -/
structure Inserted (heap : KernelAllocator) (region : Nat)
    (left right : List Nat) (later : KernelAllocator) : Prop where
  free : later.FreeList (left ++ region :: right)
  sizes : SameSizes heap later
  others : ∀ node, node ≠ region → node ∉ left ++ right →
    later.next node = heap.next node ∧
      later.prev node = heap.prev node

section Inserted

variable {heap : KernelAllocator} {region place : Nat} {left right : List Nat}

theorem linkBefore_inserted (free : heap.FreeList (left ++ place :: right))
    (nodup : (left ++ place :: right).Nodup) (outside : region ∉ left ++ place :: right) :
    Inserted heap region left (place :: right) (linkBefore heap region place) := by
  obtain ⟨isPrev, -⟩ := Segment.links free
  obtain ⟨next, prev, first, sizes⟩ := linkBefore_fields heap region place
  rw [isPrev] at next prev first
  have notRegion : ∀ node ∈ left ++ place :: right, node ≠ region :=
    fun node member => ne_of_mem_of_not_mem member outside
  have notLast : left.getLast? ≠ some region := fun same =>
    outside (mem_append_left _ (mem_of_getLast? same))
  have notPlace : region ≠ place := (notRegion place (mem_append_right _ mem_cons_self)).symm
  refine ⟨?_, sizes, ?_⟩
  · have start : (linkBefore heap region place).nextFreeRegion =
        (left ++ region :: place :: right).head? := by
      rw [first, Segment.ptr_eq free]
      cases left with
      | nil => rfl
      | cons node left =>
        rw [if_neg (by simp)]
        rfl
    rw [KernelAllocator.FreeList, start]
    refine Segment.insert free nodup ?_ ?_ ?_ ?_ ?_ ?_
    · rw [next, if_neg notLast, if_pos rfl]
      rfl
    · rw [prev, if_neg notPlace, if_pos rfl]
    · intro node isLast
      rw [next, if_pos isLast]
    · intro node member notTheLast
      rw [next, if_neg notTheLast, if_neg (notRegion node member)]
    · intro node isHead
      rw [prev, if_pos (some.inj isHead).symm]
    · intro node member notHead
      have notThePlace : node ≠ place := fun same => notHead (same ▸ rfl)
      rw [prev, if_neg notThePlace, if_neg (notRegion node member)]
  · intro node notThis notListed
    have notTheLast : left.getLast? ≠ some node := fun same =>
      notListed (mem_append_left _ (mem_of_getLast? same))
    have notThePlace : node ≠ place := fun same =>
      notListed (mem_append_right _ (same ▸ mem_cons_self))
    rw [next, if_neg notTheLast, if_neg notThis, prev, if_neg notThePlace, if_neg notThis]
    exact ⟨rfl, rfl⟩

theorem linkBehind_inserted (free : heap.FreeList (left ++ [place]))
    (nodup : (left ++ [place]).Nodup) (outside : region ∉ left ++ [place]) :
    Inserted heap region (left ++ [place]) [] (linkBehind heap region place) := by
  have notRegion : ∀ node ∈ left ++ [place], node ≠ region :=
    fun node member => ne_of_mem_of_not_mem member outside
  have next : ∀ node, (linkBehind heap region place).next node =
      if node = region then none
      else if node = place then some region else heap.next node :=
    fun node => by simp [linkBehind]
  have prev : ∀ node, (linkBehind heap region place).prev node =
      if node = region then some place else heap.prev node :=
    fun node => by simp [linkBehind]
  refine ⟨?_, ⟨fun node => by simp [linkBehind], rfl, rfl⟩, ?_⟩
  · have start : (linkBehind heap region place).nextFreeRegion =
        ((left ++ [place]) ++ [region]).head? := by
      change heap.nextFreeRegion = _
      rw [Segment.ptr_eq free]
      cases left <;> rfl
    rw [KernelAllocator.FreeList, start]
    rw [← append_nil (left ++ [place])] at free nodup
    refine Segment.insert free nodup ?_ ?_ ?_ ?_ nofun ?_
    · rw [next, if_pos rfl]
      rfl
    · rw [prev, if_pos rfl, List.getLast?_concat]
    · intro node isLast
      rw [List.getLast?_concat] at isLast
      cases isLast
      rw [next, if_neg (notRegion _ (mem_append_right _ mem_cons_self)), if_pos rfl]
    · intro node member notLast
      rw [append_nil] at member
      rw [List.getLast?_concat] at notLast
      have notThePlace : node ≠ place := fun same => notLast (same ▸ rfl)
      rw [next, if_neg (notRegion node member), if_neg notThePlace]
    · intro node member _
      rw [append_nil] at member
      rw [prev, if_neg (notRegion node member)]
  · intro node notThis notListed
    rw [append_nil] at notListed
    have notThePlace : node ≠ place := fun same =>
      notListed (mem_append_right _ (same ▸ mem_cons_self))
    rw [next, if_neg notThis, if_neg notThePlace, prev, if_neg notThis]
    exact ⟨rfl, rfl⟩

/-- A region is put before the first one that is not larger. -/
theorem orderFree_inserted (free : heap.FreeList regions)
    (nodup : regions.Nodup) (outside : region ∉ regions) (enough : regions.length ≤ depth) :
    ∃ later, orderFree depth heap region = some later ∧
      ∃ left right, left ++ right = regions ∧
        left ++ region :: right = regions.orderedInsert (AtLeast heap) region ∧
        Inserted heap region left right later := by
  cases regions with
  | nil =>
    have empty : heap.nextFreeRegion = none := free
    unfold orderFree
    rw [empty]
    refine ⟨_, rfl, [], [], rfl, rfl, ⟨rfl, ?_, ?_⟩, ?_, ?_⟩
    · simp
    · simp
      rfl
    · exact ⟨fun node => by simp, rfl, rfl⟩
    · intro node notThis _
      simp [notThis]
  | cons first rest =>
    have isFirst : heap.nextFreeRegion = some first := free.1
    have linked := free
    rw [KernelAllocator.FreeList, isFirst] at linked
    rw [orderFree_some isFirst, freePlace_eq linked enough]
    rw [orderedInsert_eq_take_drop]
    have whole := takeWhile_append_dropWhile
      (p := fun other => decide ¬ AtLeast heap region other)
      (l := first :: rest)
    cases rightIs : (first :: rest).dropWhile
        fun other => decide ¬ AtLeast heap region other with
    | nil =>
      rw [rightIs, append_nil] at whole
      have larger := dropWhile_eq_nil_iff.mp rightIs
      obtain ⟨before, last, isConcat⟩ := (eq_nil_or_concat (first :: rest)).resolve_left nofun
      rw [concat_eq_append] at isConcat
      rw [whole]
      rw [isConcat] at free nodup outside larger ⊢
      rw [List.getLast?_concat]
      have notAtLeast := of_decide_eq_true (larger last (mem_append_right _ mem_cons_self))
      refine ⟨_, rfl, before ++ [last], [], append_nil _, rfl, ?_⟩
      dsimp only
      rw [if_neg notAtLeast]
      exact linkBehind_inserted free nodup outside
    | cons place behind =>
      rw [rightIs] at whole
      have notLarger := List.head?_dropWhile_not
        (fun other => decide ¬ AtLeast heap region other)
        (first :: rest)
      rw [rightIs] at notLarger
      have atLeast : AtLeast heap region place := by
        simpa using notLarger
      rw [← whole] at free nodup outside
      refine ⟨_, rfl, _, place :: behind, whole, rfl, ?_⟩
      dsimp only
      rw [if_pos atLeast]
      exact linkBefore_inserted free nodup outside

end Inserted

/-- The second free region becomes the first one. -/
def dropFirst (heap : KernelAllocator) (current : Nat) :
    KernelAllocator :=
  let dropped :=
    match heap.next current with
    | some second => heap.setPrev second none
    | none => heap
  { dropped with nextFreeRegion := dropped.next current }

theorem splitFirst_eq (heap : KernelAllocator) (current required : Nat) :
    splitFirst heap current required =
      ((dropFirst heap current).setRegion (current + required * blockSize)
        { (dropFirst heap current).region (current + required * blockSize) with
          status := .free
          nblocks := (dropFirst heap current).blocks current - required }).setRegion current
        ⟨required, .allocated, none, none⟩ := rfl

theorem dropFirst_fields (heap : KernelAllocator) (current : Nat) :
    (∀ node, (dropFirst heap current).next node = heap.next node) ∧
      (∀ node, (dropFirst heap current).prev node =
        if heap.next current = some node then none
        else heap.prev node) ∧
      (dropFirst heap current).nextFreeRegion = heap.next current ∧
      SameSizes heap (dropFirst heap current) := by
  unfold dropFirst
  cases isNext : heap.next current with
  | none =>
    exact ⟨fun _ => rfl, fun node => by simp, isNext, fun _ => rfl, rfl, rfl⟩
  | some second =>
    refine ⟨fun node => by simp, fun node => ?_, by simpa using isNext,
      fun node => by simp, rfl, rfl⟩
    simp only [KernelAllocator.prev_withFree, prev_setPrev, some.injEq, @eq_comm _ second node]

theorem splitFirst_fields (heap : KernelAllocator) (current required : Nat) :
    (∀ node, (splitFirst heap current required).next node =
        if node = current then none else heap.next node) ∧
      (∀ node, (splitFirst heap current required).prev node =
        if node = current then none
        else if heap.next current = some node then none
        else heap.prev node) ∧
      ∀ node, (splitFirst heap current required).blocks node =
        if node = current then required
        else if node = current + required * blockSize then
          heap.blocks current - required
        else heap.blocks node := by
  obtain ⟨next, prev, -, sizes⟩ := dropFirst_fields heap current
  rw [splitFirst_eq]
  refine ⟨fun node => ?_, fun node => ?_, fun node => ?_⟩
  · apply (field_setRegion _ _ _ Region.next _).trans
    refine congrArg (ite (node = current) _) (Eq.trans ?_ (next node))
    exact @field_setRegion_kept _ _ _ _ Region.next _ rfl
  · apply (field_setRegion _ _ _ Region.prev _).trans
    refine congrArg (ite (node = current) _) (Eq.trans ?_ (prev node))
    exact @field_setRegion_kept _ _ _ _ Region.prev _ rfl
  · apply (field_setRegion _ _ _ Region.nblocks _).trans
    rw [field_setRegion _ _ _ Region.nblocks]
    rw [← sizes.blocks current, ← sizes.blocks node]
    rfl

/-- The rest of the free list after its first region was split. -/
theorem splitFirst_free (required : Nat) (free : heap.FreeList (current :: rest))
    (nodup : (current :: rest).Nodup) :
    (splitFirst heap current required).FreeList rest ∧
      (splitFirst heap current required).nextCreatedRegion = heap.nextCreatedRegion ∧
      (splitFirst heap current required).nblocks = heap.nblocks ∧
      ∀ node, node ≠ current → node ∉ rest →
        (splitFirst heap current required).next node = heap.next node ∧
          (splitFirst heap current required).prev node = heap.prev node := by
  obtain ⟨next, prev, -⟩ := splitFirst_fields heap current required
  obtain ⟨-, -, first, sizes⟩ := dropFirst_fields heap current
  obtain ⟨notCurrent, restNodup⟩ := nodup_cons.mp nodup
  have isNext : heap.next current = rest.head? := by
    rw [← nil_append (current :: rest)] at free
    exact (Segment.links free).2
  refine ⟨?_, sizes.created, sizes.count, ?_⟩
  · have start : (splitFirst heap current required).nextFreeRegion = heap.next current := first
    rw [KernelAllocator.FreeList, start]
    refine Segment.rehead free.2.2 restNodup ?_ ?_ ?_
    · intro node member
      rw [next, if_neg (ne_of_mem_of_not_mem member notCurrent)]
    · intro node isHead
      have member := mem_of_head? isHead
      rw [prev, if_neg (ne_of_mem_of_not_mem member notCurrent), isNext, if_pos isHead]
    · intro node member notHead
      rw [prev, if_neg (ne_of_mem_of_not_mem member notCurrent), isNext, if_neg notHead]
  · intro node notThis notListed
    have notHead : heap.next current ≠ some node := by
      rw [isNext]
      exact fun isHead => notListed (mem_of_head? isHead)
    rw [next, if_neg notThis, prev, if_neg notThis, if_neg notHead]
    exact ⟨rfl, rfl⟩

end Reverse.Dnaos
