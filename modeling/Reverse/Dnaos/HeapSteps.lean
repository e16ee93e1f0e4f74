import Reverse.Dnaos.FreeList
import Reverse.Dnaos.HeapRuns

/-!
# Steps of the kernel heap

What one operation does to a heap whose regions are in any order: the free
regions are sorted by their size, not by their address, and the created ones
by their age.  The free list stays correct in every step except for the one
that wraps the number of blocks around.
-/

namespace Reverse.Dnaos

open LinkedList List Option

def totalBlocks (heap : KernelAllocator) (regions : List Nat) : Nat :=
  (regions.map heap.blocks).sum

section Total

variable {heap later : KernelAllocator}

theorem totalBlocks_congr (same : ∀ node ∈ regions, later.blocks node = heap.blocks node) :
    totalBlocks later regions = totalBlocks heap regions :=
  congrArg List.sum (map_blocks_congr same)

theorem totalBlocks_perm (sameRegions : left.Perm right) :
    totalBlocks heap left = totalBlocks heap right :=
  (sameRegions.map _).sum_nat

theorem totalBlocks_cons (region : Nat) (regions : List Nat) :
    totalBlocks heap (region :: regions) =
      heap.blocks region + totalBlocks heap regions := by
  rw [totalBlocks, map_cons, sum_cons]
  rfl

theorem totalBlocks_append (left right : List Nat) :
    totalBlocks heap (left ++ right) =
      totalBlocks heap left + totalBlocks heap right := by
  rw [totalBlocks, map_append, sum_append]
  rfl

theorem totalBlocks_singleton (region : Nat) :
    totalBlocks heap [region] = heap.blocks region :=
  Nat.add_zero _

end Total

section Tiles

variable {heap later : KernelAllocator} {start stop : Nat} {left middle right : List Nat}

theorem Tiles.positive (tiles : Tiles heap start regions stop)
    (member : region ∈ regions) : 0 < heap.blocks region := by
  obtain ⟨left, right, rfl⟩ := append_of_mem member
  obtain ⟨_, -, isHere⟩ := Tiles.append.mp tiles
  exact isHere.2.1

theorem Tiles.replace (tiles : Tiles heap start (left ++ middle ++ right) stop)
    (replaced : ∀ here there, Tiles heap here middle there →
      Tiles later here middle' there) (same : ∀ region ∈ left ++ right,
      later.blocks region = heap.blocks region) :
    Tiles later start (left ++ middle' ++ right) stop := by
  obtain ⟨there, isFront, isRight⟩ := Tiles.append.mp tiles
  obtain ⟨here, isLeft, isMiddle⟩ := Tiles.append.mp isFront
  refine Tiles.append.mpr ⟨there, Tiles.append.mpr ⟨here, ?_, replaced here there isMiddle⟩, ?_⟩
  · exact isLeft.congr fun region member =>
      same region (mem_append_left _ member)
  · exact isRight.congr fun region member =>
      same region (mem_append_right _ member)

section

variable (tiles : Tiles heap start regions stop)

include tiles

theorem Tiles.total : start + totalBlocks heap regions * blockSize = stop := by
  induction regions generalizing start with
  | nil =>
    cases tiles
    exact Nat.add_eq_left.mpr (Nat.zero_mul _)
  | cons region regions ih =>
    obtain ⟨-, -, rest⟩ := tiles
    rw [totalBlocks_cons, Nat.add_mul, ← Nat.add_assoc]
    exact ih rest

theorem Tiles.join (isFirst : regions.head? = some joined)
    (blocks : later.blocks joined = totalBlocks heap regions) :
    Tiles later start [joined] stop := by
  have total := tiles.total
  obtain ⟨rest, rfl⟩ := List.head?_eq_some_iff.mp isFirst
  obtain ⟨isStart, positive, -⟩ := tiles
  rw [← blocks] at total
  refine ⟨isStart, ?_, total⟩
  apply Nat.lt_of_lt_of_eq _ blocks.symm
  rw [totalBlocks_cons]
  exact Nat.add_pos_left positive _

theorem Tiles.disjoint (isRegion : region ∈ regions)
    (isOther : other ∈ regions) (differ : region ≠ other) :
    region + heap.blocks region * blockSize ≤ other ∨
      other + heap.blocks other * blockSize ≤ region := by
  obtain ⟨left, right, rfl⟩ := append_of_mem isRegion
  obtain ⟨middle, isLeft, isHere, -, isRight⟩ := Tiles.append.mp tiles
  rcases mem_append.mp isOther with inLeft | inRest
  · right
    rw [isHere]
    exact (isLeft.bounds.1 other inLeft).2.1
  · rcases mem_cons.mp inRest with same | inRight
    · exact absurd same.symm differ
    · left
      have above := (isRight.bounds.1 other inRight).1
      rw [← isHere] at above
      exact above

end

theorem Tiles.eq_nil (tiles : Tiles heap start regions start) : regions = [] := by
  have room := tiles.bounds.2
  unfold blockSize at room
  exact eq_nil_of_length_eq_zero (by omega)

section

variable (tiles : Tiles heap start (left ++ region :: right) stop)
  (member : node ∈ left ++ region :: right)

include tiles member

theorem Tiles.before (ends : node + heap.blocks node * blockSize = region)
    : left.getLast? = some node := by
  have positive := tiles.positive member
  obtain ⟨here, isLeft, rfl, -, isRight⟩ := Tiles.append.mp tiles
  unfold blockSize at ends
  rcases mem_append.mp member with inLeft | inRest
  · obtain ⟨early, late, rfl⟩ := append_of_mem inLeft
    obtain ⟨_, -, rfl, -, isLate⟩ := Tiles.append.mp isLeft
    rw [show node + (heap.region node).nblocks * blockSize = region from ends] at isLate
    rw [isLate.eq_nil, List.getLast?_concat]
  · rcases mem_cons.mp inRest with same | inRight
    · omega
    · have above := (isRight.bounds.1 node inRight).1
      omega

theorem Tiles.behind (starts : region + heap.blocks region * blockSize = node) :
    right.head? = some node := by
  have positive := tiles.positive (mem_append_right left (mem_cons_self (a := region)))
  obtain ⟨here, isLeft, rfl, -, isRight⟩ := Tiles.append.mp tiles
  rw [show region + (heap.region region).nblocks * blockSize = node from starts] at isRight
  unfold blockSize at starts
  rcases mem_append.mp member with inLeft | inRest
  · have below := (isLeft.bounds.1 node inLeft).2.2
    omega
  · rcases mem_cons.mp inRest with same | inRight
    · omega
    · obtain ⟨early, late, rfl⟩ := append_of_mem inRight
      obtain ⟨_, isEarly, rfl, -⟩ := Tiles.append.mp isRight
      rw [isEarly.eq_nil]
      rfl

end

end Tiles

/-- The free and the allocated regions tile the heap, no two free ones touch,
and the free list has all of them in the order of their size. -/
structure FreeListCorrect (cfg : HeapConfig) (heap : KernelAllocator)
    (free allocated : List Nat) : Prop where
  tiles : ∃ order, order.Perm (free ++ allocated) ∧
    Tiles heap cfg.address order
      (cfg.address + cfg.blocks * blockSize)
  apart : ∀ left ∈ free, ∀ right ∈ free,
    left + heap.blocks left * blockSize ≠ right
  linked : heap.FreeList free
  sorted : free.Pairwise (AtLeast heap)

/-- A heap with a doubly linked list of created regions, too. -/
structure WellFormed (cfg : HeapConfig) (heap : KernelAllocator)
    (free created : List Nat) : Prop
    extends FreeListCorrect cfg heap free created where
  createdList :
    DoublyLinked heap none heap.nextCreatedRegion created

section Heaps

variable {cfg : HeapConfig} {heap later : KernelAllocator}
  {free allocated created : List Nat}

section

variable (correct : FreeListCorrect cfg heap free allocated)

include correct

theorem FreeListCorrect.nodup : (free ++ allocated).Nodup := by
  obtain ⟨order, sameRegions, tiles⟩ := correct.tiles
  exact sameRegions.nodup_iff.mp tiles.nodup

theorem FreeListCorrect.length_le : free.length + allocated.length ≤ cfg.blocks := by
  obtain ⟨order, sameRegions, tiles⟩ := correct.tiles
  have room := tiles.bounds.2
  rw [sameRegions.length_eq, length_append] at room
  exact Nat.le_of_mul_le_mul_right (Nat.le_of_add_le_add_left room) (by decide)

theorem FreeListCorrect.positive (member : region ∈ free ++ allocated) :
    0 < heap.blocks region := by
  obtain ⟨order, sameRegions, tiles⟩ := correct.tiles
  exact tiles.positive (sameRegions.mem_iff.mpr member)

theorem FreeListCorrect.disjoint (isRegion : region ∈ free ++ allocated)
    (isOther : other ∈ free ++ allocated) (differ : region ≠ other) :
    region + heap.blocks region * blockSize ≤ other ∨
      other + heap.blocks other * blockSize ≤ region := by
  obtain ⟨order, sameRegions, tiles⟩ := correct.tiles
  exact tiles.disjoint (sameRegions.mem_iff.mpr isRegion) (sameRegions.mem_iff.mpr isOther) differ

end

theorem pairwise_atLeast_congr {regions : List Nat} (sorted : regions.Pairwise (AtLeast heap))
    (same : ∀ node ∈ regions, later.blocks node = heap.blocks node) :
    regions.Pairwise (AtLeast later) := by
  apply sorted.imp_of_mem
  intro left right isLeft isRight atLeast
  unfold AtLeast
  rw [same left isLeft, same right isRight]
  exact atLeast

theorem tiles_split (tiles : Tiles heap here [current] there)
    (positive : 0 < required) (less : required < heap.blocks current)
    (isCurrent : later.blocks current = required)
    (isNext : later.blocks (current + required * blockSize) = heap.blocks current - required) :
    Tiles later here [current, current + required * blockSize] there := by
  obtain ⟨rfl, -, ends⟩ := tiles
  have ends : current + heap.blocks current * blockSize = there := ends
  refine ⟨rfl, positive.trans_eq isCurrent.symm, ?_, ?_, ?_⟩
  · exact congrArg (current + · * blockSize) isCurrent.symm
  · exact (Nat.sub_pos_of_lt less).trans_eq isNext.symm
  · change current + later.blocks current * blockSize +
      later.blocks (current + required * blockSize) * blockSize = there
    rw [isCurrent, isNext]
    unfold blockSize at *
    omega

theorem FreeListCorrect.second_not_mem
    (correct : FreeListCorrect cfg heap (current :: rest) allocated)
    (less : required < heap.blocks current) :
    current + required * blockSize ∉ rest ++ allocated := by
  intro member
  have notCurrent := (nodup_cons.mp correct.nodup).1
  have disjoint := correct.disjoint (mem_cons_of_mem _ member)
    mem_cons_self (ne_of_mem_of_not_mem member notCurrent)
  have size := correct.positive (mem_cons_of_mem _ member)
  unfold blockSize at *
  omega

theorem FreeListCorrect.split (correct : FreeListCorrect cfg heap (current :: rest) allocated)
    (positive : 0 < required) (less : required < heap.blocks current)
    (sameFree : free'.Perm ((current + required * blockSize) :: rest))
    (blocks : ∀ node, later.blocks node =
      if node = current then required
      else if node = current + required * blockSize then
        heap.blocks current - required
      else heap.blocks node) (linked : later.FreeList free')
    (sorted : free'.Pairwise (AtLeast later)) :
    FreeListCorrect cfg later free' (allocated ++ [current]) := by
  have notCurrent : current ∉ rest ++ allocated := (nodup_cons.mp correct.nodup).1
  have outside : ∀ node ∈ rest ++ allocated,
      node + heap.blocks node * blockSize ≤ current ∨
        current + heap.blocks current * blockSize ≤ node :=
    fun node member => correct.disjoint (mem_cons_of_mem _ member)
      mem_cons_self (ne_of_mem_of_not_mem member notCurrent)
  have notNext := correct.second_not_mem less
  have kept : ∀ node ∈ rest ++ allocated, later.blocks node = heap.blocks node := by
    intro node member
    rw [blocks, if_neg (ne_of_mem_of_not_mem member notCurrent),
      if_neg (ne_of_mem_of_not_mem member notNext)]
  have isCurrent : later.blocks current = required := by
    rw [blocks, if_pos rfl]
  have isNext : later.blocks (current + required * blockSize) =
      heap.blocks current - required := by
    rw [blocks, if_neg (by unfold blockSize; omega), if_pos rfl]
  refine ⟨?_, ?_, linked, sorted⟩
  · obtain ⟨order, sameRegions, tiles⟩ := correct.tiles
    obtain ⟨left, right, rfl⟩ := append_of_mem (sameRegions.mem_iff.mpr mem_cons_self)
    have others : (left ++ right).Perm (rest ++ allocated) :=
      List.Perm.cons_inv (perm_middle.symm.trans sameRegions)
    refine ⟨left ++ [current, current + required * blockSize] ++ right, ?_, ?_⟩
    · apply perm_iff_count.mpr
      intro node
      have isFree := sameFree.count_eq node
      have isOther := others.count_eq node
      simp only [count_append, count_cons, count_nil] at isFree isOther ⊢
      omega
    · rw [append_cons left] at tiles
      exact tiles.replace
        (fun _ _ isHere => tiles_split isHere positive less isCurrent isNext)
        fun node member => kept node (others.mem_iff.mp member)
  · intro node isNode other isOther
    have inRest : ∀ node ∈ rest, node ∈ rest ++ allocated :=
      fun _ member => mem_append_left _ member
    rcases mem_cons.mp (sameFree.mem_iff.mp isNode) with rfl | isNode
    · rcases mem_cons.mp (sameFree.mem_iff.mp isOther) with
        rfl | isOther
      · rw [isNext]
        unfold blockSize
        omega
      · rw [isNext]
        have apart := correct.apart current mem_cons_self other (mem_cons_of_mem _ isOther)
        unfold blockSize at *
        omega
    · rw [kept node (inRest node isNode)]
      rcases mem_cons.mp (sameFree.mem_iff.mp isOther) with
        rfl | isOther
      · have disjoint := outside node (inRest node isNode)
        have size := correct.positive (mem_cons_of_mem _ (inRest node isNode))
        unfold blockSize at *
        omega
      · exact correct.apart node (mem_cons_of_mem _ isNode) other (mem_cons_of_mem _ isOther)

theorem addCreated_same (result : addCreated depth heap region = some later) :
    (∀ node, later.blocks node = heap.blocks node) ∧ later.nblocks = heap.nblocks := by
  unfold addCreated at result
  cases isFirst : heap.nextCreatedRegion with
  | none =>
    rw [isFirst] at result
    cases result
    exact ⟨fun _ => rfl, rfl⟩
  | some first =>
    rw [isFirst] at result
    obtain ⟨last, -, rfl⟩ := map_eq_some_iff.mp result
    exact ⟨fun node => by simp, rfl⟩

/-- The first free region is split, and its first part is created. -/
theorem WellFormed.splits (wellFormed : WellFormed cfg heap (current :: rest) created)
    (positive : 0 < required) (less : required < heap.blocks current) :
    ∃ later free',
      (orderFree cfg.blocks (splitFirst heap current required)
        (current + required * blockSize)).bind (addCreated cfg.blocks · current) = some later ∧
      FreeListCorrect cfg later free' (created ++ [current]) ∧
      later.nblocks = heap.nblocks ∧
      totalBlocks later free' + totalBlocks later [current] =
        totalBlocks heap (current :: rest) := by
  have correct := wellFormed.toFreeListCorrect
  have enough := correct.length_le
  rw [length_cons] at enough
  obtain ⟨nodupFree, nodupCreated, unlisted⟩ := nodup_append.mp correct.nodup
  have notCurrent := (nodup_cons.mp correct.nodup).1
  have notNext := correct.second_not_mem less
  have differ : current + required * blockSize ≠ current := by
    unfold blockSize
    omega
  obtain ⟨-, nodupRest⟩ := nodup_cons.mp nodupFree
  obtain ⟨linked, sameCreated, sameCount, sameLinks⟩ :=
    splitFirst_free required correct.linked nodupFree
  obtain ⟨next, prev, blocks⟩ := splitFirst_fields heap current required
  obtain ⟨ordered, isOrdered, left, right, parts, isInserted, inserted⟩ :=
    orderFree_inserted linked nodupRest
      (fun member => notNext (mem_append_left _ member))
      (show rest.length ≤ cfg.blocks by omega)
  have elsewhere : ∀ node ∈ created ++ [current],
      node ≠ current + required * blockSize ∧ node ∉ left ++ right := by
    intro node member
    rw [parts]
    rcases mem_append.mp member with isCreated | isCurrent
    · refine ⟨ne_of_mem_of_not_mem (mem_append_right _ isCreated) notNext, fun isFree => ?_⟩
      exact unlisted node (mem_cons_of_mem _ isFree) node isCreated rfl
    · cases mem_singleton.mp isCurrent
      exact ⟨differ.symm, fun isFree => notCurrent (mem_append_left _ isFree)⟩
  have createdList : DoublyLinked ordered none ordered.nextCreatedRegion
      created := by
    rw [inserted.sizes.created, sameCreated]
    apply wellFormed.createdList.congr
    intro node member
    obtain ⟨notSecond, notFree⟩ :=
      elsewhere node (mem_append_left _ member)
    have orderedLinks := inserted.others node notSecond notFree
    rw [parts] at notFree
    have splitLinks := sameLinks node
      (ne_of_mem_of_not_mem (mem_append_right _ member) notCurrent)
      notFree
    exact ⟨orderedLinks.1.trans splitLinks.1, orderedLinks.2.trans splitLinks.2⟩
  have alone : ordered.next current = none ∧ ordered.prev current = none := by
    obtain ⟨notSecond, notFree⟩ := elsewhere current (mem_append_right _ mem_cons_self)
    obtain ⟨sameNext, samePrev⟩ := inserted.others current notSecond notFree
    rw [sameNext, samePrev, next, prev, if_pos rfl, if_pos rfl]
    exact ⟨rfl, rfl⟩
  obtain ⟨later, isLater, sameBlocks, -, frame⟩ :=
    addCreated_spec createdList nodupCreated
      (fun member => notCurrent (mem_append_right _ member)) alone
      (show created.length ≤ cfg.blocks by omega)
  have laterBlocks : ∀ node, later.blocks node =
      (splitFirst heap current required).blocks node :=
    fun node => (sameBlocks.nblocks node).trans (inserted.sizes.blocks node)
  have sameFree : (left ++ (current + required * blockSize) :: right).Perm
      ((current + required * blockSize) :: rest) := by
    rw [isInserted]
    exact perm_orderedInsert ..
  have laterFree : later.FreeList (left ++ (current + required * blockSize) :: right) := by
    rw [KernelAllocator.FreeList, sameBlocks.free]
    have sameRegion : ∀ node ∈ left ++ (current + required * blockSize) ::
        right, later.region node = ordered.region node := by
      intro node member
      apply frame
      intro isListed
      obtain ⟨notSecond, notFree⟩ := elsewhere node isListed
      rcases mem_cons.mp (perm_middle.subset member) with
        same | isFree
      · exact notSecond same
      · exact notFree isFree
    exact Segment.congr inserted.free
      (fun node member => congrArg Region.next (sameRegion node member))
      (fun node member => congrArg Region.prev (sameRegion node member))
  have restBlocks : ∀ node ∈ rest, later.blocks node = heap.blocks node := by
    intro node member
    rw [laterBlocks, blocks,
      if_neg (ne_of_mem_of_not_mem (mem_append_left _ member) notCurrent),
      if_neg (ne_of_mem_of_not_mem (mem_append_left _ member) notNext)]
  refine ⟨later, left ++ (current + required * blockSize) :: right, ?_, ?_, ?_, ?_⟩
  · rw [isOrdered]
    exact isLater
  · refine correct.split positive less sameFree ?_ laterFree ?_
    · exact fun node => (laterBlocks node).trans (blocks node)
    · rw [isInserted]
      refine pairwise_atLeast_congr (List.Pairwise.orderedInsert _ _ ?_)
        (fun node _ => laterBlocks node)
      refine pairwise_atLeast_congr (List.Pairwise.of_cons correct.sorted) ?_
      exact fun node member =>
        (laterBlocks node).symm.trans (restBlocks node member)
  · rw [(addCreated_same isLater).2, inserted.sizes.count, sameCount]
  · rw [totalBlocks_singleton, totalBlocks_perm sameFree, totalBlocks_cons,
      totalBlocks_cons, totalBlocks_congr restBlocks, laterBlocks,
      laterBlocks, blocks, blocks, if_neg differ, if_pos rfl, if_pos rfl]
    omega

/-- A creation that does not wrap around fails and changes nothing, or splits
the first free region. -/
theorem WellFormed.create (wellFormed : WellFormed cfg heap free created)
    (bounded : requiredNblocks + 1 < 2 ^ 32) :
    ∃ status region later free',
      kernelRegionCreate cfg.blocks heap requiredNblocks = some (status, region, later) ∧
      FreeListCorrect cfg later free' (created ++ region.toList) ∧
      later.nblocks = heap.nblocks ∧
      totalBlocks later free' + totalBlocks later region.toList = totalBlocks heap free := by
  unfold kernelRegionCreate
  rw [Nat.mod_eq_of_lt bounded]
  have correct := wellFormed.toFreeListCorrect
  cases free with
  | nil =>
    rw [show heap.nextFreeRegion = none from correct.linked]
    refine ⟨_, none, heap, [], rfl, ?_, rfl, rfl⟩
    rw [toList_none, append_nil]
    exact correct
  | cons current rest =>
    have isFirst : heap.nextFreeRegion = some current := correct.linked.1
    rw [isFirst]
    dsimp only
    by_cases less : requiredNblocks + 1 < (heap.region current).nblocks
    · rw [if_pos less]
      obtain ⟨later, free', isLater, step⟩ := wellFormed.splits (Nat.succ_pos _) less
      refine ⟨.ok, some current, later, free', ?_, step⟩
      exact Option.map_bind.symm.trans (congrArg (Option.map _) isLater)
    · rw [if_neg less]
      refine ⟨_, none, heap, current :: rest, rfl, ?_, rfl, rfl⟩
      rw [toList_none, append_nil]
      exact correct

/-- The free regions on both sides of an allocated one. -/
structure Neighbours (cfg : HeapConfig) (heap : KernelAllocator)
    (free allocated : List Nat) (region : Nat) (left right : Option Nat)
    (front back : List Nat) : Prop where
  sameRegions : (front ++ (left.toList ++ region :: right.toList) ++
    back).Perm (free ++ allocated)
  tiles : Tiles heap cfg.address
    (front ++ (left.toList ++ region :: right.toList) ++ back)
    (cfg.address + cfg.blocks * blockSize)
  isLeft : free.filter (Before heap region) = left.toList
  isRight : ∀ node, node ∈ right.toList ↔ node ∈ free ∧
    region + heap.blocks region * blockSize = node

theorem FreeListCorrect.neighbours (correct : FreeListCorrect cfg heap free allocated)
    (member : region ∈ allocated) :
    ∃ left right front back,
      Neighbours cfg heap free allocated region left right front
        back := by
  obtain ⟨order, sameRegions, tiles⟩ := correct.tiles
  obtain ⟨before, behind, rfl⟩ := append_of_mem
    (sameRegions.mem_iff.mpr (mem_append_right _ member))
  have isTile : ∀ node ∈ free, node ∈ before ++ region :: behind :=
    fun node isFree => sameRegions.mem_iff.mpr (mem_append_left _ isFree)
  have isLast : ∀ node ∈ free.filter (Before heap region), before.getLast? = some node := by
    intro node isBefore
    obtain ⟨isFree, ends⟩ := mem_filter.mp isBefore
    exact tiles.before (isTile node isFree) (of_decide_eq_true ends)
  obtain ⟨left, front, rfl, isLeft⟩ : ∃ (left : Option Nat) (front : _),
      before = front ++ left.toList ∧ free.filter (Before heap region) = left.toList := by
    cases touching : free.filter (Before heap region) with
    | nil => exact ⟨none, before, (append_nil _).symm, rfl⟩
    | cons node others =>
      rw [touching] at isLast
      obtain ⟨front, isFront⟩ := List.getLast?_eq_some_iff.mp (isLast node mem_cons_self)
      refine ⟨some node, front, isFront, ?_⟩
      have nodup : (node :: others).Nodup := touching ▸ (nodup_append.mp correct.nodup).1.filter _
      cases others with
      | nil => rfl
      | cons second others =>
        have same := (isLast node mem_cons_self).symm.trans
          (isLast second (mem_cons_of_mem _ mem_cons_self))
        cases same
        exact absurd mem_cons_self (nodup_cons.mp nodup).1
  obtain ⟨right, back, rfl, isRight⟩ : ∃ (right : Option Nat) (back : _),
      behind = right.toList ++ back ∧
        ∀ node, node ∈ right.toList ↔ node ∈ free ∧
          region + heap.blocks region * blockSize = node := by
    by_cases isFree : region + heap.blocks region * blockSize ∈ free
    · obtain ⟨back, isBack⟩ := List.head?_eq_some_iff.mp (tiles.behind (isTile _ isFree) rfl)
      refine ⟨some _, back, isBack, fun node => ?_⟩
      rw [mem_toList, some.injEq]
      constructor
      · rintro rfl
        exact ⟨isFree, rfl⟩
      · exact And.right
    · refine ⟨none, behind, rfl, fun node => ⟨nofun, ?_⟩⟩
      rintro ⟨member, rfl⟩
      exact absurd member isFree
  have regroup : front ++ left.toList ++ region :: (right.toList ++ back) =
      front ++ (left.toList ++ region :: right.toList) ++ back := by
    simp only [append_assoc, cons_append]
  rw [regroup] at sameRegions tiles
  exact ⟨left, right, front, back, sameRegions, tiles, isLeft, isRight⟩

section Neighbours

variable {region joined : Nat} {left right : Option Nat} {front back : List Nat}

section

variable (neighbours : Neighbours cfg heap free allocated region left right front back)

include neighbours

/-- The regions that the loop joins with the region. -/
theorem Neighbours.removed (nodup : free.Nodup) :
    (free.filter (! Apart heap region
      (heap.blocks region * blockSize) ·)).Perm (left.toList ++ right.toList) := by
  have inOrder : (left.toList ++ right.toList).Nodup := by
    refine (neighbours.tiles.nodup).sublist ?_
    rw [append_assoc, append_assoc]
    refine List.Sublist.trans ?_ (sublist_append_right front _)
    refine List.Sublist.append_left (List.Sublist.cons _ ?_) _
    exact sublist_append_left _ _
  apply (perm_ext_iff_of_nodup (nodup.filter _) inOrder).mpr
  intro node
  rw [mem_append, neighbours.isRight, ← neighbours.isLeft, mem_filter, mem_filter]
  simp only [Apart, Bool.not_and, Bool.not_not, Bool.or_eq_true,
    Bool.not_eq_true', bne_eq_false_iff_eq]
  exact and_or_left

/-- What is left of the free regions once the loop is through. -/
theorem Neighbours.kept (nodup : free.Nodup) (member : region ∈ allocated) :
    (front ++ back).Perm (free.filter (Apart heap region
      (heap.blocks region * blockSize)) ++ allocated.erase region) := by
  apply perm_iff_count.mpr
  intro node
  have order := neighbours.sameRegions.count_eq node
  have isRemoved := (neighbours.removed nodup).count_eq node
  have isFree := (filter_append_perm (Apart heap region
    (heap.blocks region * blockSize)) free).count_eq node
  have isAllocated := (perm_cons_erase member).count_eq node
  simp only [count_append, count_cons] at order isRemoved isFree isAllocated ⊢
  omega

theorem Neighbours.not_mem (member : node ∈ front ++ back) :
    node ∉ left.toList ++ region :: right.toList := by
  obtain ⟨nodupFront, -, apartBack⟩ := nodup_append.mp neighbours.tiles.nodup
  obtain ⟨-, -, apartFront⟩ := nodup_append.mp nodupFront
  intro isMiddle
  rcases mem_append.mp member with inFront | inBack
  · exact apartFront node inFront node isMiddle rfl
  · exact apartBack node (mem_append_right _ isMiddle) node inBack rfl

end

theorem Neighbours.left_touches
    (neighbours : Neighbours cfg heap free allocated region (some node) right front back) :
    node ∈ free ∧ node + heap.blocks node * blockSize = region := by
  have isLeft : node ∈ free.filter (Before heap region) := by
    rw [neighbours.isLeft]
    exact mem_cons_self
  exact ⟨mem_of_mem_filter isLeft, of_decide_eq_true (mem_filter.mp isLeft).2⟩

section

variable
  (neighbours : Neighbours cfg heap free allocated region left right front back)
  (correct : FreeListCorrect cfg heap free allocated)
  (isKept : node ∈ free.filter (Apart heap region (heap.blocks region * blockSize)))

include neighbours correct isKept

theorem Neighbours.starts_apart : node + heap.blocks node * blockSize ≠ left.getD region := by
  obtain ⟨isFree, apart⟩ := mem_filter.mp isKept
  simp only [Apart, Before, Bool.and_eq_true, Bool.not_eq_true',
    decide_eq_false_iff_not, bne_iff_ne] at apart
  cases left with
  | none => exact apart.1
  | some before =>
    exact correct.apart node isFree before neighbours.left_touches.1

theorem Neighbours.ends_apart :
    left.getD region + (heap.blocks region +
      totalBlocks heap (left.toList ++ right.toList)) * blockSize ≠
        node := by
  obtain ⟨isFree, apart⟩ := mem_filter.mp isKept
  simp only [Apart, Before, Bool.and_eq_true, Bool.not_eq_true',
    decide_eq_false_iff_not, bne_iff_ne] at apart
  have isStart : left.getD region + totalBlocks heap left.toList * blockSize = region := by
    cases left with
    | none => exact Nat.add_eq_left.mpr (Nat.zero_mul _)
    | some before =>
      rw [toList_some, totalBlocks_singleton]
      exact neighbours.left_touches.2
  have isEnd : region + heap.blocks region * blockSize +
      totalBlocks heap right.toList * blockSize ≠ node := by
    cases right with
    | none =>
      rw [show totalBlocks heap (none : Option Nat).toList = 0 from rfl, Nat.zero_mul]
      exact apart.2
    | some behind =>
      obtain ⟨isBehind, starts⟩ := (neighbours.isRight behind).mp mem_cons_self
      rw [starts, toList_some, totalBlocks_singleton]
      exact correct.apart behind isBehind node isFree
  rw [totalBlocks_append]
  unfold blockSize at *
  omega

end

/-- What the loop makes of the region and the free ones next to it. -/
theorem FreeListCorrect.join (correct : FreeListCorrect cfg heap free allocated)
    (member : region ∈ allocated) (joins : Joins region (heap.blocks region * blockSize) heap
      region [] free later joined)
    (sameFree : free'.Perm (joined :: free.filter (Apart heap region
      (heap.blocks region * blockSize))))
    (sameBlocks : ∀ node, last.blocks node = later.blocks node)
    (linked : last.FreeList free') (sorted : free'.Pairwise (AtLeast last)) :
    FreeListCorrect cfg last free' (allocated.erase region) ∧
      totalBlocks last free' = totalBlocks heap free + heap.blocks region := by
  obtain ⟨left, right, front, back, neighbours⟩ := correct.neighbours member
  have nodup := (nodup_append.mp correct.nodup).1
  have removed := neighbours.removed nodup
  have isJoined : joined = left.getD region := by
    rw [joins.start, neighbours.isLeft]
    cases left <;> rfl
  have blocks : last.blocks joined = heap.blocks region +
      totalBlocks heap (left.toList ++ right.toList) := by
    rw [sameBlocks, joins.blocks]
    exact congrArg _ (totalBlocks_perm removed)
  have keptBlocks : ∀ node ∈ front ++ back, last.blocks node = heap.blocks node := by
    intro node isKept
    have apart := neighbours.not_mem isKept
    rw [sameBlocks]
    refine joins.others node (fun same => apart ?_) (fun isRemoved => apart ?_)
    · exact mem_append_right _ (same ▸ mem_cons_self)
    · exact perm_middle.symm.subset (mem_cons_of_mem _ (removed.subset isRemoved))
  have apartBlocks : ∀ node ∈ free.filter (Apart heap region
      (heap.blocks region * blockSize)),
      last.blocks node = heap.blocks node :=
    fun node isKept => keptBlocks node ((neighbours.kept nodup member).mem_iff.mpr
      (mem_append_left _ isKept))
  refine ⟨⟨⟨front ++ [joined] ++ back, ?_, ?_⟩, ?_, linked, sorted⟩, ?_⟩
  · have kept := neighbours.kept nodup member
    apply perm_iff_count.mpr
    intro node
    have isKept := kept.count_eq node
    have isFree := sameFree.count_eq node
    simp only [count_append, count_cons, count_nil] at isKept isFree ⊢
    omega
  · apply neighbours.tiles.replace _ keptBlocks
    intro here there tiles
    apply tiles.join
    · rw [isJoined]
      cases left <;> rfl
    · rw [blocks, totalBlocks_perm perm_middle, totalBlocks_cons]
  · intro node isNode other isOther
    rcases mem_cons.mp (sameFree.mem_iff.mp isNode) with rfl | isNode
    · rw [blocks]
      rcases mem_cons.mp (sameFree.mem_iff.mp isOther) with
        rfl | isOther
      · have positive := correct.positive (mem_append_right _ member)
        unfold blockSize
        omega
      · rw [isJoined]
        exact neighbours.ends_apart correct isOther
    · rw [apartBlocks node isNode]
      rcases mem_cons.mp (sameFree.mem_iff.mp isOther) with
        rfl | isOther
      · rw [isJoined]
        exact neighbours.starts_apart correct isNode
      · exact correct.apart node (mem_of_mem_filter isNode) other (mem_of_mem_filter isOther)
  · rw [totalBlocks_perm sameFree, totalBlocks_cons, blocks, totalBlocks_congr apartBlocks]
    have whole := @totalBlocks_perm heap _ _
      (filter_append_perm (Apart heap region (heap.blocks region * blockSize)) free)
    rw [totalBlocks_append, totalBlocks_perm removed] at whole
    omega

end Neighbours

theorem FreeListCorrect.congr (correct : FreeListCorrect cfg heap free allocated)
    (same : ∀ node, later.blocks node = heap.blocks node) (linked : later.FreeList free) :
    FreeListCorrect cfg later free allocated := by
  obtain ⟨order, sameRegions, tiles⟩ := correct.tiles
  refine ⟨⟨order, sameRegions, tiles.congr fun node _ => same node⟩, ?_,
    linked, pairwise_atLeast_congr correct.sorted fun node _ => same node⟩
  intro left isLeft
  rw [same]
  exact correct.apart left isLeft

theorem unlinkFree_count (heap : KernelAllocator) (ptr : Nat) :
    (unlinkFree heap ptr).nblocks = heap.nblocks := by
  unfold unlinkFree
  cases (heap.region ptr).prev <;> dsimp only <;> split <;> rfl

theorem unlinkCreated_count (heap : KernelAllocator) (region : Nat) :
    (unlinkCreated heap region).nblocks = heap.nblocks := by
  have first : (detachNext heap region).nblocks =
      heap.nblocks := by
    unfold detachNext
    split <;> rfl
  unfold unlinkCreated detachPrev
  split <;> exact first

theorem joinFree_count
    (result : joinFree vregion vrsize depth heap region ptr = some (later, joined)) :
    later.nblocks = heap.nblocks := by
  induction depth generalizing heap region ptr with
  | zero =>
    cases ptr with
    | none =>
      cases result
      rfl
    | some ptr => cases result
  | succ depth ih =>
    cases ptr with
    | none =>
      cases result
      rfl
    | some ptr =>
      rw [joinFree_some] at result
      apply (ih result).trans
      split
      · exact unlinkFree_count _ _
      · split
        · exact unlinkFree_count _ _
        · rfl

theorem Joins.joined_not_mem (joins : Joins vregion vrsize heap region [] free later joined)
    (outside : region ∉ free) :
    joined ∉ free.filter (Apart heap vregion vrsize) := by
  intro isKept
  obtain ⟨isFree, apart⟩ := mem_filter.mp isKept
  rw [joins.start] at isFree apart
  cases isLast : (free.filter (Before heap vregion)).getLast? with
  | none =>
    rw [isLast] at isFree
    exact outside isFree
  | some last =>
    have before := (mem_filter.mp (mem_of_getLast? isLast)).2
    rw [isLast, getD_some, Apart, before] at apart
    cases apart

theorem WellFormed.destroy (wellFormed : WellFormed cfg heap free created)
    (member : region ∈ created) :
    ∃ later free',
      kernelRegionDestroy cfg.blocks heap region = some later ∧
      FreeListCorrect cfg later free' (created.erase region) ∧
      later.nblocks = heap.nblocks ∧
      totalBlocks later free' = totalBlocks heap free + heap.blocks region := by
  have original := wellFormed.toFreeListCorrect
  obtain ⟨nodup, nodupCreated, unlisted⟩ := nodup_append.mp original.nodup
  have outside : region ∉ free := fun isFree =>
    unlisted region isFree region member rfl
  obtain ⟨before, after, isCreated⟩ := append_of_mem member
  have createdList := wellFormed.createdList
  rw [isCreated] at createdList nodupCreated
  obtain ⟨sameBlocks, -, noNext, noPrev, frame⟩ := unlinkCreated_spec createdList nodupCreated
  have count := unlinkCreated_count heap region
  unfold kernelRegionDestroy
  dsimp only
  generalize unlinkCreated heap region = unlinked at *
  have correct : FreeListCorrect cfg unlinked free created := by
    apply original.congr sameBlocks.nblocks
    rw [KernelAllocator.FreeList, sameBlocks.free]
    have sameRegion : ∀ node ∈ free, unlinked.region node = heap.region node := by
      intro node isFree
      apply frame
      rw [← isCreated]
      exact fun isListed => unlisted node isFree node isListed rfl
    exact Segment.congr original.linked
      (fun node isFree => congrArg Region.next (sameRegion node isFree))
      (fun node isFree => congrArg Region.prev (sameRegion node isFree))
  have total : totalBlocks unlinked free + unlinked.blocks region =
      totalBlocks heap free + heap.blocks region := by
    rw [totalBlocks_congr fun node _ => sameBlocks.nblocks node]
    exact congrArg _ (sameBlocks.nblocks region)
  rw [← count, ← total]
  cases free with
  | nil =>
    rw [show unlinked.nextFreeRegion = none from correct.linked]
    refine ⟨_, [region], rfl, ?_⟩
    have joins : Joins region (unlinked.blocks region * blockSize) unlinked
        region [] [] unlinked region :=
      ⟨rfl, correct.linked, rfl, fun _ _ _ => rfl⟩
    obtain ⟨isCorrect, isTotal⟩ := correct.join member joins
      (List.Perm.refl _) (KernelAllocator.blocks_withFree unlinked ·
        (some region)) ⟨rfl, noPrev, noNext⟩
      (pairwise_singleton _ _)
    exact ⟨isCorrect, rfl, isTotal⟩
  | cons first rest =>
    rw [show unlinked.nextFreeRegion = some first from correct.linked.1]
    have enough := correct.length_le
    obtain ⟨later, joined, result, joins⟩ :=
      joinFree_joins region (unlinked.blocks region * blockSize) []
        (first :: rest) correct.linked nodup outside
        (show _ ≤ cfg.blocks by omega)
    have shorter := length_filter_le (Apart unlinked region
      (unlinked.blocks region * blockSize)) (first :: rest)
    obtain ⟨ordered, isOrdered, left, right, -, isInserted, inserted⟩ :=
      orderFree_inserted joins.free (nodup.filter _)
        (joins.joined_not_mem outside)
        (show _ ≤ cfg.blocks by rw [nil_append]; omega)
    have keptBlocks : ∀ node ∈ (first :: rest).filter (Apart unlinked
        region (unlinked.blocks region * blockSize)),
        later.blocks node = unlinked.blocks node := by
      intro node isKept
      obtain ⟨isFree, apart⟩ := mem_filter.mp isKept
      refine joins.others node (ne_of_mem_of_not_mem isFree outside) ?_
      intro isRemoved
      have notApart := (mem_filter.mp isRemoved).2
      rw [apart] at notApart
      cases notApart
    obtain ⟨isCorrect, isTotal⟩ := correct.join member joins
      (isInserted ▸ perm_orderedInsert ..) inserted.sizes.blocks
      inserted.free (by
        rw [isInserted]
        refine pairwise_atLeast_congr
          (List.Pairwise.orderedInsert _ _ ?_)
          (fun node _ => inserted.sizes.blocks node)
        exact pairwise_atLeast_congr (correct.sorted.sublist filter_sublist) keptBlocks)
    refine ⟨ordered, _, ?_, isCorrect, ?_, isTotal⟩
    · exact bind_eq_some_iff.mpr ⟨_, result, isOrdered⟩
    · rw [inserted.sizes.count, joinFree_count result]

theorem WellFormed.marked (wellFormed : WellFormed cfg heap free created) (region : Nat)
    (status : RegionStatus) :
    WellFormed cfg (heap.setStatus region status) free created := by
  have kept : ∀ {β : Type} (field : Region → β) (node : Nat),
      field { heap.region region with status := status } = field (heap.region region) →
      field ((heap.setStatus region status).region node) = field (heap.region node) :=
    fun _ _ same => KernelAllocator.field_setRegion_kept _ _ _ same
  refine ⟨wellFormed.congr (kept Region.nblocks · rfl) ?_, ?_⟩
  · exact Segment.congr wellFormed.linked
      (fun node _ => kept Region.next node rfl)
      (fun node _ => kept Region.prev node rfl)
  · exact wellFormed.createdList.congr fun node _ =>
      ⟨kept Region.next node rfl, kept Region.prev node rfl⟩

end Heaps

inductive HeapOperation where
  | create (requiredNblocks : BitVec 32)
  | destroy (region : Nat)
  | malloc (size : BitVec 32)
  | free (area : Nat)

/-- What clients may ask for: a region is destroyed, and an area is freed,
only as long as it is created. -/
def HeapOperation.Allowed (created : List Nat) : HeapOperation → Prop
  | .create _ => True
  | .destroy region => region ∈ created
  | .malloc _ => True
  | .free area => ∃ region ∈ created, area = region + blockSize

/-- The count of free blocks without the blocks of the free regions. -/
def uncounted (heap : KernelAllocator) (free : List Nat) : Int :=
  heap.nblocks - totalBlocks heap free

/-- What an operation has to do to the free list and to the count. -/
def HeapOperation.Keeps (cfg : HeapConfig) (heap : KernelAllocator)
    (free created : List Nat) : HeapOperation → Prop
  | .create requiredNblocks =>
    ∃ status region later free',
      kernelRegionCreate cfg.blocks heap requiredNblocks.toNat =
        some (status, region, later) ∧
      FreeListCorrect cfg later free' (created ++ region.toList)
  | .destroy region =>
    ∃ later free',
      kernelRegionDestroy cfg.blocks heap region = some later ∧
      FreeListCorrect cfg later free' (created.erase region)
  | .malloc size =>
    ∃ (region : Option Nat) (later : KernelAllocator) (free' : List Nat),
      kernelMalloc cfg.blocks heap size = some (region.map (· + blockSize), later) ∧
      FreeListCorrect cfg later free' (created ++ region.toList) ∧
      uncounted later free' = uncounted heap free
  | .free area =>
    ∃ later free',
      kernelFree cfg.blocks heap area = some later ∧
      FreeListCorrect cfg later free' (created.erase (area - blockSize)) ∧
      uncounted later free' = uncounted heap free

section Operations

variable {cfg : HeapConfig} {heap later : KernelAllocator} {free created : List Nat}

theorem WellFormed.keeps_create (wellFormed : WellFormed cfg heap free created)
    (requiredNblocks : BitVec 32) (noWrap : requiredNblocks ≠ BitVec.allOnes 32) :
    (HeapOperation.create requiredNblocks).Keeps cfg heap free
      created := by
  have bounded : requiredNblocks.toNat + 1 < 2 ^ 32 := by
    have small := requiredNblocks.isLt
    have differ : requiredNblocks.toNat ≠ 2 ^ 32 - 1 := by
      intro same
      apply noWrap
      apply BitVec.eq_of_toNat_eq
      rw [same, BitVec.toNat_allOnes]
    omega
  obtain ⟨status, region, later, free', result, correct, -⟩ := wellFormed.create bounded
  exact ⟨status, region, later, free', result, correct⟩

theorem WellFormed.keeps_create_empty (wellFormed : WellFormed cfg heap [] created)
    (requiredNblocks : BitVec 32) :
    (HeapOperation.create requiredNblocks).Keeps cfg heap []
      created := by
  refine ⟨.error, none, heap, [], ?_, ?_⟩
  · unfold kernelRegionCreate
    rw [show heap.nextFreeRegion = none from wellFormed.linked]
  · rw [toList_none, append_nil]
    exact wellFormed.toFreeListCorrect

theorem WellFormed.keeps_malloc (wellFormed : WellFormed cfg heap free created) (size : BitVec 32) :
    (HeapOperation.malloc size).Keeps cfg heap free created := by
  by_cases zero : size = 0
  · refine ⟨none, heap, free, if_pos zero, ?_, rfl⟩
    rw [toList_none, append_nil]
    exact wellFormed.toFreeListCorrect
  · obtain ⟨required, isRequired, bounded⟩ := mallocBlocks_lt size
    obtain ⟨status, region, later, free', result, correct, count, total⟩ :=
      wellFormed.create bounded
    dsimp only [HeapOperation.Keeps, kernelMalloc]
    rw [if_neg zero, isRequired, result, map_some]
    cases region with
    | none =>
      refine ⟨none, later, free', rfl, correct, ?_⟩
      unfold uncounted
      rw [count, ← total]
      rfl
    | some region =>
      refine ⟨some region, _, free', rfl, correct.congr (fun _ => rfl) correct.linked, ?_⟩
      rw [toList_some, totalBlocks_singleton] at total
      unfold uncounted
      rw [← total, ← count]
      change later.nblocks - (later.blocks region : Int) - (totalBlocks later free' : Int) = _
      omega

theorem WellFormed.keeps_free (wellFormed : WellFormed cfg heap free created)
    (member : region ∈ created) :
    (HeapOperation.free (region + blockSize)).Keeps cfg heap free
      created := by
  have marked := wellFormed.marked region .free
  obtain ⟨later, free', result, correct, count, total⟩ := marked.destroy member
  dsimp only [HeapOperation.Keeps, kernelFree]
  rw [Nat.add_sub_cancel, result]
  refine ⟨_, free', rfl, correct.congr (fun _ => rfl) correct.linked, ?_⟩
  have same : totalBlocks (heap.setStatus region .free) free = totalBlocks heap free :=
    totalBlocks_congr fun _ _ =>
      KernelAllocator.field_setRegion_kept _ _ _ rfl
  rw [same] at total
  have count : later.nblocks = heap.nblocks := count
  change later.nblocks + ((heap.setStatus region .free).blocks region : Int) -
    (totalBlocks later free' : Int) = heap.nblocks - (totalBlocks heap free : Int)
  omega

theorem orderFree_blocks (result : orderFree depth heap region = some later) (node : Nat) :
    later.blocks node = heap.blocks node := by
  cases isFirst : heap.nextFreeRegion with
  | none =>
    unfold orderFree at result
    rw [isFirst] at result
    cases result
    simp
  | some first =>
    rw [orderFree_some isFirst] at result
    obtain ⟨place, -, rfl⟩ := map_eq_some_iff.mp result
    split
    · exact (linkBefore_fields heap region place).2.2.2.blocks node
    · simp [linkBehind]

/-- The number of blocks wraps around to zero, and the region is created with
no blocks at all. -/
theorem WellFormed.create_wraps (wellFormed : WellFormed cfg heap (current :: rest) created) :
    ¬ (HeapOperation.create (BitVec.allOnes 32)).Keeps cfg heap
      (current :: rest) created := by
  rintro ⟨status, region, later, free', result, correct⟩
  have isFirst : heap.nextFreeRegion = some current := wellFormed.linked.1
  have positive : 0 < (heap.region current).nblocks := wellFormed.positive mem_cons_self
  have wrapped : ((BitVec.allOnes 32).toNat + 1) % 2 ^ 32 = 0 := by decide
  unfold kernelRegionCreate at result
  rw [wrapped, isFirst] at result
  dsimp only at result
  rw [if_pos positive] at result
  obtain ⟨ordered, isOrdered, result⟩ := bind_eq_some_iff.mp result
  obtain ⟨added, isAdded, result⟩ := map_eq_some_iff.mp result
  cases result
  have empty : later.blocks current = 0 := by
    rw [(addCreated_same isAdded).1, orderFree_blocks isOrdered,
      (splitFirst_fields heap current 0).2.2, if_pos rfl]
  have created := correct.positive (mem_append_right free' (mem_append_right created mem_cons_self))
  omega

/-- One step from a well formed heap keeps the free list correct and the count
of free blocks right, unless a region of 2 ^ 32 - 1 blocks is created while
there is a free one. -/
theorem heap_step_keeps_iff (wellFormed : WellFormed cfg heap free created)
    (operation : HeapOperation) (allowed : operation.Allowed created) :
    operation.Keeps cfg heap free created ↔
      (operation = .create (BitVec.allOnes 32) → free = []) := by
  cases operation with
  | create requiredNblocks =>
    rw [HeapOperation.create.injEq]
    by_cases wraps : requiredNblocks = BitVec.allOnes 32
    · subst wraps
      cases free with
      | nil =>
        exact iff_of_true (wellFormed.keeps_create_empty _) fun _ => rfl
      | cons current rest =>
        exact iff_of_false wellFormed.create_wraps fun none => nomatch none rfl
    · exact iff_of_true (wellFormed.keeps_create _ wraps) fun same => absurd same wraps
  | destroy region =>
    obtain ⟨later, free', result, correct, -⟩ := wellFormed.destroy allowed
    exact iff_of_true ⟨later, free', result, correct⟩ nofun
  | malloc size => exact iff_of_true (wellFormed.keeps_malloc size) nofun
  | free area =>
    obtain ⟨region, member, rfl⟩ := allowed
    exact iff_of_true (wellFormed.keeps_free member) nofun

theorem memoryCreate_wellFormed (cfg : HeapConfig) (room : 0 < cfg.blocks) :
    WellFormed cfg (memoryCreate cfg) [cfg.address] [] := by
  refine ⟨⟨⟨[cfg.address], List.Perm.refl _, rfl, room, rfl⟩, ?_,
    ⟨rfl, rfl, rfl⟩, pairwise_singleton _ _⟩, rfl⟩
  intro left isLeft right isRight
  cases mem_singleton.mp isLeft
  cases mem_singleton.mp isRight
  have positive : 0 < (memoryCreate cfg).blocks cfg.address := room
  unfold blockSize
  omega

/-- Two created regions between three free ones. -/
def mixedHeap : KernelAllocator where
  nblocks := 24
  nextCreatedRegion := some 0x1080
  nextFreeRegion := some 0x1200
  region := fun ptr =>
    if ptr = 0x1000 then ⟨4, .free, some 0x1100, some 0x1200⟩
    else if ptr = 0x1080 then ⟨4, .allocated, some 0x1180, none⟩
    else if ptr = 0x1100 then ⟨4, .free, none, some 0x1000⟩
    else if ptr = 0x1180 then ⟨4, .allocated, none, some 0x1080⟩
    else ⟨15, .free, some 0x1000, none⟩

theorem mixedHeap_wellFormed :
    WellFormed smallHeap mixedHeap [0x1200, 0x1000, 0x1100] [0x1080, 0x1180] := by
  refine ⟨⟨⟨[0x1000, 0x1080, 0x1100, 0x1180, 0x1200], by decide, ?_⟩, by decide, ?_, by decide⟩, ?_⟩
  · exact ⟨rfl, by decide, rfl, by decide, rfl, by decide, rfl, by decide, rfl, by decide, rfl⟩
  · exact ⟨rfl, rfl, rfl, rfl, rfl, rfl, rfl⟩
  · exact ⟨rfl, rfl, rfl, rfl, rfl⟩

/-- The region is merged with the free ones on both sides. -/
theorem heap_step_keeps_iff_merge :
    (HeapOperation.destroy 0x1080).Keeps smallHeap mixedHeap
        [0x1200, 0x1000, 0x1100] [0x1080, 0x1180] ∧
      (kernelRegionDestroy smallHeap.blocks mixedHeap 0x1080).map (·.blocks 0x1000) = some 12 :=
  ⟨(heap_step_keeps_iff mixedHeap_wellFormed (.destroy 0x1080) mem_cons_self).mpr nofun, rfl⟩

/-- In a new heap, the region is created without blocks, and it is in both
lists. -/
theorem wrapped_region_in_both_lists :
    WellFormed smallHeap (memoryCreate smallHeap) [smallHeap.address] [] ∧
      (∃ later, kernelRegionCreate smallHeap.blocks (memoryCreate smallHeap)
          (BitVec.allOnes 32).toNat = some (.ok, some smallHeap.address, later) ∧
        later.nextFreeRegion = some smallHeap.address ∧
        later.nextCreatedRegion = some smallHeap.address ∧
        later.blocks smallHeap.address = 0) ∧
      ¬ (HeapOperation.create (BitVec.allOnes 32)).Keeps smallHeap
        (memoryCreate smallHeap) [smallHeap.address] [] := by
  have wellFormed := memoryCreate_wellFormed smallHeap (by decide)
  exact ⟨wellFormed, ⟨_, rfl, rfl, rfl, rfl⟩, wellFormed.create_wraps⟩

end Operations

end Reverse.Dnaos
