import Reverse.Dnaos.HeapLists

/-!
# Runs of the kernel heap

As long as the region that is freed is the last one of the created list, the
created regions lie one behind the other from the start of the heap, and what
follows them is the only free region.  Freeing any other region cuts the created
list behind its predecessor.
-/

namespace Reverse.Dnaos

open List hiding after

open KernelAllocator (setNblocks setRegion_other setRegion_self setStatus)

/-- The created regions lie behind each other from the start of the heap, and
the rest is the only free region. -/
structure Stacked (cfg : HeapConfig) (heap : KernelAllocator)
    (regions : List Nat) (rest : Nat) : Prop where
  tiles : Tiles heap cfg.address regions rest
  room : rest + (heap.region rest).nblocks * blockSize =
    cfg.address + cfg.blocks * blockSize
  created : DoublyLinked heap none heap.nextCreatedRegion regions
  free : heap.nextFreeRegion = some rest
  alone : (heap.region rest).next = none ∧
    (heap.region rest).prev = none
  status : (heap.region rest).status = .free

theorem memoryCreate_stacked (cfg : HeapConfig) :
    Stacked cfg (memoryCreate cfg) [] cfg.address :=
  ⟨rfl, rfl, rfl, rfl, ⟨rfl, rfl⟩, rfl⟩

section

variable (stacked : Stacked cfg heap regions rest)

include stacked

theorem Stacked.rest_not_mem : rest ∉ regions :=
  fun member => Nat.lt_irrefl _ (stacked.tiles.bounds.1 rest member).2.2

theorem Stacked.recount (nblocks : Int) :
    Stacked cfg { heap with nblocks := nblocks } regions rest :=
  ⟨stacked.tiles.congr fun _ _ => rfl, stacked.room,
    stacked.created.congr fun _ _ => ⟨rfl, rfl⟩, stacked.free, stacked.alone,
    stacked.status⟩

theorem Stacked.length_le : regions.length ≤ cfg.blocks := by
  have room := stacked.room
  have inside := stacked.tiles.bounds.2
  have bytes : regions.length * blockSize ≤ cfg.blocks * blockSize := by
    omega
  exact Nat.le_of_mul_le_mul_right bytes (by decide)

theorem Stacked.fits (small : required < (heap.region rest).nblocks) : required < 2 ^ 32 := by
  have room := stacked.room
  have blocks : cfg.blocks * blockSize ≤ cfg.size :=
    Nat.le_trans (Nat.mul_le_mul_right _ (Nat.sub_le _ 1)) (Nat.div_mul_le_self _ _)
  have inside := cfg.fits
  unfold blockSize at *
  omega

/-- An allocation makes the start of the free region the last created one. -/
theorem Stacked.create (small : required + 1 < (heap.region rest).nblocks)
    :
    ∃ later, kernelRegionCreate cfg.blocks heap required = some (.ok, some rest, later) ∧
      Stacked cfg later (regions ++ [rest]) (rest + (required + 1) * blockSize) := by
  have less : rest < rest + (required + 1) * blockSize :=
    Nat.lt_add_of_pos_right (Nat.mul_pos (Nat.succ_pos _) (by decide))
  have differ : rest + (required + 1) * blockSize ≠ rest := Nat.ne_of_gt less
  have outside : ∀ region ∈ regions,
      region ≠ rest ∧ region ≠ rest + (required + 1) * blockSize := by
    intro region member
    have below := (stacked.tiles.bounds.1 region member).2.2
    omega
  obtain ⟨noFree, sameCreated, isCurrent, isNext, splitFrame⟩ :=
    splitFirst_spec stacked.alone.1 differ
  obtain ⟨ordered, isOrdered, isFree, orderedCreated, nextAlone, orderFrame⟩ :=
    orderFree_empty noFree cfg.blocks (rest + (required + 1) * blockSize)
  have keptRegion : ∀ region ∈ regions, ordered.region region = heap.region region := by
    intro region member
    rw [orderFrame region (outside region member).2,
      splitFrame region (outside region member).1 (outside region member).2]
  have current : ordered.region rest = ⟨required + 1, .allocated, none, none⟩ := by
    rw [orderFrame rest (Ne.symm differ), isCurrent]
  obtain ⟨later, isLater, blocks, created, frame⟩ :=
    @addCreated_spec ordered regions rest cfg.blocks
      (by
        rw [orderedCreated, sameCreated]
        apply stacked.created.congr
        intro region member
        rw [keptRegion region member]
        exact ⟨rfl, rfl⟩)
      stacked.tiles.nodup stacked.rest_not_mem
      (by rw [current]; exact ⟨rfl, rfl⟩) stacked.length_le
  have nextRegion : later.region (rest + (required + 1) * blockSize) =
      ⟨(heap.region rest).nblocks - (required + 1), .free, none, none⟩ := by
    rw [frame, nextAlone, isNext]
    intro member
    rcases mem_append.mp member with isOld | isNew
    · exact (outside _ isOld).2 rfl
    · exact differ (mem_singleton.mp isNew)
  refine ⟨later, ?_, ?_, ?_, created, blocks.free.trans isFree, ?_, ?_⟩
  · unfold kernelRegionCreate
    rw [stacked.free, Nat.mod_eq_of_lt (stacked.fits small)]
    dsimp only
    rw [if_pos small, isOrdered]
    dsimp only [Option.bind_some]
    rw [isLater]
    rfl
  · refine Tiles.append.mpr ⟨rest, ?_, rfl, ?_, ?_⟩
    · apply stacked.tiles.congr
      intro region member
      rw [blocks.nblocks, keptRegion region member]
    · rw [blocks.nblocks, current]
      exact Nat.succ_pos _
    · rw [blocks.nblocks, current]
      rfl
  · have room := stacked.room
    have split : (required + 1) * blockSize +
        ((heap.region rest).nblocks - (required + 1)) * blockSize =
          (heap.region rest).nblocks * blockSize := by
      rw [← Nat.add_mul, Nat.add_sub_cancel' (Nat.le_of_lt small)]
    rw [nextRegion]
    dsimp only
    omega
  · rw [nextRegion]
    exact ⟨rfl, rfl⟩
  · rw [nextRegion]

end

theorem mallocBlocks_lt (size : BitVec 32) :
    ∃ required, size.toNat / blockSize +
        (if size.toNat - size.toNat / blockSize * blockSize ≠ 0 then 1 else 0) + 1 = required ∧
      required + 1 < 2 ^ 32 := by
  refine ⟨_, rfl, ?_⟩
  have bounded := size.isLt
  unfold blockSize
  split <;> omega

/-- `kernel_malloc` fails and changes nothing, or gives the area of the region
that was free. -/
theorem Stacked.malloc (stacked : Stacked cfg heap regions rest) (size : BitVec 32) :
    kernelMalloc cfg.blocks heap size = some (none, heap) ∨
      ∃ later next, kernelMalloc cfg.blocks heap size =
          some (some (rest + blockSize), later) ∧
        Stacked cfg later (regions ++ [rest]) next := by
  unfold kernelMalloc
  by_cases zero : size = 0
  · exact Or.inl (if_pos zero)
  · rw [if_neg zero]
    dsimp only
    obtain ⟨required, isRequired, bounded⟩ := mallocBlocks_lt size
    rw [isRequired]
    by_cases small : required + 1 < (heap.region rest).nblocks
    · obtain ⟨later, isLater, next⟩ := stacked.create small
      right
      rw [isLater]
      exact ⟨_, _, rfl, next.recount _⟩
    · left
      unfold kernelRegionCreate
      rw [stacked.free, Nat.mod_eq_of_lt bounded]
      dsimp only
      rw [if_neg small]
      rfl

theorem Stacked.marked (stacked : Stacked cfg heap regions rest) (region : Nat) :
    Stacked cfg (heap.setStatus region .free) regions rest ∧
      ((heap.setStatus region .free).region region).status = .free := by
  have same : ∀ ptr,
      ((heap.setStatus region .free).region ptr).nblocks = (heap.region ptr).nblocks ∧
        ((heap.setStatus region .free).region ptr).next = (heap.region ptr).next ∧
        ((heap.setStatus region .free).region ptr).prev = (heap.region ptr).prev := by
    intro ptr
    by_cases isRegion : ptr = region
    · rw [isRegion, setStatus, setRegion_self]
      exact ⟨rfl, rfl, rfl⟩
    · rw [setStatus, setRegion_other isRegion]
      exact ⟨rfl, rfl, rfl⟩
  refine ⟨⟨stacked.tiles.congr fun ptr _ => (same ptr).1, ?_,
    stacked.created.congr fun ptr _ => (same ptr).2, stacked.free, ?_, ?_⟩, ?_⟩
  · rw [(same rest).1]
    exact stacked.room
  · rw [(same rest).2.1, (same rest).2.2]
    exact stacked.alone
  · by_cases isRegion : rest = region
    · rw [isRegion, setStatus, setRegion_self]
    · rw [setStatus, setRegion_other isRegion]
      exact stacked.status
  · rw [setStatus, setRegion_self]

/-- Freeing the last created region joins it with the rest. -/
theorem Stacked.destroy_last (stacked : Stacked cfg heap (before ++ [region]) rest)
    (isFree : (heap.region region).status = .free) :
    ∃ later, kernelRegionDestroy cfg.blocks heap region =
        some later ∧ Stacked cfg later before region := by
  obtain ⟨middle, tiles, isMiddle, positive, reaches⟩ := Tiles.append.mp stacked.tiles
  have isStop : middle + (heap.region region).nblocks * blockSize = rest := reaches
  subst isMiddle
  obtain ⟨blocks, created, noNext, noPrev, frame⟩ :=
    unlinkCreated_spec stacked.created stacked.tiles.nodup
  have less : region < rest := (stacked.tiles.bounds.1 region
    (mem_append_right _ mem_cons_self)).2.2
  have keptRest := frame rest stacked.rest_not_mem
  have enough : 0 < cfg.blocks := by
    have length := stacked.length_le
    rw [length_append, length_singleton] at length
    omega
  have joined := @joinFree_alone (unlinkCreated heap region) region rest
    (((unlinkCreated heap region).region region).nblocks * blockSize)
    cfg.blocks (by rw [keptRest]; exact stacked.alone.1)
    (by rw [keptRest]; exact stacked.alone.2) less
    (by rw [blocks.nblocks]; exact isStop) enough
  obtain ⟨later, isLater, nextFree, laterCreated, isRegion, laterFrame⟩ :=
    @orderFree_empty { (unlinkCreated heap region).setNblocks region
        (((unlinkCreated heap region).region region).nblocks +
          ((unlinkCreated heap region).region rest).nblocks) with
      nextFreeRegion := none } rfl cfg.blocks region
  have notBefore : ∀ ptr ∈ before, ptr ≠ region := fun ptr member =>
    (nodup_append.mp stacked.tiles.nodup).2.2 ptr member region mem_cons_self
  have kept : ∀ ptr ∈ before, later.region ptr = (unlinkCreated heap region).region ptr := by
    intro ptr member
    rw [laterFrame ptr (notBefore ptr member)]
    exact setRegion_other (notBefore ptr member) ..
  refine ⟨later, ?_, ?_, ?_, ?_, nextFree, ?_, ?_⟩
  · unfold kernelRegionDestroy
    dsimp only
    rw [blocks.free, stacked.free]
    dsimp only
    rw [joined]
    exact isLater
  · apply tiles.congr
    intro ptr member
    rw [kept ptr member, blocks.nblocks]
  · have room := stacked.room
    rw [isRegion]
    dsimp only
    rw [setNblocks, setRegion_self]
    dsimp only
    rw [blocks.nblocks, blocks.nblocks, Nat.add_mul]
    omega
  · rw [laterCreated]
    apply created.congr
    intro ptr member
    rw [kept ptr member]
    exact ⟨rfl, rfl⟩
  · rw [isRegion]
    exact ⟨rfl, rfl⟩
  · rw [isRegion]
    dsimp only
    rw [setNblocks, setRegion_self]
    dsimp only
    rw [blocks.status]
    exact isFree

/-- Freeing another one loses the regions created after it. -/
theorem Stacked.destroy_inside
    (stacked : Stacked cfg heap (before ++ region :: second :: after) rest) :
    ∃ later, kernelRegionDestroy cfg.blocks heap region =
        some later ∧ Linked later later.nextCreatedRegion before := by
  obtain ⟨middle, -, isMiddle, positive, isSecond, secondPositive, behind⟩ :=
    Tiles.append.mp stacked.tiles
  subst isMiddle
  obtain ⟨blocks, created, -, -, frame⟩ := unlinkCreated_spec stacked.created stacked.tiles.nodup
  have inside : region ∈ before ++ region :: second :: after := mem_append_right _ mem_cons_self
  have less : region < rest := (stacked.tiles.bounds.1 region inside).2.2
  have secondLess : second < rest := (stacked.tiles.bounds.1 second
    (mem_append_right _ (mem_cons_of_mem _ mem_cons_self))).2.2
  have keptRest := frame rest stacked.rest_not_mem
  have enough : 0 < cfg.blocks := by
    have length := stacked.length_le
    rw [length_append, length_cons] at length
    omega
  have joined := @joinFree_apart (unlinkCreated heap region) region rest
    (((unlinkCreated heap region).region region).nblocks * blockSize)
    cfg.blocks (by rw [keptRest]; exact stacked.alone.1) less
    (by rw [blocks.nblocks, ← isSecond]; exact Nat.ne_of_lt secondLess) enough
  obtain ⟨later, isLater, laterCreated, laterFrame⟩ := orderFree_alone
    (blocks.free.trans stacked.free) (by rw [keptRest]; exact stacked.alone.1)
    (by rw [keptRest]; exact stacked.alone.2) enough region
  refine ⟨later, ?_, ?_⟩
  · unfold kernelRegionDestroy
    dsimp only
    rw [blocks.free, stacked.free]
    dsimp only
    rw [joined]
    exact isLater
  · rw [laterCreated]
    apply created.linked.congr
    intro ptr member
    have notRegion : ptr ≠ region :=
      (nodup_append.mp stacked.tiles.nodup).2.2 ptr member region mem_cons_self
    have notRest : ptr ≠ rest := Nat.ne_of_lt
      (stacked.tiles.bounds.1 ptr (mem_append_left _ member)).2.2
    rw [laterFrame ptr notRegion notRest]

def InRegion (cfg : HeapConfig) (heap : KernelAllocator) (region block : Nat) : Prop :=
  region ≤ cfg.address + block * blockSize ∧
    cfg.address + block * blockSize < region + (heap.region region).nblocks * blockSize

/-- The created list has exactly the allocated regions, every other block is in
a region that is reached from the free list, and without allocated regions
everything is as it was at the start. -/
structure Sound (cfg : HeapConfig) (state : HeapState) : Prop where
  created : ∃ regions,
    Linked state.allocator state.allocator.nextCreatedRegion regions ∧
      (regions.map (· + blockSize)).Perm state.live
  free : ∃ regions,
    Linked state.allocator state.allocator.nextFreeRegion regions ∧
      ∀ block < cfg.blocks,
        (∃ area ∈ state.live,
          InRegion cfg state.allocator (area - blockSize) block) ∨
        ∃ region ∈ regions, InRegion cfg state.allocator region block
  emptied : state.live = [] →
    state.allocator.nextCreatedRegion = none ∧
      state.allocator.nextFreeRegion = some cfg.address ∧
      state.allocator.region cfg.address = cfg.initialRegion

theorem Stacked.sound (stacked : Stacked cfg state.allocator regions rest)
    (live : state.live = regions.map (· + blockSize)) :
    Sound cfg state := by
  refine ⟨⟨regions, stacked.created.linked, ?_⟩, ⟨[rest], ?_, ?_⟩, ?_⟩
  · rw [live]
  · exact ⟨stacked.free, stacked.alone.1⟩
  · intro block inside
    have bytes : block * blockSize < cfg.blocks * blockSize :=
      Nat.mul_lt_mul_of_pos_right inside (by decide)
    by_cases before : cfg.address + block * blockSize < rest
    · obtain ⟨region, member, covered⟩ := stacked.tiles.covers (Nat.le_add_right _ _) before
      left
      refine ⟨region + blockSize, ?_, ?_⟩
      · rw [live]
        exact mem_map_of_mem member
      · rw [Nat.add_sub_cancel]
        exact covered
    · right
      refine ⟨rest, mem_cons_self, Nat.le_of_not_lt before, ?_⟩
      rw [stacked.room]
      omega
  · intro isNil
    have noRegions : regions = [] := map_eq_nil_iff.mp (live ▸ isNil)
    subst noRegions
    have isStart : cfg.address = rest := stacked.tiles
    subst isStart
    refine ⟨stacked.created, stacked.free, ?_⟩
    have blocks : (state.allocator.region cfg.address).nblocks =
        cfg.blocks :=
      Nat.eq_of_mul_eq_mul_right (by decide) (Nat.add_left_cancel stacked.room)
    obtain ⟨noNext, noPrev⟩ := stacked.alone
    have status := stacked.status
    cases isRegion : state.allocator.region cfg.address
    rw [isRegion] at blocks noNext noPrev status
    cases blocks
    cases noNext
    cases noPrev
    cases status
    rfl

/-- Every call that frees an area frees a live one. -/
def FreesLive (cfg : HeapConfig) (calls : List HeapCall) : Prop :=
  ∀ before area after state, calls = before ++ .free area :: after →
    heapRun cfg before = some state → area ∈ state.live

/-- Every call that frees an area frees the last one that is live. -/
def FreesLast (cfg : HeapConfig) (calls : List HeapCall) : Prop :=
  ∀ before area after state, calls = before ++ .free area :: after →
    heapRun cfg before = some state → state.live.getLast? = some area

/-- The live areas are those of a stack of regions. -/
def StackState (cfg : HeapConfig) (state : HeapState) : Prop :=
  ∃ regions rest, Stacked cfg state.allocator regions rest ∧
    state.live = regions.map (· + blockSize)

theorem StackState.malloc (stack : StackState cfg state) (size : BitVec 32) :
    ∃ next, heapStep cfg state (.malloc size) = some next ∧ StackState cfg next := by
  obtain ⟨regions, rest, stacked, live⟩ := stack
  unfold heapStep
  rcases stacked.malloc size with failed | ⟨later, next, given, after⟩
  · dsimp only
    rw [failed]
    refine ⟨_, rfl, regions, rest, stacked, ?_⟩
    rw [← live]
    exact append_nil _
  · dsimp only
    rw [given]
    refine ⟨_, rfl, regions ++ [rest], next, after, ?_⟩
    rw [map_append, ← live]
    rfl

theorem areas_nodup {regions : List Nat} (nodup : regions.Nodup) :
    (regions.map (· + blockSize)).Nodup :=
  nodup.map fun _ _ same => Nat.add_right_cancel same

theorem StackState.freeLast (stack : StackState cfg state)
    (last : state.live.getLast? = some area) :
    ∃ next, heapStep cfg state (.free area) = some next ∧ StackState cfg next := by
  obtain ⟨regions, rest, stacked, live⟩ := stack
  rcases eq_nil_or_concat regions with isNil | ⟨before, region, isConcat⟩
  · rw [live, isNil] at last
    cases last
  · rw [concat_eq_append] at isConcat
    subst isConcat
    rw [live, map_append, map_singleton, List.getLast?_concat] at last
    cases last
    obtain ⟨marked, isFree⟩ := stacked.marked region
    obtain ⟨later, isLater, after⟩ := marked.destroy_last isFree
    have nodup := areas_nodup stacked.tiles.nodup
    rw [map_append, map_singleton] at nodup live
    have fresh : region + blockSize ∉ before.map (· + blockSize) :=
      fun member => (nodup_append.mp nodup).2.2 _ member _
        mem_cons_self rfl
    unfold heapStep
    dsimp only
    rw [if_pos (by rw [live]; exact mem_append_right _ mem_cons_self)]
    unfold kernelFree
    dsimp only
    rw [Nat.add_sub_cancel, isLater]
    refine ⟨_, rfl, before, region, after.recount _, ?_⟩
    dsimp only
    rw [live, erase_append_right _ fresh, erase_cons_head, append_nil]

theorem StackState.freeInside (stack : StackState cfg state)
    (isLive : area ∈ state.live) (notLast : state.live.getLast? ≠ some area) :
    ∃ next, heapStep cfg state (.free area) = some next ∧ ¬ Sound cfg next := by
  obtain ⟨regions, rest, stacked, live⟩ := stack
  have member := isLive
  rw [live] at member
  obtain ⟨region, inside, rfl⟩ := mem_map.mp member
  obtain ⟨before, after, rfl⟩ := append_of_mem inside
  cases after with
  | nil =>
    rw [live, map_append, map_singleton, List.getLast?_concat] at notLast
    exact absurd rfl notLast
  | cons second after =>
    obtain ⟨later, isLater, linked⟩ := (stacked.marked region).1.destroy_inside
    unfold heapStep
    dsimp only
    rw [if_pos isLive]
    unfold kernelFree
    dsimp only
    rw [Nat.add_sub_cancel, isLater]
    refine ⟨_, rfl, fun sound => ?_⟩
    obtain ⟨chain, isChain, same⟩ := sound.created
    have cut : Linked later later.nextCreatedRegion chain := isChain.congr fun _ _ => rfl
    have lengths := same.length_eq
    rw [cut.unique linked, length_map, length_erase_of_mem isLive,
      live, length_map, length_append, length_cons,
      length_cons] at lengths
    omega

theorem heapRun_snoc (cfg : HeapConfig) (calls : List HeapCall) (call : HeapCall) :
    heapRun cfg (calls ++ [call]) =
      (heapRun cfg calls).bind fun state => heapStep cfg state call := by
  unfold heapRun
  rw [foldlM_append]
  cases calls.foldlM (heapStep cfg) ⟨memoryCreate cfg, []⟩ with
  | none => rfl
  | some state =>
    change (heapStep cfg state call).bind some = heapStep cfg state call
    cases heapStep cfg state call with
    | none => rfl
    | some next => rfl

theorem FreesLast.shorten (frees : FreesLast cfg (before ++ after)) :
    FreesLast cfg before := by
  rintro first area rest state rfl reached
  exact frees first area (rest ++ after) state (by simp) reached

theorem FreesLive.shorten (frees : FreesLive cfg (before ++ after)) :
    FreesLive cfg before := by
  rintro first area rest state rfl reached
  exact frees first area (rest ++ after) state (by simp) reached

/-- Runs that only free the last area keep the stack. -/
theorem heapRun_stack (frees : FreesLast cfg calls) :
    ∃ state, heapRun cfg calls = some state ∧ StackState cfg state := by
  induction calls using List.reverseRecOn with
  | nil => exact ⟨_, rfl, [], cfg.address, memoryCreate_stacked cfg, rfl⟩
  | append_singleton calls call ih =>
    obtain ⟨state, reached, stack⟩ := ih frees.shorten
    rw [heapRun_snoc, reached]
    cases call with
    | malloc size => exact stack.malloc size
    | free area => exact stack.freeLast (frees calls area [] state rfl reached)

/-- The heap is sound in every state of a run exactly when each call that frees
an area frees the one that was allocated last. -/
theorem heap_loses_nothing_iff (cfg : HeapConfig) {calls : List HeapCall}
    (frees : FreesLive cfg calls) :
    (∀ before, before <+: calls → ∃ state,
        heapRun cfg before = some state ∧ Sound cfg state) ↔
      FreesLast cfg calls := by
  constructor
  · induction calls using List.reverseRecOn with
    | nil =>
      rintro - before area after state impossible
      simp at impossible
    | append_singleton calls call ih =>
      intro sound
      have earlier := ih frees.shorten fun before isPrefix =>
        sound before (isPrefix.trans (prefix_append _ _))
      rintro before area after state same reached
      rcases eq_nil_or_concat after with isNil | ⟨rest, last, isConcat⟩
      · subst isNil
        obtain ⟨rfl, isCall⟩ := append_inj' same rfl
        cases isCall
        obtain ⟨other, otherReached, stack⟩ := heapRun_stack earlier
        cases reached.symm.trans otherReached
        by_contra notLast
        obtain ⟨next, isNext, unsound⟩ := stack.freeInside (frees _ area [] _ rfl reached) notLast
        obtain ⟨final, isFinal, isSound⟩ := sound _ (prefix_refl _)
        rw [heapRun_snoc, reached] at isFinal
        cases isNext.symm.trans isFinal
        exact unsound isSound
      · rw [concat_eq_append] at isConcat
        subst isConcat
        rw [← cons_append, ← append_assoc] at same
        obtain ⟨rfl, -⟩ := append_inj' same rfl
        exact earlier before area rest state rfl reached
  · rintro last before ⟨after, rfl⟩
    obtain ⟨state, reached, regions, rest, stacked, live⟩ := heapRun_stack last.shorten
    exact ⟨state, reached, stacked.sound live⟩

/-- A small heap for examples. -/
def smallHeap : HeapConfig where
  address := 0x1000
  size := 1024
  notNull := by decide
  oneBlock := by decide
  fits := by decide

/-- Three areas, of which the last two are freed and merged with the rest. -/
def stackedCalls : List HeapCall :=
  [.malloc 1, .malloc 40, .malloc 1, .free 0x1100, .free 0x1080]

theorem heap_loses_nothing_iff_three_areas :
    FreesLive smallHeap stackedCalls ∧
      (∀ before, before <+: stackedCalls → ∃ state,
        heapRun smallHeap before = some state ∧ Sound smallHeap state) := by
  have last : FreesLast smallHeap stackedCalls := by
    rintro (_ | ⟨_, _ | ⟨_, _ | ⟨_, _ | ⟨_, _ | ⟨_, before⟩⟩⟩⟩⟩) area after state same reached
    · cases same
    · cases same
    · cases same
    · cases same
      cases reached
      rfl
    · cases same
      cases reached
      rfl
    · have lengths := congrArg List.length same
      simp [stackedCalls] at lengths
  have live : FreesLive smallHeap stackedCalls :=
    fun before area after state same reached =>
      mem_of_getLast? (last before area after state same reached)
  exact ⟨live, (heap_loses_nothing_iff smallHeap live).mpr last⟩

/-- Two areas, and the first one is freed: the second one is no longer in the
created list. -/
theorem second_region_lost :
    ∃ state, heapRun smallHeap [.malloc 1, .malloc 1, .free 0x1020] = some state ∧
      state.live = [0x1080] ∧
      state.allocator.nextCreatedRegion = none ∧
      ¬ Sound smallHeap state := by
  refine ⟨_, rfl, rfl, rfl, fun sound => ?_⟩
  obtain ⟨regions, linked, same⟩ := sound.created
  have isNil : regions = [] := Linked.unique linked rfl
  rw [isNil] at same
  cases same.length_eq

end Reverse.Dnaos
