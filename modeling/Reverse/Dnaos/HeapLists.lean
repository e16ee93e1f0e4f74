import Reverse.Library.LinkedList
import Reverse.Dnaos.Heap

/-!
# The lists of the kernel heap

What the operations on the created list and on the free list do to headers.  A
region is taken out of the created list together with everything behind it.
-/

namespace Reverse.Dnaos

open LinkedList Option
open KernelAllocator (setNext setPrev setRegion_self setRegion_other)

/-- The regions that are reached from a pointer. -/
def Linked (heap : KernelAllocator) : Option Nat → List Nat → Prop
  | ptr, [] => ptr = none
  | ptr, region :: regions =>
    ptr = some region ∧ Linked heap (heap.region region).next regions

/-- The same, with pointers back; `prev` is the region before the list. -/
def DoublyLinked (heap : KernelAllocator) : Option Nat → Option Nat → List Nat → Prop
  | _, ptr, [] => ptr = none
  | prev, ptr, region :: regions =>
    ptr = some region ∧ (heap.region region).prev = prev ∧
      DoublyLinked heap (some region) (heap.region region).next regions

/-- Regions one behind the other from an address to another one. -/
def Tiles (heap : KernelAllocator) : Nat → List Nat → Nat → Prop
  | start, [], stop => start = stop
  | start, region :: regions, stop =>
    region = start ∧ 0 < (heap.region region).nblocks ∧
      Tiles heap (start + (heap.region region).nblocks * blockSize) regions stop

theorem Linked.unique (isLeft : Linked heap ptr left)
    (isRight : Linked heap ptr right) : left = right := by
  induction left generalizing ptr right with
  | nil =>
    cases right with
    | nil => rfl
    | cons region regions => cases isLeft.symm.trans isRight.1
  | cons region left ih =>
    cases right with
    | nil => cases isRight.symm.trans isLeft.1
    | cons other right =>
      cases isLeft.1.symm.trans isRight.1
      rw [ih isLeft.2 isRight.2]

theorem DoublyLinked.linked (doubly : DoublyLinked heap prev ptr regions) :
    Linked heap ptr regions := by
  induction regions generalizing prev ptr with
  | nil => exact doubly
  | cons region regions ih => exact ⟨doubly.1, ih doubly.2.2⟩

theorem Linked.congr (linked : Linked heap ptr regions)
    (same : ∀ region ∈ regions, (later.region region).next = (heap.region region).next) :
    Linked later ptr regions := by
  induction regions generalizing ptr with
  | nil => exact linked
  | cons region regions ih =>
    refine ⟨linked.1, ?_⟩
    rw [same region List.mem_cons_self]
    exact ih linked.2 fun other member =>
      same other (List.mem_cons_of_mem _ member)

theorem doublyLinked_iff :
    DoublyLinked heap prev ptr regions ↔
      Segment (fun region => (heap.region region).next)
        (fun region => (heap.region region).prev) prev ptr regions
        none := by
  induction regions generalizing prev ptr with
  | nil => exact Iff.rfl
  | cons region regions ih => exact and_congr_right' (and_congr_right' ih)

theorem DoublyLinked.congr (doubly : DoublyLinked heap prev ptr regions) (same : ∀ region ∈ regions,
      (later.region region).next = (heap.region region).next ∧
        (later.region region).prev = (heap.region region).prev) :
    DoublyLinked later prev ptr regions :=
  doublyLinked_iff.mpr ((doublyLinked_iff.mp doubly).congr
    (fun region member => (same region member).1)
    (fun region member => (same region member).2))

theorem DoublyLinked.split (doubly : DoublyLinked heap prev ptr (before ++ region :: after)) :
    (heap.region region).prev = before.getLast?.or prev ∧
      (heap.region region).next = after.head? ∧
      ptr = (before ++ region :: after).head? := by
  have segment := doublyLinked_iff.mp doubly
  obtain ⟨middle, -, -, isPrev, rest⟩ := segment_append.mp segment
  refine ⟨isPrev, rest.ptr_eq.trans ?_, segment.ptr_eq.trans ?_⟩
  · rw [or_none]
  · rw [or_none]

theorem DoublyLinked.change_end (doubly : DoublyLinked heap prev ptr (before ++ last :: rest))
    (ends : DoublyLinked later (some last) (later.region last).next rest')
    (next : ∀ region ∈ before, (later.region region).next = (heap.region region).next)
    (back : ∀ region ∈ before ++ [last],
      (later.region region).prev = (heap.region region).prev) :
    DoublyLinked later prev ptr (before ++ last :: rest') := by
  obtain ⟨middle, front, isPtr, isPrev, -⟩ := segment_append.mp (doublyLinked_iff.mp doubly)
  have isFront := front.congr next fun region member => back region (List.mem_append_left _ member)
  refine doublyLinked_iff.mpr (segment_append.mpr
    ⟨middle, isFront, isPtr, ?_, doublyLinked_iff.mp ends⟩)
  exact (back last (List.mem_append_right _ List.mem_cons_self)).trans isPrev

theorem Tiles.congr (tiles : Tiles heap start regions stop)
    (same : ∀ region ∈ regions, (later.region region).nblocks = (heap.region region).nblocks) :
    Tiles later start regions stop := by
  induction regions generalizing start with
  | nil => exact tiles
  | cons region regions ih =>
    obtain ⟨isStart, positive, rest⟩ := tiles
    have own := same region List.mem_cons_self
    refine ⟨isStart, own ▸ positive, ?_⟩
    rw [own]
    exact ih rest fun other member =>
      same other (List.mem_cons_of_mem _ member)

theorem Tiles.append :
    Tiles heap start (left ++ right) stop ↔
      ∃ middle, Tiles heap start left middle ∧ Tiles heap middle right stop := by
  induction left generalizing start with
  | nil =>
    refine ⟨fun tiles => ⟨start, rfl, tiles⟩, ?_⟩
    rintro ⟨middle, rfl, tiles⟩
    exact tiles
  | cons region left ih =>
    constructor
    · rintro ⟨isStart, positive, rest⟩
      obtain ⟨middle, isLeft, isRight⟩ := ih.mp rest
      exact ⟨middle, ⟨isStart, positive, isLeft⟩, isRight⟩
    · rintro ⟨middle, ⟨isStart, positive, isLeft⟩, isRight⟩
      exact ⟨isStart, positive, ih.mpr ⟨middle, isLeft, isRight⟩⟩

section

variable (tiles : Tiles heap start regions stop)

include tiles

theorem Tiles.bounds :
    (∀ region ∈ regions, start ≤ region ∧
        region + (heap.region region).nblocks * blockSize ≤ stop ∧
        region < stop) ∧
      start + regions.length * blockSize ≤ stop := by
  induction regions generalizing start with
  | nil =>
    cases tiles
    exact ⟨nofun, by rw [List.length_nil, Nat.zero_mul]; exact Nat.le_refl _⟩
  | cons region regions ih =>
    obtain ⟨rfl, positive, rest⟩ := tiles
    obtain ⟨inside, room⟩ := ih rest
    have size : blockSize ≤ (heap.region region).nblocks * blockSize :=
      Nat.le_mul_of_pos_left _ positive
    have bytes : 0 < blockSize := by decide
    constructor
    · intro other member
      rcases List.mem_cons.mp member with rfl | later
      · omega
      · have bounds := inside other later
        omega
    · rw [List.length_cons, Nat.succ_mul]
      omega

theorem Tiles.nodup : regions.Nodup := by
  induction regions generalizing start with
  | nil => exact .nil
  | cons region regions ih =>
    obtain ⟨rfl, positive, rest⟩ := tiles
    refine List.nodup_cons.mpr ⟨fun member => ?_, ih rest⟩
    have after := (rest.bounds.1 region member).1
    have size : blockSize ≤ (heap.region region).nblocks * blockSize :=
      Nat.le_mul_of_pos_left _ positive
    have bytes : 0 < blockSize := by decide
    omega

theorem Tiles.covers (above : start ≤ addr) (below : addr < stop) :
    ∃ region ∈ regions, region ≤ addr ∧
      addr < region + (heap.region region).nblocks * blockSize := by
  induction regions generalizing start with
  | nil =>
    cases tiles
    omega
  | cons region regions ih =>
    obtain ⟨rfl, -, rest⟩ := tiles
    by_cases here : addr < region + (heap.region region).nblocks * blockSize
    · exact ⟨region, List.mem_cons_self, above, here⟩
    · obtain ⟨other, member, inside⟩ := ih rest (Nat.le_of_not_lt here)
      exact ⟨other, List.mem_cons_of_mem _ member, inside⟩

end

/-- The sizes, the status and the free list are as before. -/
structure SameBlocks (heap later : KernelAllocator) : Prop where
  nblocks : ∀ ptr,
    (later.region ptr).nblocks = (heap.region ptr).nblocks
  status : ∀ ptr, (later.region ptr).status = (heap.region ptr).status
  free : later.nextFreeRegion = heap.nextFreeRegion

theorem SameBlocks.trans (left : SameBlocks first second) (right : SameBlocks second third) :
    SameBlocks first third :=
  ⟨fun ptr => (right.nblocks ptr).trans (left.nblocks ptr),
    fun ptr => (right.status ptr).trans (left.status ptr),
    right.free.trans left.free⟩

section Fields

variable (heap : KernelAllocator) (ptr other : Nat)

theorem KernelAllocator.field_setRegion (field : Region → β) (region : Region) :
    field ((heap.setRegion ptr region).region other) =
      if other = ptr then field region else field (heap.region other) := by
  by_cases same : other = ptr
  · rw [if_pos same, same, setRegion_self]
  · rw [if_neg same, setRegion_other same]

theorem KernelAllocator.field_setRegion_kept {β : Type} {field : Region → β}
    {region : Region} (kept : field region = field (heap.region ptr)) :
    field ((heap.setRegion ptr region).region other) = field (heap.region other) := by
  rw [field_setRegion heap ptr other field]
  split
  · next same => rw [kept, same]
  · rfl

theorem sameBlocks_setNext (next : Option Nat) :
    SameBlocks heap (heap.setNext ptr next) :=
  ⟨fun _ => KernelAllocator.field_setRegion_kept _ _ _ rfl,
    fun _ => KernelAllocator.field_setRegion_kept _ _ _ rfl, rfl⟩

theorem sameBlocks_setPrev (prev : Option Nat) :
    SameBlocks heap (heap.setPrev ptr prev) :=
  ⟨fun _ => KernelAllocator.field_setRegion_kept _ _ _ rfl,
    fun _ => KernelAllocator.field_setRegion_kept _ _ _ rfl, rfl⟩

end Fields

theorem detachNext_spec (other : (heap.region region).next ≠ some region) :
    SameBlocks heap (detachNext heap region) ∧
      (detachNext heap region).nextCreatedRegion = heap.nextCreatedRegion ∧
      ((detachNext heap region).region region).next = none ∧
      ((detachNext heap region).region region).prev = (heap.region region).prev ∧
      ∀ ptr, ptr ≠ region → (heap.region region).next ≠ some ptr →
        (detachNext heap region).region ptr = heap.region ptr := by
  unfold detachNext
  cases isNext : (heap.region region).next with
  | none =>
    exact ⟨⟨fun _ => rfl, fun _ => rfl, rfl⟩, rfl, isNext, rfl, fun _ _ _ => rfl⟩
  | some next =>
    have differ : region ≠ next := fun same =>
      other (by rw [isNext, same])
    refine ⟨(sameBlocks_setPrev ..).trans (sameBlocks_setNext ..), rfl, ?_,
      ?_, fun ptr notRegion notNext => ?_⟩
    · dsimp only
      rw [setNext, setRegion_self]
    · dsimp only
      rw [setNext, setRegion_self, setPrev, setRegion_other differ]
    · dsimp only
      have notSecond : ptr ≠ next := fun same => notNext (by rw [same])
      rw [setNext, setRegion_other notRegion, setPrev, setRegion_other notSecond]

/-- The created list ends before the region that is taken out. -/
theorem unlinkCreated_spec
    (doubly : DoublyLinked heap none heap.nextCreatedRegion (before ++ region :: after))
    (nodup : (before ++ region :: after).Nodup) :
    SameBlocks heap (unlinkCreated heap region) ∧
      DoublyLinked (unlinkCreated heap region) none
        (unlinkCreated heap region).nextCreatedRegion before ∧
      ((unlinkCreated heap region).region region).next = none ∧
      ((unlinkCreated heap region).region region).prev = none ∧
      ∀ ptr ∉ before ++ region :: after,
        (unlinkCreated heap region).region ptr = heap.region ptr := by
  obtain ⟨isPrev, isNext, isHead⟩ := doubly.split
  rw [or_none] at isPrev
  obtain ⟨notBefore, inside, apart⟩ := List.nodup_append.mp nodup
  have notAfter := (List.nodup_cons.mp inside).1
  have other : (heap.region region).next ≠ some region := by
    rw [isNext]
    exact fun same => notAfter (List.mem_of_head? same)
  obtain ⟨blocks, created, noNext, samePrev, frame⟩ := detachNext_spec other
  have kept : ∀ ptr, ptr ≠ region → ptr ∉ after →
      (detachNext heap region).region ptr = heap.region ptr := by
    intro ptr notRegion outside
    apply frame ptr notRegion
    rw [isNext]
    exact fun same => outside (List.mem_of_head? same)
  unfold unlinkCreated detachPrev
  rw [samePrev, isPrev, noNext]
  rcases List.eq_nil_or_concat before with isNil | ⟨earlier, last, isConcat⟩
  · subst isNil
    rw [List.getLast?_nil] at isPrev ⊢
    refine ⟨⟨blocks.nblocks, blocks.status, blocks.free⟩, rfl, noNext,
      samePrev.trans isPrev, fun ptr outside => ?_⟩
    exact kept ptr (fun same => outside (same ▸ List.mem_cons_self))
      (fun member => outside (List.mem_cons_of_mem _ member))
  · rw [List.concat_eq_append] at isConcat
    subst isConcat
    rw [List.getLast?_concat]
    dsimp only
    have isLast : last ∈ earlier ++ [last] := List.mem_append_right _ List.mem_cons_self
    have notRegion : ∀ ptr ∈ earlier ++ [last], ptr ≠ region :=
      fun ptr member => apart ptr member region List.mem_cons_self
    have outside : ∀ ptr ∈ earlier ++ [last], ptr ∉ after :=
      fun ptr member isAfter =>
        apart ptr member ptr (List.mem_cons_of_mem _ isAfter) rfl
    have notLast : ∀ ptr ∈ earlier, ptr ≠ last := fun ptr member =>
      (List.nodup_append.mp notBefore).2.2 ptr member last List.mem_cons_self
    refine ⟨blocks.trans ((sameBlocks_setNext ..).trans
      (sameBlocks_setPrev ..)), ?_, ?_, ?_, fun ptr notMember => ?_⟩
    · rw [List.append_assoc] at doubly
      change DoublyLinked _ none (detachNext heap region).nextCreatedRegion _
      rw [created]
      apply doubly.change_end
      · rw [setPrev, setRegion_other (notRegion last isLast), setNext, setRegion_self]
        rfl
      · intro ptr member
        have inBefore := List.mem_append_left [last] member
        rw [setPrev,
          setRegion_other (notRegion ptr inBefore),
          setNext,
          setRegion_other (notLast ptr member),
          kept ptr (notRegion ptr inBefore) (outside ptr inBefore)]
      · intro ptr member
        rw [setPrev,
          setRegion_other (notRegion ptr member),
          setNext, ← kept ptr (notRegion ptr member) (outside ptr member)]
        by_cases same : ptr = last
        · rw [same, setRegion_self]
        · rw [setRegion_other same]
    · rw [setPrev, setRegion_self,
        setNext,
        setRegion_other (notRegion last isLast).symm, noNext]
    · rw [setPrev, setRegion_self]
    · rw [List.mem_append, List.mem_cons] at notMember
      push Not at notMember
      obtain ⟨notInBefore, notThis, notInAfter⟩ := notMember
      have notTheLast : ptr ≠ last := by
        rintro rfl
        exact notInBefore isLast
      rw [setPrev, setRegion_other notThis,
        setNext, setRegion_other notTheLast,
        kept ptr notThis notInAfter]

theorem lastCreated_eq (linked : Linked heap (some first) (before ++ [last]))
    (enough : before.length < depth) :
    lastCreated heap depth first = some last := by
  induction before generalizing first depth with
  | nil =>
    obtain ⟨same, ends⟩ := linked
    cases depth with
    | zero => cases enough
    | succ depth =>
      have ended : (heap.region last).next = none := ends
      rw [some.inj same, lastCreated, ended]
  | cons region before ih =>
    obtain ⟨same, rest⟩ := linked
    rw [some.inj same]
    cases depth with
    | zero => cases enough
    | succ depth =>
      cases isNext : (heap.region region).next with
      | none =>
        rw [isNext] at rest
        cases before with
        | nil => cases rest.1
        | cons second before => cases rest.1
      | some next =>
        rw [isNext] at rest
        rw [lastCreated, isNext]
        exact ih rest (Nat.lt_of_succ_lt_succ enough)

theorem addCreated_spec (created : DoublyLinked heap none heap.nextCreatedRegion regions)
    (nodup : regions.Nodup) (fresh : region ∉ regions)
    (alone : (heap.region region).next = none ∧ (heap.region region).prev = none)
    (enough : regions.length ≤ depth) :
    ∃ later, addCreated depth heap region = some later ∧
      SameBlocks heap later ∧
      DoublyLinked later none later.nextCreatedRegion (regions ++ [region]) ∧
      ∀ ptr ∉ regions ++ [region], later.region ptr = heap.region ptr := by
  unfold addCreated
  rcases List.eq_nil_or_concat regions with isNil | ⟨before, last, isConcat⟩
  · subst isNil
    rw [show heap.nextCreatedRegion = none from created]
    exact ⟨_, rfl, ⟨fun _ => rfl, fun _ => rfl, rfl⟩, ⟨rfl, alone.2, alone.1⟩, fun _ _ => rfl⟩
  · rw [List.concat_eq_append] at isConcat
    subst isConcat
    cases isFirst : heap.nextCreatedRegion with
    | none =>
      rw [isFirst] at created
      cases before with
      | nil => cases created.1
      | cons second before => cases created.1
    | some first =>
      rw [isFirst] at created
      have isLast : last ∈ before ++ [last] := List.mem_append_right _ List.mem_cons_self
      have notRegion : ∀ ptr ∈ before ++ [last], ptr ≠ region :=
        fun ptr member same => fresh (same ▸ member)
      have notLast : ∀ ptr ∈ before, ptr ≠ last := fun ptr member =>
        (List.nodup_append.mp nodup).2.2 ptr member last List.mem_cons_self
      rw [List.length_append, List.length_singleton] at enough
      dsimp only
      rw [lastCreated_eq created.linked enough, map_some]
      refine ⟨_, rfl, (sameBlocks_setNext ..).trans
        (sameBlocks_setPrev ..), ?_, fun ptr outside => ?_⟩
      · change DoublyLinked _ none heap.nextCreatedRegion _
        rw [isFirst, List.append_assoc]
        apply created.change_end
        · rw [setPrev, setRegion_other (notRegion last isLast), setNext, setRegion_self]
          refine ⟨rfl, ?_, ?_⟩
          · rw [setRegion_self]
          · rw [setRegion_self, setRegion_other (notRegion last isLast).symm]
            exact alone.1
        · intro ptr member
          rw [setPrev, setRegion_other (notRegion ptr (List.mem_append_left _ member)),
            setNext,
            setRegion_other (notLast ptr member)]
        · intro ptr member
          rw [setPrev,
            setRegion_other (notRegion ptr member),
            setNext]
          by_cases same : ptr = last
          · rw [same, setRegion_self]
          · rw [setRegion_other same]
      · rw [List.mem_append, List.mem_singleton] at outside
        push Not at outside
        have notTheLast : ptr ≠ last := by
          rintro rfl
          exact outside.1 isLast
        rw [setPrev,
          setRegion_other outside.2,
          setNext,
          setRegion_other notTheLast]

/-- The only free region is split. -/
theorem splitFirst_spec (last : (heap.region current).next = none)
    (differ : current + required * blockSize ≠ current) :
    (splitFirst heap current required).nextFreeRegion = none ∧
      (splitFirst heap current required).nextCreatedRegion = heap.nextCreatedRegion ∧
      (splitFirst heap current required).region current = ⟨required, .allocated, none, none⟩ ∧
      (splitFirst heap current required).region (current + required * blockSize) =
        { heap.region (current + required * blockSize) with
          nblocks := (heap.region current).nblocks - required
          status := .free } ∧
      ∀ ptr, ptr ≠ current → ptr ≠ current + required * blockSize →
        (splitFirst heap current required).region ptr = heap.region ptr := by
  unfold splitFirst
  rw [last]
  dsimp only
  refine ⟨last, rfl, setRegion_self .., ?_, fun ptr notCurrent notNext => ?_⟩
  · rw [setRegion_other differ, setRegion_self]
  · rw [setRegion_other notCurrent, setRegion_other notNext]

theorem orderFree_empty (empty : heap.nextFreeRegion = none) (depth region : Nat) :
    ∃ later, orderFree depth heap region = some later ∧
      later.nextFreeRegion = some region ∧
      later.nextCreatedRegion = heap.nextCreatedRegion ∧
      later.region region = { heap.region region with next := none, prev := none } ∧
      ∀ ptr, ptr ≠ region → later.region ptr = heap.region ptr := by
  unfold orderFree
  rw [empty]
  refine ⟨_, rfl, rfl, rfl, ?_, fun ptr differ => ?_⟩
  · dsimp only
    rw [setNext, setRegion_self, setPrev, setRegion_self]
  · dsimp only
    rw [setNext, setRegion_other differ, setPrev, setRegion_other differ]

theorem orderFree_alone (isFirst : heap.nextFreeRegion = some first)
    (noNext : (heap.region first).next = none)
    (noPrev : (heap.region first).prev = none) (enough : 0 < depth) (region : Nat) :
    ∃ later, orderFree depth heap region = some later ∧
      later.nextCreatedRegion = heap.nextCreatedRegion ∧
      ∀ ptr, ptr ≠ region → ptr ≠ first → later.region ptr = heap.region ptr := by
  unfold orderFree
  rw [isFirst]
  cases depth with
  | zero => cases enough
  | succ depth =>
    dsimp only
    rw [freePlace, noNext, map_some]
    refine ⟨_, rfl, ?_, fun ptr notRegion notFirst => ?_⟩
    · split
      · rw [noPrev]
        rfl
      · rfl
    · split
      · rw [noPrev]
        dsimp only
        rw [setPrev, setRegion_other notFirst]
        dsimp only
        rw [setNext,
          setRegion_other notRegion,
          setPrev,
          setRegion_other notRegion]
      · rw [setNext,
          setRegion_other notRegion,
          setPrev, setRegion_other notRegion,
          setNext, setRegion_other notFirst]

theorem unlinkFree_alone (noNext : (heap.region ptr).next = none)
    (noPrev : (heap.region ptr).prev = none) :
    unlinkFree heap ptr = { heap with nextFreeRegion := none } := by
  unfold unlinkFree
  rw [noPrev, noNext]
  dsimp only
  rw [noNext]

/-- A region that reaches the only free one is joined with it. -/
theorem joinFree_alone {heap : KernelAllocator} {region ptr vrsize depth : Nat}
    (noNext : (heap.region ptr).next = none)
    (noPrev : (heap.region ptr).prev = none) (less : region < ptr)
    (reaches : region + vrsize = ptr) (enough : 0 < depth) :
    joinFree region vrsize depth heap region (some ptr) =
      some ({ heap.setNblocks region
          ((heap.region region).nblocks + (heap.region ptr).nblocks) with
        nextFreeRegion := none }, region) := by
  have kept : (heap.setNblocks region
      ((heap.region region).nblocks +
        (heap.region ptr).nblocks)).region ptr = heap.region ptr :=
    setRegion_other (Nat.ne_of_gt less) ..
  cases depth with
  | zero => cases enough
  | succ depth =>
    rw [joinFree, if_neg (by omega), if_pos reaches]
    dsimp only
    rw [unlinkFree_alone (by rw [kept]; exact noNext) (by rw [kept]; exact noPrev)]
    dsimp only
    rw [kept, noNext, joinFree]

/-- A region that does not touch the only free one is left alone. -/
theorem joinFree_apart {heap : KernelAllocator} {region ptr vrsize depth : Nat}
    (noNext : (heap.region ptr).next = none) (less : region < ptr)
    (apart : region + vrsize ≠ ptr) (enough : 0 < depth) :
    joinFree region vrsize depth heap region (some ptr) = some (heap, region) := by
  cases depth with
  | zero => cases enough
  | succ depth =>
    rw [joinFree, if_neg (by omega), if_neg apart]
    dsimp only
    rw [noNext, joinFree]

end Reverse.Dnaos
