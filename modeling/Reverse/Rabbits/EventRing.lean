import Reverse.Library.RingQueue

/-!
# The event ring of a processor

The queue between QEMU and SystemC, with the functions of `trace_power.c` that
put events and those of `qemu_trace_port.cpp` that get them.  Both sides compare
the field `last_op` to tell a full ring from an empty one.
-/

namespace Reverse.Rabbits

open List

inductive TrBufOp where
  | read
  | write
  deriving DecidableEq

/-- The structure `qemu_tr_buf_t`. -/
structure QemuTrBuf (α : Type) where
  size : Nat
  head : Nat
  tail : Nat
  data : Nat → α
  lastOp : TrBufOp

/-- The constant `TR_EVNT_BUF_SIZE`. -/
def trEvntBufSize : Nat := 2 ^ 16

variable {α : Type}

/-- The array is not initialised. -/
def trInitQueue (data : Nat → α) : QemuTrBuf α :=
  ⟨trEvntBufSize, 0, 0, data, .read⟩

def trIsFullQueue (trBuf : QemuTrBuf α) : Bool :=
  trBuf.head = trBuf.tail && trBuf.lastOp = .write

def trUpdateHeadQueue (trBuf : QemuTrBuf α) : QemuTrBuf α :=
  { trBuf with head := (trBuf.head + 1) &&& (trBuf.size - 1) }

def trPutEventQueue (trBuf : QemuTrBuf α) (cont : α) : Option α × QemuTrBuf α :=
  if trIsFullQueue trBuf then (none, trBuf)
  else
    (some cont, trUpdateHeadQueue { trBuf with data := Function.update trBuf.data trBuf.head cont })

def isEmpty (buf : QemuTrBuf α) : Bool :=
  buf.head = buf.tail && buf.lastOp = .read

def updateTail (buf : QemuTrBuf α) : QemuTrBuf α :=
  { buf with tail := (buf.tail + 1) &&& (buf.size - 1) }

def getEventQueue (buf : QemuTrBuf α) : Option α × QemuTrBuf α :=
  if isEmpty buf then (none, buf)
  else (some (buf.data buf.tail), updateTail buf)

inductive RingCall (α : Type) where
  | put (cont : α)
  | get

def ringStep (buf : QemuTrBuf α) : RingCall α → Option α × QemuTrBuf α
  | .put cont => trPutEventQueue buf cont
  | .get => getEventQueue buf

/-- What the calls of both sides return, in the order of the calls. -/
def ringRun (buf : QemuTrBuf α) : List (RingCall α) → List (Option α) × QemuTrBuf α
  | [] => ([], buf)
  | call :: calls =>
    let (result, buf) := ringStep buf call
    let (results, buf) := ringRun buf calls
    (result :: results, buf)

/-- The bounded queue that the ring is meant to be. -/
def queueStep (capacity : Nat) (queue : List α) : RingCall α → Option α × List α
  | .put cont =>
    if queue.length = capacity then (none, queue)
    else (some cont, queue ++ [cont])
  | .get => (queue.head?, queue.tail)

def queueRun (capacity : Nat) (queue : List α) : List (RingCall α) → List (Option α) × List α
  | [] => ([], queue)
  | call :: calls =>
    let (result, queue) := queueStep capacity queue call
    let (results, queue) := queueRun capacity queue calls
    (result :: results, queue)

/-- The ring has returned what the queue returns, and is found full or empty
when the queue is. -/
structure RingAgrees (ring : List (Option α) × QemuTrBuf α)
    (queue : List (Option α) × List α) : Prop where
  results : ring.1 = queue.1
  full : trIsFullQueue ring.2 = true ↔ queue.2.length = ring.2.size
  empty : isEmpty ring.2 = true ↔ queue.2 = []

/-- The ring holds a queue, and nothing has changed `last_op`. -/
structure RingHolds (buf : QemuTrBuf α) (queue : List α) : Prop where
  size : buf.size = trEvntBufSize
  lastOp : buf.lastOp = .read
  holds : RingQueue.Holds buf.data buf.size buf.tail buf.head queue

theorem mask_eq_mod (index : Nat) : index &&& (trEvntBufSize - 1) = index % trEvntBufSize :=
  Nat.and_two_pow_sub_one_eq_mod index 16

theorem trInitQueue_holds (data : Nat → α) : RingHolds (trInitQueue data) [] :=
  ⟨rfl, rfl, .empty data (Nat.two_pow_pos 16)⟩

theorem RingHolds.not_full (ring : RingHolds buf queue) : trIsFullQueue buf = false := by
  unfold trIsFullQueue
  rw [ring.lastOp]
  exact Bool.and_false _

theorem RingHolds.isEmpty_iff (ring : RingHolds buf queue) :
    isEmpty buf = true ↔ queue = [] ∨ queue.length = buf.size := by
  unfold isEmpty
  rw [ring.lastOp, ← ring.holds.same_indices]
  simp

theorem RingHolds.put (ring : RingHolds buf queue)
    (room : queue.length < trEvntBufSize) (cont : α) :
    (trPutEventQueue buf cont).1 = some cont ∧
      RingHolds (trPutEventQueue buf cont).2 (queue ++ [cont]) := by
  unfold trPutEventQueue
  rw [ring.not_full, if_neg Bool.false_ne_true]
  refine ⟨rfl, ring.size, ring.lastOp, ?_⟩
  have pushed := ring.holds.push (ring.size ▸ room) cont
  unfold trUpdateHeadQueue
  dsimp only
  rw [ring.size] at pushed ⊢
  rw [mask_eq_mod]
  exact pushed

theorem RingHolds.get (ring : RingHolds buf queue) (room : queue.length < trEvntBufSize) :
    (getEventQueue buf).1 = queue.head? ∧ RingHolds (getEventQueue buf).2 queue.tail := by
  unfold getEventQueue
  cases queue with
  | nil =>
    rw [if_pos (ring.isEmpty_iff.mpr (Or.inl rfl))]
    exact ⟨rfl, ring⟩
  | cons first rest =>
    have notEmpty : isEmpty buf ≠ true := by
      intro isEmpty
      rcases ring.isEmpty_iff.mp isEmpty with isNil | isFull
      · cases isNil
      · rw [isFull, ring.size] at room
        exact Nat.lt_irrefl _ room
    rw [if_neg notEmpty]
    obtain ⟨isFirst, popped⟩ := ring.holds.pop
    refine ⟨congrArg some isFirst, ring.size, ring.lastOp, ?_⟩
    unfold updateTail
    dsimp only
    rw [ring.size] at popped ⊢
    rw [mask_eq_mod]
    exact popped

/-- One call of either side, while the ring is not full. -/
theorem RingHolds.step
    (ring : RingHolds buf queue) (room : queue.length < trEvntBufSize) (call : RingCall α) :
    (ringStep buf call).1 = (queueStep trEvntBufSize queue call).1 ∧
      RingHolds (ringStep buf call).2 (queueStep trEvntBufSize queue call).2 := by
  cases call with
  | put cont =>
    unfold queueStep
    dsimp only
    rw [if_neg (Nat.ne_of_lt room)]
    exact ring.put room cont
  | get => exact ring.get room

/-- All calls, as long as the ring is not full before one of them. -/
theorem RingHolds.run (calls : List (RingCall α)) :
    ∀ {buf : QemuTrBuf α} {queue : List α}, RingHolds buf queue →
      (∀ before call, before ++ [call] <+: calls →
        (queueRun trEvntBufSize queue before).2.length < trEvntBufSize) →
      (ringRun buf calls).1 = (queueRun trEvntBufSize queue calls).1 ∧
        RingHolds (ringRun buf calls).2 (queueRun trEvntBufSize queue calls).2 := by
  induction calls with
  | nil =>
    intro buf queue ring _
    exact ⟨rfl, ring⟩
  | cons call calls ih =>
    intro buf queue ring room
    have first := room [] call (prefix_append [call] calls)
    obtain ⟨sameResult, later⟩ := ring.step first call
    obtain ⟨sameResults, last⟩ := ih later fun before next isPrefix =>
      room (call :: before) next (cons_prefix_cons.mpr ⟨rfl, isPrefix⟩)
    exact ⟨congrArg₂ List.cons sameResult sameResults, last⟩

theorem RingHolds.agrees (holds : RingHolds ring.2 queue.2)
    (same : ring.1 = queue.1) (room : queue.2.length < trEvntBufSize) :
    RingAgrees ring queue := by
  refine ⟨same, ?_, ?_⟩
  · rw [holds.not_full, holds.size]
    exact ⟨nofun, fun isFull => absurd isFull (Nat.ne_of_lt room)⟩
  · refine holds.isEmpty_iff.trans ⟨?_, Or.inl⟩
    rintro (isNil | isFull)
    · exact isNil
    · rw [isFull, holds.size] at room
      exact absurd room (Nat.lt_irrefl _)

/-- A ring with as many events as places is found empty. -/
theorem RingHolds.full_disagrees (holds : RingHolds ring.2 queue.2)
    (isFull : queue.2.length = trEvntBufSize) : ¬RingAgrees ring queue := by
  intro agrees
  have found : isEmpty ring.2 = true :=
    holds.isEmpty_iff.mpr (Or.inr (isFull.trans holds.size.symm))
  rw [agrees.empty.mp found] at isFull
  cases isFull

/-- If the ring agrees with the queue after all calls so far, the queue was
never full. -/
theorem ringAgrees_room (data : Nat → α) (calls : List (RingCall α))
    (agrees : ∀ before, before <+: calls →
      RingAgrees (ringRun (trInitQueue data) before) (queueRun trEvntBufSize [] before)) :
    (queueRun trEvntBufSize [] calls).2.length < trEvntBufSize := by
  -- There was room before each call, so that the ring still holds the queue.
  induction isLength : calls.length using Nat.strong_induction_on generalizing calls with
  | _ length ih =>
    obtain ⟨-, ring⟩ := (trInitQueue_holds data).run calls
      fun before call isPrefix => by
        have isShorter : before <+: calls := (prefix_append before [call]).trans isPrefix
        have less : before.length < length := by
          have bound := isPrefix.length_le
          rw [length_append, length_singleton] at bound
          omega
        exact ih before.length less before
          (fun earlier isEarlier =>
            agrees earlier (isEarlier.trans isShorter)) rfl
    have fits := ring.holds.fits
    rw [ring.size] at fits
    rcases Nat.lt_or_eq_of_le fits with room | isFull
    · exact room
    · exact absurd (agrees calls prefix_rfl) (ring.full_disagrees isFull)

/-- The ring is a bounded queue along a sequence of calls exactly if the queue
is never full. -/
theorem event_ring_fifo_iff (data : Nat → α) (calls : List (RingCall α)) :
    (∀ before, before <+: calls →
      RingAgrees (ringRun (trInitQueue data) before) (queueRun trEvntBufSize [] before)) ↔
      ∀ before, before <+: calls → (queueRun trEvntBufSize [] before).2.length < trEvntBufSize := by
  constructor
  · intro agrees before isPrefix
    apply ringAgrees_room data before
    intro earlier isEarlier
    exact agrees earlier (isEarlier.trans isPrefix)
  · intro room before isPrefix
    obtain ⟨same, ring⟩ := (trInitQueue_holds data).run before
      fun earlier call isEarlier => room earlier
        ((prefix_append earlier [call]).trans (isEarlier.trans isPrefix))
    exact ring.agrees same (room before isPrefix)

theorem queueRun_puts (conts : List α) :
    ∀ queue : List α, queue.length + conts.length ≤ trEvntBufSize →
      (queueRun trEvntBufSize queue (conts.map RingCall.put)).2 = queue ++ conts := by
  induction conts with
  | nil =>
    intro queue _
    exact (append_nil queue).symm
  | cons cont conts ih =>
    intro queue fits
    rw [length_cons] at fits
    have notFull : queue.length ≠ trEvntBufSize := by omega
    have isNext : queueStep trEvntBufSize queue (.put cont) = (some cont, queue ++ [cont]) :=
      if_neg notFull
    rw [map_cons]
    unfold queueRun
    rw [isNext]
    dsimp only
    rw [ih (queue ++ [cont]) (by simp; omega), append_assoc]
    rfl

/-- As many puts as there are places. -/
def fillingCalls : List (RingCall Nat) :=
  (List.replicate trEvntBufSize 0).map RingCall.put

theorem fillingCalls_queue :
    (queueRun trEvntBufSize [] fillingCalls).2 = List.replicate trEvntBufSize 0 :=
  queueRun_puts (List.replicate trEvntBufSize 0) [] (by simp)

theorem fillingCalls_room (before : List (RingCall Nat))
    (call : RingCall Nat) (isPrefix : before ++ [call] <+: fillingCalls) :
    (queueRun trEvntBufSize [] before).2.length < trEvntBufSize := by
  have isShorter : before <+: fillingCalls := (prefix_append before [call]).trans isPrefix
  have less : before.length < trEvntBufSize := by
    have bound := isPrefix.length_le
    simp only [fillingCalls, length_append, length_singleton, length_map, length_replicate] at bound
    exact bound
  have isBefore : before = (List.replicate before.length 0).map RingCall.put := by
    have taken := prefix_iff_eq_take.mp isShorter
    rw [fillingCalls, ← map_take, take_replicate, Nat.min_eq_left (Nat.le_of_lt less)] at taken
    exact taken
  rw [isBefore, queueRun_puts _ [] (by simp; omega)]
  simpa using less

/-- After as many puts as there are places the ring is found empty. -/
theorem full_ring_found_empty :
    (queueRun trEvntBufSize [] fillingCalls).2.length = trEvntBufSize ∧
      isEmpty (ringRun (trInitQueue fun _ => 0) fillingCalls).2 = true ∧
      ¬RingAgrees (ringRun (trInitQueue fun _ => 0) fillingCalls)
        (queueRun trEvntBufSize [] fillingCalls) := by
  obtain ⟨-, ring⟩ := (trInitQueue_holds fun _ => 0).run fillingCalls fillingCalls_room
  have isFull : (queueRun trEvntBufSize [] fillingCalls).2.length =
      trEvntBufSize := by
    rw [fillingCalls_queue, length_replicate]
  refine ⟨isFull, ?_, ring.full_disagrees isFull⟩
  exact ring.isEmpty_iff.mpr (Or.inr (isFull.trans ring.size.symm))

end Reverse.Rabbits
