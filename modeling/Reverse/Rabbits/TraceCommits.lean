import Mathlib.Data.List.Nodup
import Reverse.Library.SlotTable
import Reverse.Rabbits.TraceOrder

/-!
# The commits of the trace port

Every event is committed once, an instruction after all that it generated and
after the instructions before it, whenever the answers of the memory arrive.
The instruction that is committed next is the first of the fifo, or the fifo is
empty and it is the one that is being read.
-/

namespace Reverse.Rabbits

open TraceEvent TracePort List

/-- What has to be committed before an instruction. -/
def Preceded (events : List TraceEvent) (before : List Hwe) (number : Nat) : Prop :=
  (∀ place type, .child number place type ∈ events → .child number place ∈ before) ∧
  ∀ earlier < number, .inst earlier ∈ before

def InOrder (events : List TraceEvent) (committed : List Hwe) : Prop :=
  ∀ before after number, committed = before ++ .inst number :: after → Preceded events before number

section Order

variable {events : List TraceEvent} {committed more before after : List Hwe} {number : Nat}

theorem split_append (parts : committed ++ more = before ++ .inst number :: after) :
    (∃ between, committed = before ++ .inst number :: between) ∨
    ∃ front, before = committed ++ front ∧ more = front ++ .inst number :: after := by
  rcases append_eq_append_iff.mp parts with
    ⟨front, isBefore, isMore⟩ | ⟨behind, isCommitted, isAfter⟩
  · exact .inr ⟨front, isBefore, isMore⟩
  · cases behind with
    | nil =>
      rw [append_nil] at isCommitted
      exact .inr ⟨[], by rw [isCommitted, append_nil], isAfter.symm⟩
    | cons first between =>
      rw [cons_append, List.cons.injEq] at isAfter
      exact .inl ⟨between, isAfter.1 ▸ isCommitted⟩

theorem InOrder.append_children (inOrder : InOrder events committed)
    (noInst : ∀ number, .inst number ∉ more) :
    InOrder events (committed ++ more) := by
  intro before after number parts
  rcases split_append parts with ⟨between, isCommitted⟩ | ⟨front, -, isMore⟩
  · exact inOrder before between number isCommitted
  · apply absurd _ (noInst number)
    rw [isMore]
    exact mem_append_right front mem_cons_self

theorem InOrder.append_inst (inOrder : InOrder events committed)
    (preceded : Preceded events committed number) :
    InOrder events (committed ++ [.inst number]) := by
  intro before after other parts
  rcases split_append parts with
    ⟨between, isCommitted⟩ | ⟨front, isBefore, isInst⟩
  · exact inOrder before between other isCommitted
  · cases front with
    | nil =>
      rw [nil_append, List.cons.injEq, Hwe.inst.injEq] at isInst
      rw [isBefore, append_nil, ← isInst.1]
      exact preceded
    | cons first front =>
      rw [cons_append, List.cons.injEq] at isInst
      exact absurd isInst.2 (by simp)

end Order

/-- A child that has been generated and not committed. -/
def Pending (written : List TraceEvent) (port : TracePort) (number place : Nat) : Prop :=
  (∃ type, .child number place type ∈ written) ∧
  .child number place ∉ port.committed

/-- The slots of an instruction hold its pending children. -/
def Table (written : List TraceEvent) (port : TracePort) (number : Nat) :
    Prop :=
  SlotTable (port.inst number).child (port.inst number).comChild
    (fun place => (port.child number place).childSlot)
    (Pending written port number)

def Tables (written : List TraceEvent) (port : TracePort) (count : Nat) :
    Prop :=
  ∀ number, count ≤ number → Table written port number

/-- The commits so far: `count` instructions of which `closed` have been closed
by their `COMMIT`. -/
structure Logged (events written : List TraceEvent) (port : TracePort)
    (closed count : Nat) : Prop where
  once : port.committed.Nodup
  inOrder : InOrder events port.committed
  insts : ∀ number, .inst number ∈ port.committed ↔ number < count
  acks : ∀ number, (port.inst number).ackCommit = true ↔ number < closed
  types : ∀ number place type, .child number place type ∈ written →
    (port.child number place).type = type
  children : ∀ number place, .child number place ∈ port.committed →
    (∃ type, .child number place type ∈ written) ∧
    ((port.child number place).type = .memAck ∨
      (port.child number place).rcvack = true)

section Commits

variable {events written : List TraceEvent} {port later : TracePort}
  {closed count number place : Nat} {inst : HweInst}

theorem Table.frame (table : Table written port number)
    (sameInst : later.inst number = port.inst number)
    (sameChild : later.child number = port.child number)
    (sameCommitted : ∀ place, .child number place ∈ later.committed ↔
      .child number place ∈ port.committed) :
    Table written later number := by
  unfold Table
  rw [sameInst, sameChild]
  refine table.congr ?_ (fun _ _ => rfl)
  intro place
  unfold Pending
  rw [sameCommitted place]

section

variable (logged : Logged events written port closed count)

include logged

theorem Logged.frame (sameCommitted : later.committed = port.committed)
    (sameInst : later.inst = port.inst) (sameChild : later.child = port.child)
    : Logged events written later closed count where
  once := sameCommitted ▸ logged.once
  inOrder := sameCommitted ▸ logged.inOrder
  insts := sameCommitted ▸ logged.insts
  acks := sameInst ▸ logged.acks
  types := sameChild ▸ logged.types
  children := by
    rw [sameCommitted, sameChild]
    exact logged.children

theorem Logged.child_committed (isCommitted : number < count)
    (isEvent : .child number place type ∈ events) :
    .child number place ∈ port.committed := by
  obtain ⟨before, after, parts⟩ := append_of_mem ((logged.insts number).mpr isCommitted)
  have preceded := logged.inOrder before after number parts
  rw [parts]
  exact mem_append_left _ (preceded.1 place type isEvent)

theorem Logged.setInst (sameAck : inst.ackCommit = (port.inst number).ackCommit) :
    Logged events written (port.setInst number inst) closed count where
  once := logged.once
  inOrder := logged.inOrder
  insts := logged.insts
  acks other := by
    by_cases same : other = number
    · rw [same, setInst_same, sameAck]
      exact logged.acks number
    · rw [setInst_other same]
      exact logged.acks other
  types := logged.types
  children := logged.children

theorem Logged.commitChildren (places : List Nat) (distinct : places.Nodup)
    (pending : ∀ place ∈ places, Pending written port number place)
    (ready : ∀ place ∈ places, (port.child number place).type = .memAck ∨
      (port.child number place).rcvack = true) :
    Logged events written (port.hweCommit (places.map (.child number))) closed count where
  once := by
    refine nodup_append.mpr ⟨logged.once, ?_, ?_⟩
    · exact List.Nodup.map (fun _ _ same => (Hwe.child.inj same).2) distinct
    · rintro hwe isCommitted other isNew rfl
      obtain ⟨place, isPlace, rfl⟩ := mem_map.mp isNew
      exact (pending place isPlace).2 isCommitted
  inOrder := by
    refine logged.inOrder.append_children ?_
    intro number isThere
    obtain ⟨place, -, isChild⟩ := mem_map.mp isThere
    exact Hwe.noConfusion isChild
  insts other := by
    rw [← logged.insts other]
    unfold TracePort.hweCommit
    rw [mem_append]
    refine or_iff_left ?_
    intro isThere
    obtain ⟨place, -, isChild⟩ := mem_map.mp isThere
    exact Hwe.noConfusion isChild
  acks := logged.acks
  types := logged.types
  children other place isThere := by
    rcases mem_append.mp isThere with isCommitted | isNew
    · exact logged.children other place isCommitted
    · obtain ⟨place', isPlace, isChild⟩ := mem_map.mp isNew
      obtain ⟨rfl, rfl⟩ := Hwe.child.inj isChild
      exact ⟨(pending place' isPlace).1, ready place' isPlace⟩

theorem Logged.commitInst (children : ∀ place type, .child count place type ∈ events →
      .child count place ∈ port.committed) :
    Logged events written (port.hweCommit [.inst count]) closed (count + 1) where
  once := by
    refine nodup_append.mpr ⟨logged.once, nodup_singleton _, ?_⟩
    rintro hwe isCommitted other isNew rfl
    rw [mem_singleton] at isNew
    rw [isNew] at isCommitted
    exact Nat.lt_irrefl count ((logged.insts count).mp isCommitted)
  inOrder := logged.inOrder.append_inst
    ⟨children, fun earlier below => (logged.insts earlier).mpr below⟩
  insts number := by
    unfold TracePort.hweCommit
    rw [mem_append, logged.insts number, mem_singleton, Hwe.inst.injEq]
    omega
  acks := logged.acks
  types := logged.types
  children number place isThere := by
    rcases mem_append.mp isThere with isCommitted | isNew
    · exact logged.children number place isCommitted
    · rw [mem_singleton] at isNew
      exact Hwe.noConfusion isNew

/-- A pending child is committed out of turn. -/
theorem Logged.commitChild (pending : Pending written port number place)
    (ready : (port.child number place).type = .memAck ∨ (port.child number place).rcvack = true) :
    Logged events written
      ((port.delChild number place).hweCommit [.child number place])
      closed count := by
  have deleted : Logged events written (port.delChild number place) closed
      count := logged.setInst rfl
  refine deleted.commitChildren [place] (nodup_singleton _) ?_ ?_
  · intro other isOther
    rw [mem_singleton.mp isOther]
    exact pending
  · intro other isOther
    rw [mem_singleton.mp isOther]
    exact ready

end

theorem Tables.setInst (tables : Tables written port count)
    (sameChild : inst.child = (port.inst number).child)
    (sameMark : inst.comChild = (port.inst number).comChild) :
    Tables written (port.setInst number inst) count := by
  intro other above
  by_cases same : other = number
  · unfold Table
    rw [same, setInst_same, sameChild, sameMark, ← same]
    exact tables other above
  · exact (tables other above).frame (setInst_other same) rfl (fun _ => Iff.rfl)

theorem Tables.commitChild (tables : Tables written port count)
    (above : count ≤ number) (pending : Pending written port number place) :
    Tables written
      ((port.delChild number place).hweCommit [.child number place])
      count := by
  intro other otherAbove
  by_cases same : other = number
  · rw [same]
    have taken := (tables number above).take pending
    have itsInst : ((port.delChild number place).hweCommit
        [.child number place]).inst number = _ := setInst_same
    unfold Table
    rw [itsInst]
    refine taken.congr ?_ (fun _ _ => rfl)
    intro otherPlace
    unfold Pending TracePort.hweCommit
    rw [mem_append, mem_singleton, Hwe.child.injEq]
    constructor
    · intro isPending
      exact ⟨⟨isPending.1, fun isThere => isPending.2 (.inl isThere)⟩,
        fun samePlace => isPending.2 (.inr ⟨rfl, samePlace⟩)⟩
    · rintro ⟨⟨isWritten, notCommitted⟩, differ⟩
      exact ⟨isWritten, fun isThere => isThere.elim notCommitted (fun isNew => differ isNew.2)⟩
  · refine (tables other otherAbove).frame (setInst_other same) rfl ?_
    intro otherPlace
    refine mem_append.trans (or_iff_left ?_)
    intro isNew
    exact same (Hwe.child.inj (mem_singleton.mp isNew)).1

theorem commitChildren_parts (port : TracePort) (number : Nat) :
    ∀ (slots : List (Option Nat)) (index : Nat),
    ∃ front back, slots = front ++ back ∧
      (port.commitChildren number index slots).1 = front.reduceOption.map (.child number) ∧
      (∀ place, some place ∈ front →
        (port.child number place).type = .memAck ∨ (port.child number place).rcvack = true) ∧
      (back = [] ∧ (port.commitChildren number index slots).2 = none ∨
        ∃ place, some place ∈ back ∧
          (port.child number place).type = .request ∧
          (port.child number place).rcvack = false ∧
          (port.commitChildren number index slots).2 = some (index + front.length)) := by
  intro slots
  induction slots with
  | nil =>
    intro index
    refine ⟨[], [], rfl, rfl, ?_, .inl ⟨rfl, rfl⟩⟩
    intro place isThere
    exact absurd isThere not_mem_nil
  | cons slot slots ih =>
    intro index
    obtain ⟨front, back, parts, log, ready, stop⟩ := ih (index + 1)
    cases slot with
    | none =>
      refine ⟨none :: front, back, congrArg _ parts, ?_, ?_, ?_⟩
      · rw [reduceOption_cons_of_none]
        exact log
      · intro place isThere
        exact ready place ((mem_cons.mp isThere).resolve_left (Option.some_ne_none place))
      · rw [length_cons, Nat.add_comm front.length, ← Nat.add_assoc]
        exact stop
    | some place =>
      by_cases isReady : (port.child number place).type = .memAck ∨
          (port.child number place).rcvack = true
      · refine ⟨some place :: front, back, congrArg _ parts, ?_, ?_, ?_⟩
        · rw [reduceOption_cons_of_some, TracePort.commitChildren, if_pos isReady, map_cons, ← log]
        · intro other isThere
          rcases mem_cons.mp isThere with isFirst | isLater
          · rw [Option.some.inj isFirst]
            exact isReady
          · exact ready other isLater
        · rw [length_cons, Nat.add_comm front.length,
            ← Nat.add_assoc, TracePort.commitChildren, if_pos isReady]
          exact stop
      · have waits := not_or.mp isReady
        refine ⟨[], some place :: slots, rfl, ?_, ?_, .inr ⟨place, mem_cons_self, ?_, ?_, ?_⟩⟩
        · rw [TracePort.commitChildren, if_neg isReady]
          rfl
        · intro other isThere
          exact absurd isThere not_mem_nil
        · cases isType : (port.child number place).type with
          | request => rfl
          | memAck => exact absurd isType waits.1
        · exact eq_false_of_ne_true waits.2
        · rw [TracePort.commitChildren, if_neg isReady]
          rfl

/-- What commits of the instruction `count` and its children change. -/
structure Committing (events written : List TraceEvent)
    (port later : TracePort) (closed count next : Nat) : Prop where
  logged : Logged events written later closed next
  tables : Tables written later next
  queue : later.queue = port.queue
  child : later.child = port.child
  held : later.heldEvents = port.heldEvents
  added : ∀ number place, .child number place ∈ later.committed →
    number = count ∨ .child number place ∈ port.committed

section Front

variable {front back : List (Option Nat)}

theorem mem_committed_front (hwe : Hwe) :
    hwe ∈ (port.hweCommit (front.reduceOption.map (.child number))).committed ↔
      hwe ∈ port.committed ∨ ∃ place, some place ∈ front ∧ .child number place = hwe := by
  unfold TracePort.hweCommit
  rw [mem_append, mem_map]
  simp only [reduceOption_mem_iff]

theorem child_committed_front (other place : Nat) :
    .child other place ∈
      (port.hweCommit (front.reduceOption.map (.child number))).committed ↔
      .child other place ∈ port.committed ∨ other = number ∧ some place ∈ front := by
  rw [mem_committed_front]
  refine or_congr_right ?_
  constructor
  · rintro ⟨place', inFront, isChild⟩
    obtain ⟨sameNumber, samePlace⟩ := Hwe.child.inj isChild
    exact ⟨sameNumber.symm, samePlace ▸ inFront⟩
  · rintro ⟨sameNumber, inFront⟩
    exact ⟨place, inFront, by rw [sameNumber]⟩

theorem Logged.commitFront (logged : Logged events written port closed count)
    (table : Table written port number)
    (parts : (port.inst number).child.drop (port.inst number).comChild = front ++ back)
    (ready : ∀ place, some place ∈ front →
      (port.child number place).type = .memAck ∨ (port.child number place).rcvack = true) :
    Logged events written
      (port.hweCommit (front.reduceOption.map (.child number))) closed
      count := by
  refine logged.commitChildren _ (table.nodup parts) ?_ ?_
  · intro place isThere
    rw [table.pending_iff, parts]
    exact mem_append_left _ (reduceOption_mem_iff.mp isThere)
  · intro place isThere
    exact ready place (reduceOption_mem_iff.mp isThere)

theorem pending_front :
    Pending written
      (port.hweCommit (front.reduceOption.map (.child number))) number place ↔
      Pending written port number place ∧ some place ∉ front := by
  unfold Pending
  rw [child_committed_front, and_assoc]
  refine and_congr_right (fun _ => ?_)
  rw [not_or]
  refine and_congr_right (fun _ => not_congr ?_)
  exact and_iff_right rfl

theorem Tables.commitFront (tables : Tables written port count)
    (slots : SlotTable inst.child inst.comChild
      (fun place => (port.child count place).childSlot)
      (Pending written (port.hweCommit (front.reduceOption.map (.child count))) count)) :
    Tables written ((port.hweCommit
      (front.reduceOption.map (.child count))).setInst count inst) count := by
  intro number above
  by_cases same : number = count
  · unfold Table
    rw [same, setInst_same]
    exact slots
  · refine (tables number above).frame (setInst_other same) rfl ?_
    intro place
    refine (child_committed_front number place).trans (or_iff_left ?_)
    exact fun isNew => same isNew.1

end Front

theorem commitEvent_cases (logged : Logged events written port closed count)
    (tables : Tables written port count) (complete : count < closed → ∀ place type,
      .child count place type ∈ events → .child count place type ∈ written) :
    (∃ later, Committing events written port later closed count count ∧
      (∃ place, .child count place .request ∈ written ∧ (port.child count place).rcvack = false) ∧
      port.commitEvent count =
        if port.heldEvents.head? = some count then
          .ok (.failWaitMemAck, later)
        else if port.heldEvents.length = fifoSize then .error .fifoFull
        else .ok (.failWaitMemAck, { later with heldEvents := port.heldEvents ++ [count] })) ∨
    (∃ later, Committing events written port later closed count count ∧
      closed ≤ count ∧
      port.commitEvent count = .ok (.failWaitComAck, later)) ∨
    ∃ later, Committing events written port later closed count (count + 1) ∧
      count < closed ∧ port.commitEvent count = .ok (.succ, later) := by
  have table := tables count (Nat.le_refl count)
  obtain ⟨front, back, parts, log, ready, stop⟩ := commitChildren_parts port
    count ((port.inst count).child.drop (port.inst count).comChild)
    (port.inst count).comChild
  have committed := logged.commitFront table parts ready
  have added : ∀ number place, .child number place ∈ (port.hweCommit
        (front.reduceOption.map (.child count))).committed →
      number = count ∨ .child number place ∈ port.committed := by
    intro number place isThere
    rw [child_committed_front] at isThere
    exact isThere.elim .inr (fun isNew => .inl isNew.1)
  rcases stop with
    ⟨noneBehind, isNone⟩ | ⟨place, behind, isRequest, waits, isSome⟩
  · rw [noneBehind, append_nil] at parts
    have nothing : ∀ place, ¬ Pending written (port.hweCommit
        (front.reduceOption.map (.child count))) count place := by
      intro place isPending
      obtain ⟨wasPending, notFront⟩ := pending_front.mp isPending
      rw [table.pending_iff, parts] at wasPending
      exact notFront wasPending
    cases isAck : (port.inst count).ackCommit with
    | false =>
      refine .inr (.inl ⟨(port.hweCommit
          (front.reduceOption.map (.child count))).setInst count
            { port.inst count with comChild := 0, child := [] },
        ⟨committed.setInst rfl, tables.commitFront (.empty _ nothing), rfl,
          rfl, rfl, added⟩, ?_, ?_⟩)
      · by_contra isClosed
        have wasAck := (logged.acks count).mpr (Nat.lt_of_not_le isClosed)
        rw [isAck] at wasAck
        exact Bool.false_ne_true wasAck
      · simp only [TracePort.commitEvent, log, isNone, isAck, Bool.false_eq_true, if_false]
    | true =>
      have isClosed := (logged.acks count).mp isAck
      refine .inr (.inr ⟨_, ⟨committed.commitInst ?_, ?_, rfl, rfl, rfl, ?_⟩, isClosed, ?_⟩)
      · intro place type isEvent
        by_contra notCommitted
        exact nothing place ⟨⟨type, complete isClosed place type isEvent⟩, notCommitted⟩
      · intro number above
        have differ : number ≠ count := by omega
        refine (tables number (by omega)).frame rfl rfl ?_
        intro place
        rw [TracePort.hweCommit, mem_append, child_committed_front]
        constructor
        · rintro ((isThere | isNew) | isInst)
          · exact isThere
          · exact absurd isNew.1 differ
          · exact Hwe.noConfusion (mem_singleton.mp isInst)
        · exact fun isThere => .inl (.inl isThere)
      · intro number place isThere
        rcases mem_append.mp isThere with isThere | isInst
        · exact added number place isThere
        · exact Hwe.noConfusion (mem_singleton.mp isInst)
      · simp only [TracePort.commitEvent, log, isNone, isAck, if_true]
  · have advanced : SlotTable (port.inst count).child
        ((port.inst count).comChild + front.length)
        (fun place => (port.child count place).childSlot)
        (Pending written (port.hweCommit (front.reduceOption.map (.child count))) count) :=
      (table.advance parts).congr (fun _ => pending_front) (fun _ _ => rfl)
    obtain ⟨type, isWritten⟩ := (table.pending_iff.mpr (parts ▸ mem_append_right front behind)).1
    have isType := logged.types count place type isWritten
    rw [isRequest] at isType
    refine .inl ⟨(port.hweCommit
        (front.reduceOption.map (.child count))).setInst count
          { port.inst count with
            comChild := (port.inst count).comChild + front.length },
      ⟨committed.setInst rfl, tables.commitFront advanced, rfl, rfl, rfl,
        added⟩, ⟨place, isType ▸ isWritten, waits⟩, ?_⟩
    simp only [TracePort.commitEvent, log, isSome, put, TracePort.hweCommit]
    by_cases isHead : port.heldEvents.head? = some count
    · rw [if_pos isHead, if_pos isHead]
      rfl
    · rw [if_neg isHead, if_neg isHead]
      by_cases isFull : port.heldEvents.length = fifoSize
      · rw [if_pos isFull, if_pos isFull]
        rfl
      · rw [if_neg isFull, if_neg isFull]
        rfl

end Commits

/-- A state between two events of the queue. -/
structure Holding (program : List TracedInst) (done rest : List TraceEvent)
    (port : TracePort) (opened closed count : Nat) : Prop where
  position : Position program done (port.queue ++ rest) opened closed
  count_le : count ≤ closed
  logged : Logged (traceEvents 0 program) (done ++ port.queue) port closed
    count
  tables : Tables (done ++ port.queue) port count
  early : ∀ number place, number ∉ port.heldEvents →
    .child number place .memAck ∈ port.queue →
    .child number place ∉ port.committed

/-- The first instruction that is held waits for its `COMMIT` or for an
answer. -/
def Stuck (done : List TraceEvent) (port : TracePort) (closed : Nat) : Prop :=
  ∀ number, port.heldEvents.head? = some number → number < closed →
    ∃ place, .child number place .request ∈ done ++ port.queue ∧
      (port.child number place).rcvack = false

section Held

variable {program : List TracedInst} {done rest : List TraceEvent}
  {port later : TracePort} {opened closed count : Nat}

section

variable (holding : Holding program done rest port opened closed count)

include holding

theorem Holding.complete (isClosed : count < closed) (place : Nat) (type : ChildType)
    (isEvent : .child count place type ∈ traceEvents 0 program) :
    .child count place type ∈ done ++ port.queue :=
  mem_append_left _ (holding.position.child_done isClosed isEvent)

theorem Holding.not_mem_queue {number place : Nat} (isClosed : number < closed)
    : .child number place type ∉ port.queue := by
  intro isThere
  have isEvent : .child number place type ∈ traceEvents 0 program := by
    rw [holding.position.split]
    exact mem_append_right _ (mem_append_left _ isThere)
  exact not_mem_later (traceEvents_ordered program 0) holding.position.split
    (holding.position.child_done isClosed isEvent)
    (mem_append_left _ isThere)

theorem Holding.committing (committing : Committing (traceEvents 0 program)
      (done ++ port.queue) port later closed count moved)
    (next_le : moved ≤ closed) (held : List Nat)
    (oldest : count ∈ held ∨ count < closed)
    (stay : ∀ number ∈ port.heldEvents, number = count ∨ number ∈ held) :
    Holding program done rest { later with heldEvents := held } opened closed
      moved := by
  have sameQueue := committing.queue
  refine ⟨?_, next_le, ?_, ?_, ?_⟩
  · rw [sameQueue]
    exact holding.position
  · have logged := committing.logged
    rw [← sameQueue] at logged
    exact logged.frame rfl rfl rfl
  · have tables := committing.tables
    rw [← sameQueue] at tables
    exact tables
  · intro number place notHeld isThere isCommitted
    rw [sameQueue] at isThere
    by_cases isCount : number = count
    · rw [isCount] at isThere notHeld
      exact holding.not_mem_queue (oldest.resolve_left notHeld) isThere
    · have wasThere := (committing.added number place isCommitted).resolve_left isCount
      refine holding.early number place ?_ isThere wasThere
      intro wasHeld
      exact (stay number wasHeld).elim isCount notHeld

end

theorem commitHeld_spec (turns : Nat) :
    ∀ {port : TracePort} {count : Nat},
      Holding program done rest port opened closed count →
      port.heldEvents = List.range' count (opened - count) →
      turns = port.heldEvents.length →
      ∃ later next, TracePort.commitHeld turns port = .ok later ∧
        Holding program done rest later opened closed next ∧
        later.heldEvents = List.range' next (opened - next) ∧
        later.queue = port.queue ∧ Stuck done later closed := by
  induction turns with
  | zero =>
    intro port count holding shape isLength
    refine ⟨port, count, rfl, holding, shape, rfl, ?_⟩
    intro number isHead
    rw [length_eq_zero_iff.mp isLength.symm] at isHead
    simp only [List.head?_nil, reduceCtorEq] at isHead
  | succ turns ih =>
    intro port count holding shape isLength
    have isOpened : opened - count = turns + 1 := by
      rw [isLength, shape, length_range']
    have isHeld : port.heldEvents = count :: List.range' (count + 1) turns := by
      rw [shape, isOpened, List.range'_succ]
    have isHead : port.heldEvents.head? = some count := by
      rw [isHeld, List.head?_cons]
    have isMember : count ∈ port.heldEvents := by
      rw [isHeld]
      exact mem_cons_self
    rcases commitEvent_cases holding.logged holding.tables holding.complete
      with ⟨later, committing, ⟨place, isWritten, waits⟩, isEvent⟩ |
        ⟨later, committing, notClosed, isEvent⟩ |
        ⟨later, committing, isClosed, isEvent⟩
    · rw [if_pos isHead] at isEvent
      have sameHeld := committing.held
      refine ⟨later, count, ?_, ?_, sameHeld.trans shape, committing.queue, ?_⟩
      · rw [TracePort.commitHeld, isHeld]
        dsimp only
        rw [isEvent]
        rfl
      · have kept := holding.committing committing holding.count_le
          port.heldEvents (.inl isMember) (fun _ => .inr)
        rw [← sameHeld] at kept
        exact kept
      · intro number isFirst _
        rw [sameHeld, isHead, Option.some.injEq] at isFirst
        rw [← isFirst, committing.queue, committing.child]
        exact ⟨place, isWritten, waits⟩
    · have sameHeld := committing.held
      refine ⟨later, count, ?_, ?_, sameHeld.trans shape, committing.queue, ?_⟩
      · rw [TracePort.commitHeld, isHeld]
        dsimp only
        rw [isEvent]
        rfl
      · have kept := holding.committing committing holding.count_le
          port.heldEvents (.inl isMember) (fun _ => .inr)
        rw [← sameHeld] at kept
        exact kept
      · intro number isFirst isClosed
        rw [sameHeld, isHead, Option.some.injEq] at isFirst
        omega
    · have isTail : later.heldEvents.tail = List.range' (count + 1) (opened - (count + 1)) := by
        rw [committing.held, isHeld, tail_cons]
        congr 1
        omega
      have kept := holding.committing committing isClosed
        later.heldEvents.tail (.inr isClosed) (by
          intro number wasHeld
          rw [committing.held, isHeld, tail_cons]
          rw [isHeld] at wasHeld
          exact mem_cons.mp wasHeld)
      obtain ⟨last, next, isRun, heldLast, shapeLast, sameQueue, stuck⟩ :=
        ih kept isTail (by
          dsimp only
          rw [isTail, length_range']
          omega)
      refine ⟨last, next, ?_, heldLast, shapeLast, sameQueue.trans committing.queue, stuck⟩
      rw [TracePort.commitHeld, isHeld]
      dsimp only
      rw [isEvent]
      exact isRun

end Held

end Reverse.Rabbits
