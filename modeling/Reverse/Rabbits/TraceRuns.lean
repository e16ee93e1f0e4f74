import Reverse.Rabbits.TraceCommits

/-!
# Runs of the trace port

The processor writes events, the port reads them and the memory answers
requests, in any order.  One invariant is kept by every step; it gives the
order of the commits and that nothing is left uncommitted.
-/

namespace Reverse.Rabbits

open TraceEvent TracePort List

/-- The instructions that are held are those that have been read and not
committed, or the fifo is empty and only the last one can be missing. -/
def HeldShape (port : TracePort) (opened closed count : Nat) : Prop :=
  port.heldEvents = List.range' count (opened - count) ∨
  port.heldEvents = [] ∧ count = closed

def TraceInvariant (program : List TracedInst) (port : TracePort) (rest : List TraceEvent) : Prop :=
  ∃ done opened closed count,
    Holding program done rest port opened closed count ∧
    HeldShape port opened closed count ∧ Stuck done port closed

section Steps

variable {program : List TracedInst} {done rest queue : List TraceEvent}
  {port : TracePort} {opened closed count number place cycles : Nat}
  {event : TraceEvent}

theorem Holding.count_eq (holding : Holding program done rest port opened closed count)
    (shape : HeldShape port opened closed count)
    (isEmpty : port.heldEvents = []) : count = closed := by
  rcases shape with isRange | ⟨-, isClosed⟩
  · rw [isEmpty, eq_comm, List.range'_eq_nil_iff] at isRange
    have closed_le := holding.position.closed_le
    have count_le := holding.count_le
    omega
  · exact isClosed

theorem stuck_of_empty (isEmpty : port.heldEvents = []) : Stuck done port closed := by
  intro number isHead
  simp only [isEmpty, List.head?_nil, reduceCtorEq] at isHead

theorem commitHeldEvents_keeps (holding : Holding program done rest port opened closed count)
    (shape : HeldShape port opened closed count) (notEmpty : port.heldEvents ≠ []) :
    ∃ later, port.commitHeldEvents = .ok later ∧ later.queue = port.queue ∧
      TraceInvariant program later rest := by
  have isRange := shape.resolve_right (fun isEmpty => notEmpty isEmpty.1)
  obtain ⟨later, next, isRun, heldLater, shapeLater, sameQueue, stuck⟩ :=
    commitHeld_spec port.heldEvents.length holding isRange rfl
  exact ⟨later, isRun, sameQueue, done, opened, closed, next, heldLater, .inl shapeLater, stuck⟩

theorem Holding.read (holding : Holding program done rest port opened closed count)
    (isQueue : port.queue = event :: queue)
    (position : Position program (done ++ [event]) (queue ++ rest) opened' closed) :
    Holding program (done ++ [event]) rest { port with queue := queue } opened'
      closed count := by
  have sameWritten : done ++ port.queue = (done ++ [event]) ++ queue := by
    rw [isQueue, append_assoc, singleton_append]
  have logged := holding.logged
  have tables := holding.tables
  rw [sameWritten] at logged tables
  refine ⟨position, holding.count_le, logged.frame rfl rfl rfl, tables, ?_⟩
  intro number place notHeld isThere
  refine holding.early number place notHeld ?_
  rw [isQueue]
  exact mem_cons_of_mem event isThere

theorem stuck_read (stuck : Stuck done port closed) (isQueue : port.queue = event :: queue) :
    Stuck (done ++ [event]) { port with queue := queue } closed := by
  intro number isHead isClosed
  have waits := stuck number isHead isClosed
  rw [isQueue, ← singleton_append, ← append_assoc] at waits
  exact waits

section

variable (holding : Holding program done rest port opened closed count)

include holding

theorem Holding.position_read (isQueue : port.queue = event :: queue) :
    Position program done (event :: (queue ++ rest)) opened closed := by
  have position := holding.position
  rw [isQueue] at position
  exact position

theorem readInst_keeps (shape : HeldShape port opened closed count) (stuck : Stuck done port closed)
    (isQueue : port.queue = .inst number cycles :: queue) :
    { port with queue := queue }.consumeEvent (.inst number cycles) =
        .error .fifoFull ∨
      ∃ later, { port with queue := queue }.consumeEvent
          (.inst number cycles) = .ok (cycles, later) ∧
        later.queue = queue ∧ TraceInvariant program later rest := by
  obtain ⟨isClosed, isOpened, position⟩ := (holding.position_read isQueue).next_inst
  have read := holding.read isQueue position
  have stuckRead := stuck_read stuck isQueue
  by_cases isEmpty : port.heldEvents = []
  · refine .inr ⟨{ port with queue := queue }, ?_, rfl, _, _, _, _, read,
      .inr ⟨isEmpty, holding.count_eq shape isEmpty⟩, stuckRead⟩
    rw [consumeEvent, if_pos isEmpty]
  · by_cases isFull : port.heldEvents.length = fifoSize
    · left
      rw [consumeEvent, if_neg isEmpty, put, if_pos isFull]
      rfl
    · refine .inr ⟨{ port with
          queue := queue, heldEvents := port.heldEvents ++ [number] },
        ?_, rfl, done ++ [.inst number cycles], closed + 1, closed, count,
        ?_, .inl ?_, ?_⟩
      · rw [consumeEvent, if_neg isEmpty, put, if_neg isFull]
        rfl
      · refine ⟨read.position, read.count_le, read.logged.frame rfl rfl rfl, read.tables, ?_⟩
        intro other place notHeld
        exact read.early other place (fun wasHeld => notHeld (mem_append_left _ wasHeld))
      · have isRange := shape.resolve_right (fun isEmpty' => isEmpty isEmpty'.1)
        have count_le := holding.count_le
        have isLast : count + (closed - count) = number := by omega
        dsimp only
        rw [isRange, isOpened, Nat.sub_add_comm count_le, List.range'_1_concat, isLast]
      · intro other isHead
        obtain ⟨first, tail, isHeld⟩ := exists_cons_of_ne_nil isEmpty
        dsimp only at isHead
        rw [isHeld, cons_append, List.head?_cons] at isHead
        refine stuckRead other ?_
        dsimp only
        rw [isHeld, List.head?_cons]
        exact isHead

theorem Holding.commitChild (above : count ≤ number)
    (pending : Pending (done ++ port.queue) port number place)
    (ready : (port.child number place).type = .memAck ∨ (port.child number place).rcvack = true)
    (notQueued : .child number place .memAck ∉ port.queue) :
    Holding program done rest
      ((port.delChild number place).hweCommit [.child number place])
      opened closed count := by
  refine ⟨holding.position, holding.count_le,
    holding.logged.commitChild pending ready,
    holding.tables.commitChild above pending, ?_⟩
  intro other otherPlace notHeld isThere isCommitted
  rcases mem_append.mp isCommitted with wasThere | isNew
  · exact holding.early other otherPlace notHeld isThere wasThere
  · obtain ⟨rfl, rfl⟩ := Hwe.child.inj (mem_singleton.mp isNew)
    exact notQueued isThere

/-- An acknowledgement that is read is committed unless something is held. -/
theorem readChild_keeps (shape : HeldShape port opened closed count)
    (stuck : Stuck done port closed) (isQueue : port.queue = .child number place type :: queue) :
    ∃ later, { port with queue := queue }.consumeEvent
        (.child number place type) = .ok (0, later) ∧
      later.queue = queue ∧ TraceInvariant program later rest := by
  have position := (holding.position_read isQueue).next_child
  have read := holding.read isQueue position
  have stuckRead := stuck_read stuck isQueue
  have same : TraceInvariant program { port with queue := queue } rest :=
    ⟨_, _, _, _, read, shape, stuckRead⟩
  cases type with
  | request => exact ⟨{ port with queue := queue }, rfl, rfl, same⟩
  | memAck =>
    by_cases isEmpty : port.heldEvents = []
    · have isClosed : number = closed :=
        ((holding.position_read isQueue).next_belongs Nat.zero_lt_one).1
      have isCount := holding.count_eq shape isEmpty
      have isQueued : .child number place .memAck ∈ port.queue := by
        rw [isQueue]
        exact mem_cons_self
      have pending : Pending ((done ++ [.child number place .memAck]) ++
          queue) { port with queue := queue } number place := by
        refine ⟨⟨.memAck, ?_⟩, ?_⟩
        · exact mem_append_left _ (mem_append_right _ (mem_singleton_self _))
        · refine holding.early number place ?_ isQueued
          rw [isEmpty]
          exact not_mem_nil
      have isType : (port.child number place).type = .memAck :=
        holding.logged.types number place .memAck (mem_append_right _ isQueued)
      have notQueued : .child number place .memAck ∉ queue :=
        fun isThere => not_mem_later (traceEvents_ordered program 0)
          position.split
          (mem_append_right _ (mem_singleton_self _))
          (mem_append_left _ isThere)
      exact ⟨_, if_pos isEmpty, rfl, _, _, _, _,
        read.commitChild (by omega) pending (.inl isType) notQueued,
        .inr ⟨isEmpty, isCount⟩, stuck_of_empty isEmpty⟩
    · exact ⟨{ port with queue := queue }, if_neg isEmpty, rfl, same⟩

theorem Holding.readCommit (isQueue : port.queue = .commit number :: queue) :
    Holding program (done ++ [.commit number]) rest
      ({ port with queue := queue }.setInst number
        { port.inst number with ackCommit := true })
      (closed + 1) (closed + 1) count := by
  have position := holding.position_read isQueue
  have isClosed : number = closed := (position.next_belongs Nat.zero_lt_two).1
  have sameWritten : done ++ port.queue = (done ++ [.commit number]) ++ queue := by
    rw [isQueue, append_assoc, singleton_append]
  have logged := holding.logged
  have tables := holding.tables
  rw [sameWritten] at logged tables
  refine ⟨position.next_commit, Nat.le_succ_of_le holding.count_le,
    ⟨logged.once, logged.inOrder, logged.insts, ?_, logged.types, logged.children⟩, ?_, ?_⟩
  · intro other
    by_cases same : other = number
    · rw [same, setInst_same]
      simp only [isClosed, Nat.lt_add_one]
    · rw [setInst_other same]
      have before := logged.acks other
      dsimp only
      rw [before]
      omega
  · have kept : Tables ((done ++ [.commit number]) ++ queue)
        { port with queue := queue } count := tables
    exact kept.setInst rfl rfl
  · intro other place notHeld isThere
    refine holding.early other place notHeld ?_
    rw [isQueue]
    exact mem_cons_of_mem _ isThere

/-- An instruction that is closed while nothing is held is committed or is the
first to be held. -/
theorem commitEvent_keeps (isOpened : opened = count + 1)
    (isClosed : closed = count + 1) (isEmpty : port.heldEvents = []) :
    ∃ outcome later, port.commitEvent count = .ok (outcome, later) ∧
      later.queue = port.queue ∧ TraceInvariant program later rest := by
  rcases commitEvent_cases holding.logged holding.tables holding.complete with
    ⟨later, committing, ⟨place, isWritten, waits⟩, isEvent⟩ |
      ⟨later, committing, notClosed, isEvent⟩ |
      ⟨later, committing, -, isEvent⟩
  · have noHead : ¬ port.heldEvents.head? = some count := by
      simp only [isEmpty, List.head?_nil, reduceCtorEq, not_false_eq_true]
    have notFull : ¬ port.heldEvents.length = fifoSize := by
      simp only [isEmpty, length_nil, fifoSize, Nat.reduceEqDiff, not_false_eq_true]
    have isHeld : port.heldEvents ++ [count] = [count] := by
      rw [isEmpty, nil_append]
    rw [if_neg noHead, if_neg notFull, isHeld] at isEvent
    refine ⟨_, { later with heldEvents := [count] }, isEvent, committing.queue,
      done, opened, closed, count,
      holding.committing committing holding.count_le [count]
        (.inl (mem_singleton_self count)) ?_, .inl ?_, ?_⟩
    · intro other wasHeld
      rw [isEmpty] at wasHeld
      exact absurd wasHeld not_mem_nil
    · rw [isOpened, Nat.add_sub_cancel_left]
      rfl
    · intro other isHead _
      have isOther : count = other := Option.some.inj isHead
      rw [← isOther]
      dsimp only
      rw [committing.queue, committing.child]
      exact ⟨place, isWritten, waits⟩
  · omega
  · have laterEmpty : later.heldEvents = [] := committing.held.trans isEmpty
    have kept := holding.committing committing (Nat.le_of_eq isClosed.symm)
      later.heldEvents (.inr (by omega)) (by
        intro other wasHeld
        rw [isEmpty] at wasHeld
        exact absurd wasHeld not_mem_nil)
    exact ⟨_, later, isEvent, committing.queue, done, opened, closed,
      count + 1, kept, .inr ⟨laterEmpty, isClosed.symm⟩,
      stuck_of_empty laterEmpty⟩

theorem readCommit_keeps (shape : HeldShape port opened closed count)
    (isQueue : port.queue = .commit number :: queue) :
    ∃ later, { port with queue := queue }.consumeEvent (.commit number) =
        .ok (0, later) ∧
      later.queue = queue ∧ TraceInvariant program later rest := by
  obtain ⟨isClosed, isOpened⟩ := (holding.position_read isQueue).next_belongs Nat.zero_lt_two
  change number = closed at isClosed
  have read := holding.readCommit isQueue
  have sameHeld : ({ port with queue := queue }.setInst number
      { port.inst number with ackCommit := true }).heldEvents =
        port.heldEvents := rfl
  rw [consumeEvent]
  dsimp only
  rw [sameHeld]
  by_cases isEmpty : port.heldEvents = []
  · have isCount := holding.count_eq shape isEmpty
    obtain ⟨outcome, later, isEvent, sameQueue, invariant⟩ :=
      commitEvent_keeps read (by omega) (by omega) isEmpty
    refine ⟨later, ?_, sameQueue, invariant⟩
    rw [isCount, ← isClosed] at isEvent
    rw [if_pos isEmpty, isEvent]
    rfl
  · have isRange := shape.resolve_right (fun isEmpty' => isEmpty isEmpty'.1)
    rw [isOpened] at isRange
    obtain ⟨later, isRun, sameQueue, invariant⟩ :=
      commitHeldEvents_keeps read (.inl isRange) isEmpty
    refine ⟨later, ?_, sameQueue, invariant⟩
    rw [if_neg isEmpty, isRun]
    rfl

end

theorem consumeEvents_keeps : ∀ (queue : List TraceEvent) {port : TracePort},
    port.queue = queue → TraceInvariant program port rest →
    consumeEvents queue port = .error .fifoFull ∨
      ∃ cycles later, consumeEvents queue port =
          .ok (cycles, later) ∧ TraceInvariant program later rest := by
  intro queue
  induction queue with
  | nil =>
    intro port isQueue invariant
    refine .inr ⟨0, port, ?_, invariant⟩
    rw [consumeEvents, ← isQueue]
  | cons event queue ih =>
    intro port isQueue invariant
    obtain ⟨done, opened, closed, count, holding, shape, stuck⟩ := invariant
    have read : { port with queue := queue }.consumeEvent event =
          .error .fifoFull ∨
        ∃ cycles later, { port with queue := queue }.consumeEvent event =
            .ok (cycles, later) ∧
          later.queue = queue ∧ TraceInvariant program later rest := by
      cases event with
      | inst number cycles =>
        rcases readInst_keeps holding shape stuck isQueue with
          isFull | keeps
        · exact .inl isFull
        · exact .inr ⟨cycles, keeps⟩
      | child number place type =>
        exact .inr ⟨0, readChild_keeps holding shape stuck isQueue⟩
      | commit number =>
        exact .inr ⟨0, readCommit_keeps holding shape isQueue⟩
    rcases read with isFull | ⟨cycles, later, isRead, laterQueue, invariant⟩
    · left
      rw [consumeEvents, isFull]
      rfl
    · rw [consumeEvents, isRead]
      change (if cycles = 0 then consumeEvents queue later
        else .ok (cycles, later)) = _ ∨ ∃ cycles' last,
        (if cycles = 0 then consumeEvents queue later else .ok (cycles, later)) = _ ∧ _
      by_cases isZero : cycles = 0
      · rw [if_pos isZero]
        exact ih laterQueue invariant
      · rw [if_neg isZero]
        exact .inr ⟨cycles, later, rfl, invariant⟩

theorem Holding.answer (holding : Holding program done rest port opened closed count)
    (number place : Nat) :
    Holding program done rest (port.setChild number place
        { port.child number place with rcvack := true })
      opened closed count := by
  have sameType : ∀ other otherPlace,
      ((port.setChild number place
        { port.child number place with rcvack := true }).child other
          otherPlace).type = (port.child other otherPlace).type ∧
      ((port.setChild number place
        { port.child number place with rcvack := true }).child other
          otherPlace).childSlot = (port.child other otherPlace).childSlot ∧
      ((port.child other otherPlace).rcvack = true →
        ((port.setChild number place
          { port.child number place with rcvack := true }).child other
            otherPlace).rcvack = true) := by
    intro other otherPlace
    by_cases same : other = number ∧ otherPlace = place
    · rw [same.1, same.2, setChild_same]
      exact ⟨rfl, rfl, fun _ => rfl⟩
    · rw [setChild_other same]
      exact ⟨rfl, rfl, id⟩
  have logged := holding.logged
  refine ⟨holding.position, holding.count_le, ⟨logged.once, logged.inOrder,
    logged.insts, logged.acks, ?_, ?_⟩, ?_, holding.early⟩
  · intro other otherPlace type isWritten
    rw [(sameType other otherPlace).1]
    exact logged.types other otherPlace type isWritten
  · intro other otherPlace isCommitted
    obtain ⟨isWritten, ready⟩ := logged.children other otherPlace isCommitted
    rw [(sameType other otherPlace).1]
    exact ⟨isWritten, ready.imp_right (sameType other otherPlace).2.2⟩
  · intro other above
    refine (holding.tables other above).congr (fun _ => Iff.rfl) ?_
    intro otherPlace _
    exact (sameType other otherPlace).2.1

theorem answer_keeps (invariant : TraceInvariant program port rest)
    (isEvent : .child number place .request ∈ traceEvents 0 program)
    (isWritten : .child number place .request ∉ rest)
    (waits : (port.child number place).rcvack = false) :
    ∃ later, port.commitReqEvent number place = .ok later ∧ TraceInvariant program later rest := by
  obtain ⟨done, opened, closed, count, holding, shape, -⟩ := invariant
  have answered := holding.answer number place
  have written : .child number place .request ∈ done ++ port.queue := by
    rw [holding.position.split, ← append_assoc] at isEvent
    exact (mem_append.mp isEvent).resolve_right isWritten
  have isType := holding.logged.types number place .request written
  have notCommitted : .child number place ∉ port.committed := by
    intro isCommitted
    rcases (holding.logged.children number place isCommitted).2 with
      isAck | isAnswered
    · rw [isType] at isAck
      exact ChildType.noConfusion isAck
    · rw [waits] at isAnswered
      exact Bool.noConfusion isAnswered
  have pending : Pending (done ++ port.queue) (port.setChild number place
      { port.child number place with rcvack := true }) number place :=
    ⟨⟨.request, written⟩, notCommitted⟩
  have above : count ≤ number := by
    by_contra below
    exact notCommitted (holding.logged.child_committed (Nat.lt_of_not_le below) isEvent)
  by_cases isEmpty : port.heldEvents = []
  · have isCount := holding.count_eq shape isEmpty
    have inside := (List.getElem?_eq_some_iff.mp
      ((answered.tables number above).listed place pending).2).1
    have isAnswered : ((port.setChild number place
        { port.child number place with rcvack := true }).child number place).rcvack = true := by
      rw [setChild_same]
    have notQueued : .child number place .memAck ∉ port.queue := by
      intro isThere
      have isAck := holding.logged.types number place .memAck (mem_append_right _ isThere)
      rw [isType] at isAck
      exact ChildType.noConfusion isAck
    refine ⟨_, ?_, done, opened, closed, count,
      answered.commitChild above pending (.inr isAnswered) notQueued,
      .inr ⟨isEmpty, isCount⟩, stuck_of_empty isEmpty⟩
    exact (if_pos isEmpty).trans
      (if_neg (Nat.not_lt_of_ge (Nat.succ_le_of_lt (Nat.zero_lt_of_lt inside))))
  · obtain ⟨later, isRun, -, invariant⟩ := commitHeldEvents_keeps answered shape isEmpty
    exact ⟨later, (if_neg isEmpty).trans isRun, invariant⟩

section

variable (holding : Holding program done (event :: rest) port opened closed count)

include holding

theorem Holding.rest_split : traceEvents 0 program = (done ++ port.queue) ++ event :: rest := by
  rw [holding.position.split, append_assoc]

theorem Holding.closed_le (notCommit : event.phase < 2) : closed ≤ event.number := by
  by_contra isClosed
  have ordered := traceEvents_ordered program 0
  have isDone := (holding.position.closes event.number).mpr (Nat.lt_of_not_le isClosed)
  have isLater : event ∈ port.queue ++ event :: rest := mem_append_right _ mem_cons_self
  have isEvent : event ∈ traceEvents 0 program := by
    rw [holding.position.split]
    exact mem_append_right _ isLater
  exact not_mem_later ordered holding.position.split
    (mem_done_of_before ordered holding.position.split isDone isEvent
      (before_of_phase rfl notCommit)) isLater

/-- What is written does not come after an event that is not. -/
theorem Holding.not_before (isWritten : other ∈ done ++ port.queue) : other.Before event :=
  before_next (traceEvents_ordered program 0) holding.rest_split isWritten

theorem Holding.write_position :
    Position program done ((port.queue ++ [event]) ++ rest) opened closed := by
  rw [append_assoc, singleton_append]
  exact holding.position

theorem Holding.enqueue (notChild : ∀ number place type, event ≠ .child number place type) :
    Holding program done rest { port with queue := port.queue ++ [event] } opened closed count := by
  have sameQueue : ∀ number place type,
      .child number place type ∈ port.queue ++ [event] ↔ .child number place type ∈ port.queue := by
    intro number place type
    rw [mem_append, mem_singleton]
    exact or_iff_left (fun same => notChild number place type same.symm)
  have sameChild : ∀ number place type,
      .child number place type ∈ done ++ (port.queue ++ [event]) ↔
        .child number place type ∈ done ++ port.queue := by
    intro number place type
    rw [mem_append, sameQueue, mem_append]
  have logged := holding.logged
  refine ⟨holding.write_position, holding.count_le, ⟨logged.once,
    logged.inOrder, logged.insts, logged.acks, ?_, ?_⟩, ?_, ?_⟩
  · intro number place type isWritten
    exact logged.types number place type ((sameChild _ _ _).mp isWritten)
  · intro number place isCommitted
    obtain ⟨⟨type, isWritten⟩, ready⟩ := logged.children number place isCommitted
    exact ⟨⟨type, (sameChild _ _ _).mpr isWritten⟩, ready⟩
  · intro number above
    refine (holding.tables number above).congr ?_ (fun _ _ => rfl)
    intro place
    unfold Pending
    simp only [sameChild]
  · intro number place notHeld isThere
    exact holding.early number place notHeld ((sameQueue _ _ _).mp isThere)

end

theorem Holding.writeInst
    (holding : Holding program done (.inst number cycles :: rest) port opened closed count) :
    Holding program done rest
      ({ port with
        queue := port.queue ++ [TraceEvent.inst number cycles] }.setInst
          number HweInst.init) opened closed count := by
  have queued := holding.enqueue (fun _ _ _ same => TraceEvent.noConfusion same)
  have isOpen : closed ≤ number := holding.closed_le Nat.zero_lt_two
  have noChild : ∀ place type, .child number place type ∉
      done ++ (port.queue ++ [TraceEvent.inst number cycles]) := by
    intro place type isThere
    rw [← append_assoc, mem_append, mem_singleton] at isThere
    rcases isThere with isWritten | isInst
    · exact (holding.not_before isWritten).asymm (before_of_phase rfl Nat.zero_lt_one)
    · exact TraceEvent.noConfusion isInst
  have logged := queued.logged
  refine ⟨queued.position, queued.count_le, ⟨logged.once, logged.inOrder,
    logged.insts, ?_, logged.types, logged.children⟩, ?_, queued.early⟩
  · intro other
    by_cases same : other = number
    · rw [same, setInst_same]
      simp only [HweInst.init, Bool.false_eq_true, false_iff, Nat.not_lt]
      exact isOpen
    · rw [setInst_other same]
      exact logged.acks other
  · intro other above
    by_cases same : other = number
    · unfold Table
      rw [same, setInst_same]
      refine .empty _ ?_
      rintro place ⟨⟨type, isWritten⟩, -⟩
      exact noChild place type isWritten
    · exact (queued.tables other above).frame (setInst_other same) rfl (fun _ => Iff.rfl)

/-- A child is written and registered in its instruction. -/
structure Registered (port later : TracePort) (number place : Nat)
    (type : ChildType) : Prop where
  queue : later.queue = port.queue ++ [.child number place type]
  held : later.heldEvents = port.heldEvents
  committed : later.committed = port.committed
  inst : later.inst number = { port.inst number with
    child := (port.inst number).child ++ [some place] }
  otherInst : ∀ other, other ≠ number → later.inst other = port.inst other
  child : later.child number place =
    ⟨type, false, (port.inst number).child.length⟩
  otherChild : ∀ other otherPlace,
    ¬ (other = number ∧ otherPlace = place) →
    later.child other otherPlace = port.child other otherPlace

section

variable
  (holding : Holding program done (.child number place type :: rest) port opened closed count)

include holding

theorem Holding.new_child (isWritten : .child other otherPlace otherType ∈ done ++ port.queue) :
    ¬ (other = number ∧ otherPlace = place) := by
  rintro ⟨rfl, rfl⟩
  rcases holding.not_before isWritten with below | ⟨-, below | ⟨-, below⟩⟩
  · exact Nat.lt_irrefl _ below
  · exact Nat.lt_irrefl _ below
  · exact Nat.lt_irrefl _ below

theorem Holding.writeChild (registered : Registered port later number place type) :
    Holding program done rest later opened closed count := by
  have written : ∀ other otherPlace otherType,
      .child other otherPlace otherType ∈ done ++ later.queue ↔
      .child other otherPlace otherType ∈ done ++ port.queue ∨
        other = number ∧ otherPlace = place ∧ otherType = type := by
    intro other otherPlace otherType
    rw [registered.queue, ← append_assoc, mem_append, mem_singleton, TraceEvent.child.injEq]
  have logged := holding.logged
  have notCommitted : .child number place ∉ port.committed := by
    intro isCommitted
    obtain ⟨otherType, isWritten⟩ := (logged.children number place isCommitted).1
    exact holding.new_child isWritten ⟨rfl, rfl⟩
  refine ⟨?_, holding.count_le, ⟨?_, ?_, ?_, ?_, ?_, ?_⟩, ?_, ?_⟩
  · rw [registered.queue]
    exact holding.write_position
  · rw [registered.committed]
    exact logged.once
  · rw [registered.committed]
    exact logged.inOrder
  · rw [registered.committed]
    exact logged.insts
  · intro other
    rw [← logged.acks other]
    by_cases same : other = number
    · rw [same, registered.inst]
    · rw [registered.otherInst other same]
  · intro other otherPlace otherType isWritten
    rcases (written _ _ _).mp isWritten with wasThere | ⟨rfl, rfl, rfl⟩
    · rw [registered.otherChild _ _ (holding.new_child wasThere)]
      exact logged.types other otherPlace otherType wasThere
    · rw [registered.child]
  · intro other otherPlace isCommitted
    rw [registered.committed] at isCommitted
    obtain ⟨⟨otherType, isWritten⟩, ready⟩ := logged.children other otherPlace isCommitted
    rw [registered.otherChild _ _ (holding.new_child isWritten)]
    exact ⟨⟨otherType, (written _ _ _).mpr (.inl isWritten)⟩, ready⟩
  · intro other above
    by_cases same : other = number
    · subst same
      have notPending : ¬ Pending (done ++ port.queue) port other place := by
        rintro ⟨⟨otherType, isWritten⟩, -⟩
        exact holding.new_child isWritten ⟨rfl, rfl⟩
      have table := (holding.tables other above).register notPending
      unfold Table
      rw [registered.inst]
      refine table.congr ?_ ?_
      · intro otherPlace
        unfold Pending
        simp only [written, registered.committed]
        constructor
        · rintro ⟨⟨otherType, wasThere | ⟨-, isPlace, -⟩⟩, isPending⟩
          · exact .inr ⟨⟨otherType, wasThere⟩, isPending⟩
          · exact .inl isPlace
        · rintro (isPlace | ⟨⟨otherType, wasThere⟩, isPending⟩)
          · rw [isPlace]
            exact ⟨⟨type, .inr ⟨trivial, rfl, rfl⟩⟩, notCommitted⟩
          · exact ⟨⟨otherType, .inl wasThere⟩, isPending⟩
      · intro otherPlace _
        by_cases isPlace : otherPlace = place
        · rw [isPlace, registered.child, Function.update_self]
        · rw [registered.otherChild _ _ (fun both => isPlace both.2), Function.update_of_ne isPlace]
    · unfold Table
      rw [registered.otherInst other same]
      refine (holding.tables other above).congr ?_ ?_
      · intro otherPlace
        unfold Pending
        simp only [written, registered.committed, same, false_and, or_false]
      · intro otherPlace _
        rw [registered.otherChild _ _ (fun both => same both.1)]
  · intro other otherPlace notHeld isThere
    rw [registered.held] at notHeld
    rw [registered.queue, mem_append, mem_singleton] at isThere
    rw [registered.committed]
    rcases isThere with wasThere | isNew
    · exact holding.early other otherPlace notHeld wasThere
    · obtain ⟨rfl, rfl, -⟩ := TraceEvent.child.inj isNew
      exact notCommitted

end

/-- There is room for a child in the array of its instruction. -/
def Room (port : TracePort) : TraceEvent → Prop
  | .inst _ _ => True
  | .child number _ _ => (port.inst number).child.length < hweChildMax
  | .commit _ => True

theorem stuck_write (stuck : Stuck done port closed) (sameHeld : later.heldEvents = port.heldEvents)
    (grows : ∀ event ∈ port.queue, event ∈ later.queue) (sameChild : ∀ number place,
      .child number place .request ∈ done ++ port.queue →
      later.child number place = port.child number place) :
    Stuck done later closed := by
  intro number isHead isClosed
  rw [sameHeld] at isHead
  obtain ⟨place, isWritten, waits⟩ := stuck number isHead isClosed
  refine ⟨place, ?_, ?_⟩
  · rcases mem_append.mp isWritten with isDone | isQueued
    · exact mem_append_left _ isDone
    · exact mem_append_right _ (grows _ isQueued)
  · rw [sameChild number place isWritten]
    exact waits

theorem writeEvent_keeps (invariant : TraceInvariant program port
      (event :: rest)) (room : Room port event) :
    ∃ later, port.writeEvent event = .ok later ∧ TraceInvariant program later rest := by
  obtain ⟨done, opened, closed, count, holding, shape, stuck⟩ := invariant
  cases event with
  | inst number cycles =>
    refine ⟨_, rfl, done, opened, closed, count, holding.writeInst, shape,
      stuck_write stuck rfl ?_ (fun _ _ _ => rfl)⟩
    intro event isQueued
    exact mem_append_left _ isQueued
  | child number place type =>
    have registered : Registered port
        { (port.setChild number place ⟨type, false,
            (port.inst number).child.length⟩).setInst number
              { port.inst number with
                child := (port.inst number).child ++ [some place] } with
          queue := port.queue ++ [.child number place type] }
        number place type :=
      ⟨rfl, rfl, rfl, setInst_same,
        fun _ differ => setInst_other differ,
        setChild_same,
        fun _ _ differ => setChild_other differ⟩
    refine ⟨_, ?_, done, opened, closed, count,
      holding.writeChild registered, shape,
      stuck_write stuck rfl ?_ ?_⟩
    · change _ < _ at room
      rw [writeEvent]
      dsimp only
      rw [if_pos room]
      rfl
    · intro event isQueued
      exact mem_append_left _ isQueued
    · intro other otherPlace isWritten
      exact registered.otherChild _ _ (holding.new_child isWritten)
  | commit number =>
    have queued := holding.enqueue (fun _ _ _ same => TraceEvent.noConfusion same)
    refine ⟨_, rfl, done, opened, closed, count, queued, shape,
      stuck_write stuck rfl ?_ (fun _ _ _ => rfl)⟩
    intro event isQueued
    exact mem_append_left _ isQueued

theorem writeEvent_outOfBounds (noRoom : ¬ Room port event) :
    port.writeEvent event = .error .outOfBounds := by
  cases event with
  | inst number cycles => exact absurd trivial noRoom
  | child number place type =>
    change ¬ _ < _ at noRoom
    rw [writeEvent]
    dsimp only
    rw [if_neg noRoom]
    rfl
  | commit number => exact absurd trivial noRoom

end Steps

/-- A child is registered only when there is room for it. -/
def TraceStep.Fits (state : TraceState) : TraceStep → Prop
  | .write => ∀ event ∈ state.rest.head?, Room state.port event
  | .read => True
  | .answer _ _ => True

section Runs

variable {program : List TracedInst} {state : TraceState} {step : TraceStep}

theorem start_invariant (program : List TracedInst) :
    TraceInvariant program (TraceState.start program).port (TraceState.start program).rest := by
  refine ⟨[], 0, 0, 0, ⟨Position.start program, Nat.le_refl 0,
    ⟨.nil, ?_, ?_, ?_, ?_, ?_⟩, ?_, ?_⟩, .inr ⟨rfl, rfl⟩, stuck_of_empty rfl⟩
  · intro before after number parts
    simp only [TraceState.start, nil_eq, append_eq_nil_iff, reduceCtorEq, and_false] at parts
  · intro number
    simp only [TraceState.start, not_mem_nil, Nat.not_lt_zero]
  · intro number
    simp only [TraceState.start, HweInst.init, Bool.false_eq_true, Nat.not_lt_zero]
  · intro number place type isThere
    exact absurd isThere not_mem_nil
  · intro number place isThere
    exact absurd isThere not_mem_nil
  · intro number _
    refine .empty _ ?_
    rintro place ⟨⟨type, isThere⟩, -⟩
    exact absurd isThere not_mem_nil
  · intro number place _ isThere
    exact absurd isThere not_mem_nil

theorem traceStep_keeps (invariant : TraceInvariant program state.port state.rest)
    (allowed : step.Allowed program state) (fits : step.Fits state) :
    traceStep state step = .error .fifoFull ∨
      ∃ later, traceStep state step = .ok later ∧ TraceInvariant program later.port later.rest := by
  obtain ⟨port, rest⟩ := state
  cases step with
  | write =>
    right
    cases rest with
    | nil => exact ⟨⟨port, []⟩, rfl, invariant⟩
    | cons event rest =>
      obtain ⟨later, isWritten, kept⟩ := writeEvent_keeps invariant (fits event rfl)
      refine ⟨⟨later, rest⟩, ?_, kept⟩
      dsimp only [traceStep]
      rw [isWritten]
      rfl
  | read =>
    rcases consumeEvents_keeps port.queue rfl invariant with
      isFull | ⟨cycles, later, isRead, kept⟩
    · left
      dsimp only [traceStep, TracePort.getEventCycles]
      rw [isFull]
      rfl
    · refine .inr ⟨⟨later, rest⟩, ?_, kept⟩
      dsimp only [traceStep, TracePort.getEventCycles]
      rw [isRead]
      rfl
  | answer number place =>
    obtain ⟨isEvent, isWritten, waits⟩ := allowed
    obtain ⟨later, isAnswered, kept⟩ := answer_keeps invariant isEvent isWritten waits
    refine .inr ⟨⟨later, rest⟩, ?_, kept⟩
    dsimp only [traceStep]
    rw [isAnswered]
    rfl

theorem traceStep_outOfBounds (notFits : ¬ step.Fits state) :
    traceStep state step = .error .outOfBounds := by
  cases step with
  | write =>
    simp only [TraceStep.Fits, not_forall] at notFits
    obtain ⟨event, isNext, noRoom⟩ := notFits
    obtain ⟨rest, isRest⟩ := List.head?_eq_some_iff.mp isNext
    dsimp only [traceStep]
    rw [isRest]
    dsimp only
    rw [writeEvent_outOfBounds noRoom]
    rfl
  | read => exact absurd trivial notFits
  | answer number place => exact absurd trivial notFits

theorem TraceReached.invariant (reached : TraceReached program state) :
    TraceInvariant program state.port state.rest := by
  induction reached with
  | start => exact start_invariant program
  | @step state later step _ allowed isStep ih =>
    by_cases fits : step.Fits state
    · rcases traceStep_keeps ih allowed fits with
        isFull | ⟨last, isLast, kept⟩
      · rw [isStep] at isFull
        cases isFull
      · rw [isStep] at isLast
        rw [Except.ok.inj isLast]
        exact kept
    · rw [traceStep_outOfBounds fits] at isStep
      cases isStep

/-- Everything has been generated, read and answered. -/
def TraceState.Complete (program : List TracedInst) (state : TraceState) :
    Prop :=
  state.rest = [] ∧ state.port.queue = [] ∧
  ∀ number place, .child number place .request ∈ traceEvents 0 program →
    (state.port.child number place).rcvack = true

def AllCommitted (program : List TracedInst) (committed : List Hwe) : Prop :=
  (∀ number cycles, .inst number cycles ∈ traceEvents 0 program → .inst number ∈ committed) ∧
  ∀ number place type, .child number place type ∈ traceEvents 0 program →
    .child number place ∈ committed

theorem TraceReached.allCommitted (reached : TraceReached program state)
    (complete : state.Complete program) :
    AllCommitted program state.port.committed := by
  obtain ⟨done, opened, closed, count, holding, shape, stuck⟩ := reached.invariant
  obtain ⟨noRest, noQueue, answered⟩ := complete
  have isDone : traceEvents 0 program = done := by
    rw [holding.position.split, noRest, noQueue, append_nil, append_nil]
  have allClosed : ∀ event ∈ traceEvents 0 program, event.number < closed := by
    intro event isEvent
    have isCommit := (traceEvents_bracket (Nat.zero_le event.number)
      (traceEvents_number isEvent).2).2
    rw [isDone] at isCommit
    exact (holding.position.closes event.number).mp isCommit
  have isClosed : opened = closed := by
    by_contra isOpen
    have bound := holding.position.closed_le
    obtain ⟨cycles, isInst⟩ := (holding.position.opens closed).mpr (by omega)
    rw [← isDone] at isInst
    exact Nat.lt_irrefl closed (allClosed _ isInst)
  have isCount : count = closed := by
    rcases shape with isRange | isEmpty
    · by_contra isHeld
      have bound := holding.count_le
      have isLength : opened - count = (opened - count - 1) + 1 := by omega
      rw [isLength, List.range'_succ] at isRange
      obtain ⟨place, isWritten, waits⟩ := stuck count (by
        rw [isRange, List.head?_cons]) (by omega)
      rw [noQueue, append_nil, ← isDone] at isWritten
      rw [answered count place isWritten] at waits
      cases waits
    · exact isEmpty.2
  refine ⟨?_, ?_⟩
  · intro number cycles isEvent
    rw [holding.logged.insts, isCount]
    exact allClosed _ isEvent
  · intro number place type isEvent
    refine holding.logged.child_committed ?_ isEvent
    rw [isCount]
    exact allClosed _ isEvent

/-- In every run nothing is committed twice, an instruction is committed after
its children and after the instructions before it, and in the end everything
has been committed.  A step fails for another reason than a full fifo exactly
when it writes a child behind the array of its instruction. -/
theorem trace_commits_once_iff (reached : TraceReached program state) :
    state.port.committed.Nodup ∧
    InOrder (traceEvents 0 program) state.port.committed ∧
    (state.Complete program → AllCommitted program state.port.committed) ∧
    ∀ step : TraceStep, step.Allowed program state →
      (step.Fits state ↔ traceStep state step = .error .fifoFull ∨
        ∃ later, traceStep state step = .ok later) := by
  obtain ⟨done, opened, closed, count, holding, -, -⟩ := reached.invariant
  refine ⟨holding.logged.once, holding.logged.inOrder, reached.allCommitted, ?_⟩
  intro step allowed
  constructor
  · intro fits
    rcases traceStep_keeps reached.invariant allowed fits with
      isFull | ⟨later, isStep, -⟩
    · exact .inl isFull
    · exact .inr ⟨later, isStep⟩
  · intro runs
    by_contra notFits
    rw [traceStep_outOfBounds notFits] at runs
    rcases runs with isFull | ⟨later, isStep⟩
    · cases isFull
    · cases isStep

/-- The first instruction waits for the memory while the second is read, whose
acknowledgement is committed before it is read. -/
theorem trace_commits_once_iff_two_instructions :
    ∃ state, TraceReached [⟨1, [.request]⟩, ⟨1, [.memAck]⟩] state ∧
      state.port.committed = [.child 0 0, .inst 0, .child 1 0, .inst 1] ∧
      AllCommitted [⟨1, [.request]⟩, ⟨1, [.memAck]⟩] state.port.committed := by
  have written : TraceReached [⟨1, [.request]⟩, ⟨1, [.memAck]⟩] _ :=
    .step .write (.step .write (.step .write (.step .write (.step .write
      (.step .write .start trivial rfl) trivial rfl) trivial rfl) trivial rfl)
      trivial rfl) trivial rfl
  have held := TraceReached.step .read (.step .read written trivial rfl) trivial rfl
  have answered := TraceReached.step (.answer 0 0) held ⟨by decide, by decide, rfl⟩ rfl
  have reached := TraceReached.step .read answered trivial rfl
  refine ⟨_, reached, rfl, (trace_commits_once_iff reached).2.2.1 ⟨rfl, rfl, ?_⟩⟩
  intro number place isEvent
  simp only [traceEvents, childEvents, cons_append, nil_append,
    mem_cons, TraceEvent.child.injEq, reduceCtorEq, and_true, and_false,
    not_mem_nil, or_false, false_or] at isEvent
  rw [isEvent.1, isEvent.2]
  rfl

/-- An instruction registers as many children as the array has room for. -/
theorem registered_reached (types : List ChildType) :
    ∀ length, length ≤ hweChildMax → length ≤ types.length →
      ∃ state, TraceReached [⟨0, types⟩] state ∧
        (state.port.inst 0).child.length = length ∧
        state.rest = childEvents 0 length (types.drop length) ++ [.commit 0] := by
  intro length
  induction length with
  | zero =>
    intro _ _
    exact ⟨_, .step .write .start trivial rfl, rfl, rfl⟩
  | succ length ih =>
    intro fits inside
    obtain ⟨state, reached, isLength, isRest⟩ := ih (by omega) (by omega)
    have room : (state.port.inst 0).child.length < hweChildMax := by omega
    rw [drop_eq_getElem_cons inside, childEvents, cons_append] at isRest
    refine ⟨⟨{ (state.port.setChild 0 length ⟨types[length], false,
          (state.port.inst 0).child.length⟩).setInst 0
            { state.port.inst 0 with
              child := (state.port.inst 0).child ++ [some length] } with
          queue := state.port.queue ++ [.child 0 length types[length]] },
        childEvents 0 (length + 1) (types.drop (length + 1)) ++
          [.commit 0]⟩, .step .write reached trivial ?_, ?_, rfl⟩
    · dsimp only [traceStep]
      rw [isRest]
      dsimp only [writeEvent]
      rw [if_pos room]
      rfl
    · dsimp only
      rw [setInst_same]
      simp only [length_append, length_singleton, isLength]

/-- The child behind the last of the array is written all the same. -/
theorem child_array_overrun :
    ∃ program state, TraceReached program state ∧ traceStep state .write = .error .outOfBounds := by
  obtain ⟨state, reached, isLength, isRest⟩ := registered_reached
    (List.replicate (hweChildMax + 1) .memAck) hweChildMax (Nat.le_refl _)
    (by rw [length_replicate]; exact Nat.le_succ _)
  refine ⟨_, state, reached, traceStep_outOfBounds ?_⟩
  intro fits
  rw [drop_replicate, Nat.add_sub_cancel_left] at isRest
  have room := fits (.child 0 hweChildMax .memAck) (by rw [isRest]; rfl)
  change (state.port.inst 0).child.length < hweChildMax at room
  omega

end Runs

end Reverse.Rabbits
