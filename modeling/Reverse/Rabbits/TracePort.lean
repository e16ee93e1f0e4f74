import Mathlib.Logic.Function.Basic

/-!
# The trace port of a processor

The commit protocol of `qemu_trace_port.cpp`, with the events of
`trace_power.c` that feed it.  Cache events are traced and the requests of the
processor are not, so that the requests and acknowledgements of the caches are
the children of the instruction.
-/

namespace Reverse.Rabbits

open Function

/-- The constant `HWE_CHILD_MAX`. -/
def hweChildMax : Nat := 32768

/-- The size of the class `fifo`. -/
def fifoSize : Nat := 0x1000

inductive ChildType where
  | request
  | memAck
  deriving DecidableEq

/-- The container of a request or an acknowledgement. -/
structure HweChild where
  type : ChildType
  rcvack : Bool
  childSlot : Nat
  deriving DecidableEq

/-- The container of an instruction.  The children are named by their place
among all the children of the instruction; `nchild` is the length of `child`. -/
structure HweInst where
  ackCommit : Bool
  comChild : Nat
  child : List (Option Nat)
  deriving DecidableEq

/-- What `hwe_init` and `HWE_CPU_inst_init` leave. -/
def HweInst.init : HweInst := ⟨false, 0, []⟩

/-- The entries of the queue.  An instruction is named by its number in the
program. -/
inductive TraceEvent where
  | inst (number cycles : Nat)
  | child (number place : Nat) (type : ChildType)
  | commit (number : Nat)
  deriving DecidableEq

/-- The events that `hwe_commit` is called for. -/
inductive Hwe where
  | inst (number : Nat)
  | child (number place : Nat)
  deriving DecidableEq

/-- A port with the containers it refers to.  The queue and the fifo are lists
with the oldest entry first; `committed` lists the calls of `hwe_commit`. -/
structure TracePort where
  inst : Nat → HweInst
  child : Nat → Nat → HweChild
  queue : List TraceEvent
  heldEvents : List Nat
  committed : List Hwe

inductive TraceError where
  | fifoFull
  | noChildren
  /-- A child is written behind the end of the array `child`. -/
  | outOfBounds
  deriving DecidableEq

namespace TracePort

def setInst (port : TracePort) (number : Nat) (inst : HweInst) : TracePort :=
  { port with inst := update port.inst number inst }

def setChild (port : TracePort) (number place : Nat) (child : HweChild) :
    TracePort :=
  { port with
    child := update port.child number (update (port.child number) place child) }

def hweCommit (port : TracePort) (hwes : List Hwe) : TracePort :=
  { port with committed := port.committed ++ hwes }

/-- The function `HWE_HEAD_del_child`. -/
def delChild (port : TracePort) (number place : Nat) : TracePort :=
  port.setInst number
    { port.inst number with
      child := (port.inst number).child.set (port.child number place).childSlot none }

section Updates

variable {port : TracePort} {number other place otherPlace : Nat}

theorem setInst_same {inst : HweInst} : (port.setInst number inst).inst number = inst := by
  dsimp only [setInst]
  rw [update_self]

theorem setInst_other {inst : HweInst} (differ : other ≠ number) :
    (port.setInst number inst).inst other = port.inst other := by
  dsimp only [setInst]
  rw [update_of_ne differ]

theorem setChild_same {child : HweChild} :
    (port.setChild number place child).child number place = child := by
  dsimp only [setChild]
  rw [update_self, update_self]

theorem setChild_other {child : HweChild} (differ : ¬ (other = number ∧ otherPlace = place)) :
    (port.setChild number place child).child other otherPlace = port.child other otherPlace := by
  dsimp only [setChild]
  by_cases same : other = number
  · rw [same, update_self, update_of_ne (fun samePlace => differ ⟨same, samePlace⟩)]
  · rw [update_of_ne same]

end Updates

/-- The member function `put` of the class `fifo`. -/
def put (port : TracePort) (number : Nat) : Except TraceError TracePort :=
  if port.heldEvents.length = fifoSize then .error .fifoFull
  else .ok { port with heldEvents := port.heldEvents ++ [number] }

inductive Outcome where
  | succ
  | failWaitMemAck
  | failWaitComAck
  deriving DecidableEq

/-- The loop of `commit_event` over the slots from `index` on: the children it
commits, and the slot of the request it stops at. -/
def commitChildren (port : TracePort) (number : Nat) :
    Nat → List (Option Nat) → List Hwe × Option Nat
  | _, [] => ([], none)
  | index, none :: slots => commitChildren port number (index + 1) slots
  | index, some place :: slots =>
    if (port.child number place).type = .memAck ∨ (port.child number place).rcvack then
      let rest := commitChildren port number (index + 1) slots
      (.child number place :: rest.1, rest.2)
    else ([], some index)

def commitEvent (port : TracePort) (number : Nat) : Except TraceError (Outcome × TracePort) :=
  let inst := port.inst number
  let loop := commitChildren port number inst.comChild (inst.child.drop inst.comChild)
  let port := port.hweCommit loop.1
  match loop.2 with
  | some index => do
      let port ← if port.heldEvents.head? = some number then .ok port else port.put number
      .ok (.failWaitMemAck, port.setInst number { inst with comChild := index })
  | none =>
    if inst.ackCommit then .ok (.succ, port.hweCommit [.inst number])
    else .ok (.failWaitComAck, port.setInst number { inst with comChild := 0, child := [] })

/-- The loop of `commit_held_events`; each turn but the last takes an
instruction out of the fifo. -/
def commitHeld : Nat → TracePort → Except TraceError TracePort
  | 0, port => .ok port
  | turns + 1, port =>
    match port.heldEvents with
    | [] => .ok port
    | number :: _ => do
        let (outcome, port) ← port.commitEvent number
        match outcome with
        | .succ =>
          commitHeld turns { port with heldEvents := port.heldEvents.tail }
        | .failWaitMemAck => .ok port
        | .failWaitComAck => .ok port

def commitHeldEvents (port : TracePort) : Except TraceError TracePort :=
  commitHeld port.heldEvents.length port

def commitReqEvent (port : TracePort) (number place : Nat) : Except TraceError TracePort :=
  let port := port.setChild number place { port.child number place with rcvack := true }
  if port.heldEvents = [] then
    if (port.inst number).child.length < 1 then .error .noChildren
    else .ok ((port.delChild number place).hweCommit [.child number place])
  else port.commitHeldEvents

/-- One turn of `get_event_cycles`, with the cycles of an instruction. -/
def consumeEvent (port : TracePort) : TraceEvent → Except TraceError (Nat × TracePort)
  | .inst number cycles =>
    if port.heldEvents = [] then .ok (cycles, port)
    else do
      let port ← port.put number
      .ok (cycles, port)
  | .child _ _ .request => .ok (0, port)
  | .child number place .memAck =>
    if port.heldEvents = [] then
      .ok (0, (port.delChild number place).hweCommit [.child number place])
    else .ok (0, port)
  | .commit number => do
      let port := port.setInst number { port.inst number with ackCommit := true }
      if port.heldEvents = [] then
        let (_, port) ← port.commitEvent number
        .ok (0, port)
      else
        let port ← port.commitHeldEvents
        .ok (0, port)

def consumeEvents : List TraceEvent → TracePort → Except TraceError (Nat × TracePort)
  | [], port => .ok (0, { port with queue := [] })
  | event :: queue, port => do
      let (cycles, port) ← { port with queue := queue }.consumeEvent event
      if cycles = 0 then consumeEvents queue port else .ok (cycles, port)

/-- Events are read until an instruction takes cycles or none is left. -/
def getEventCycles (port : TracePort) : Except TraceError (Nat × TracePort) :=
  consumeEvents port.queue port

/-- The functions `tr_wr_inst_event`, `tr_wr_req_event`, `tr_wr_ack_event` and
`tr_wr_commit_event`; a child is registered by `HWE_HEAD_set_child`. -/
def writeEvent (port : TracePort) (event : TraceEvent) : Except TraceError TracePort := do
  let port ← match event with
    | .inst number _ => .ok (port.setInst number .init)
    | .child number place type =>
      let inst := port.inst number
      if inst.child.length < hweChildMax then
        .ok ((port.setChild number place
          ⟨type, false, inst.child.length⟩).setInst number
            { inst with child := inst.child ++ [some place] })
      else .error .outOfBounds
    | .commit _ => .ok port
  .ok { port with queue := port.queue ++ [event] }

end TracePort

/-- An instruction of the program that runs, with the requests and the
acknowledgements that it generates. -/
structure TracedInst where
  cycles : Nat
  children : List ChildType

def childEvents (number : Nat) : Nat → List ChildType → List TraceEvent
  | _, [] => []
  | place, type :: types =>
    .child number place type :: childEvents number (place + 1) types

/-- The events of a program in the order of their generation.  A `COMMIT`
refers to `tr_id`, the last instruction, and so comes before the next. -/
def traceEvents : Nat → List TracedInst → List TraceEvent
  | _, [] => []
  | number, inst :: insts =>
    .inst number inst.cycles ::
      (childEvents number 0 inst.children ++ .commit number :: traceEvents (number + 1) insts)

/-- A port and the events that are still to be generated. -/
structure TraceState where
  port : TracePort
  rest : List TraceEvent

def TraceState.start (program : List TracedInst) : TraceState :=
  ⟨⟨fun _ => .init, fun _ _ => ⟨.memAck, false, 0⟩, [], [], []⟩,
    traceEvents 0 program⟩

inductive TraceStep where
  | write
  | read
  | answer (number place : Nat)
  deriving DecidableEq

def traceStep (state : TraceState) : TraceStep → Except TraceError TraceState
  | .write =>
    match state.rest with
    | [] => .ok state
    | event :: rest => do
        let port ← state.port.writeEvent event
        .ok ⟨port, rest⟩
  | .read => do
      let (_, port) ← state.port.getEventCycles
      .ok { state with port := port }
  | .answer number place => do
      let port ← state.port.commitReqEvent number place
      .ok { state with port := port }

/-- A request is answered once, after it has been generated. -/
def TraceStep.Allowed (program : List TracedInst) (state : TraceState) : TraceStep → Prop
  | .write => True
  | .read => True
  | .answer number place =>
    .child number place .request ∈ traceEvents 0 program ∧
    .child number place .request ∉ state.rest ∧
    (state.port.child number place).rcvack = false

inductive TraceReached (program : List TracedInst) : TraceState → Prop where
  | start : TraceReached program (.start program)
  | step {state later : TraceState} (step : TraceStep) :
      TraceReached program state → step.Allowed program state →
      traceStep state step = .ok later → TraceReached program later

end Reverse.Rabbits
