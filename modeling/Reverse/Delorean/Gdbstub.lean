import Reverse.Delorean.Replay

/-!
# The debugger

`gdbstub.c` moves the replay cursor on behalf of a remote debugger.  A packet
is modelled by what it does to `m_gdb`; a read from the socket yields the
packets that it completes, and a script that has no read left is a closed
connection.
-/

namespace Reverse.Delorean

open Sherlock

/-- `running_state`. -/
inductive Running where
  | control
  | step
  | continue_
  | detach
  | init
  | reverseStep
  | reverseContinue
deriving DecidableEq, Repr

/-- The breakpoint kinds of the packets `Z` and `z`. -/
inductive BreakKind where
  | sw
  | hw
  | write
  | read
  | access
  | other
deriving DecidableEq, Repr

/-- `watch_el_t`. -/
structure Watch where
  beginAddress : BitVec 64
  endAddress : BitVec 64
  kind : BreakKind
deriving DecidableEq, Repr

/-- The part of `m_gdb` and of the static variables that a packet changes and
`gdb_verify` looks at. -/
structure Gdb where
  running : Running
  breakpoints : List (BitVec 64)
  watchpoints : List Watch
  writeWatchpoint : Bool
deriving DecidableEq, Repr

/-- `m_gdb` after `gdb_start_and_wait`. -/
def gdbStartAndWait : Gdb where
  running := .init
  breakpoints := []
  watchpoints := []
  writeWatchpoint := false

/-- The packets that change something; all others are `query`. -/
inductive Packet where
  | step
  | continue_
  | detach
  | reverseStep
  | reverseContinue
  /-- `vCont;s:thread`, ignored after a stop at a watchpoint. -/
  | stepThread
  | halted
  | insert (addr len : BitVec 64) (kind : BreakKind)
  | remove (addr len : BitVec 64) (kind : BreakKind)
  | kill
  | query
deriving DecidableEq, Repr

def gdbContinue (gdb : Gdb) (running : Running) : Gdb :=
  { gdb with running := running }

/-- The size of both breakpoint tables. -/
def breakTable : Nat := 100

def gdbBreakpointInsert (gdb : Gdb) (addr len : BitVec 64) : BreakKind → Option Gdb
  | .sw | .hw =>
    if gdb.breakpoints.length < breakTable then
      some { gdb with breakpoints := gdb.breakpoints ++ [addr] }
    else none
  | .other => some gdb
  | kind =>
    if gdb.watchpoints.length < breakTable then
      some { gdb with
        watchpoints := gdb.watchpoints ++
          [{ beginAddress := addr, endAddress := addr + len, kind := kind }] }
    else none

def gdbBreakpointRemove (gdb : Gdb) (addr len : BitVec 64) : BreakKind → Gdb
  | .sw | .hw => { gdb with breakpoints := gdb.breakpoints.erase addr }
  | .other => gdb
  | kind =>
    { gdb with
      watchpoints := gdb.watchpoints.erase
        { beginAddress := addr, endAddress := addr + len, kind := kind } }

/-- `gdb_handle_packet`; `none` when the packet ends the tool or leaves a
breakpoint table. -/
def gdbHandlePacket (gdb : Gdb) : Packet → Option Gdb
  | .step => some (gdbContinue gdb .step)
  | .continue_ => some (gdbContinue gdb .continue_)
  | .detach => some (gdbContinue gdb .detach)
  | .reverseStep => some (gdbContinue gdb .reverseStep)
  | .reverseContinue => some (gdbContinue gdb .reverseContinue)
  | .stepThread =>
    if gdb.writeWatchpoint then some gdb
    else some (gdbContinue gdb .step)
  | .halted => some { gdb with breakpoints := [], watchpoints := [] }
  | .insert addr len kind => gdbBreakpointInsert gdb addr len kind
  | .remove addr len kind => some (gdbBreakpointRemove gdb addr len kind)
  | .kill => none
  | .query => some gdb

def gdbMaxPacketLength : Nat := 4096 * 4

/-- One byte of a word in memory order. -/
def wordByte (value : Word) (index : Nat) : Byte :=
  (value >>> (8 * index)).setWidth 8

/-- The number of words the packet `m` reads. -/
def readWords (len : Nat) : Nat :=
  if len >>> 2 = 0 then 1 else len >>> 2

/-- The bytes of `mem_buf` when it is printed.  `watch` is the pending value
of a watchpoint and `unset` is what the buffer held before. -/
def memBuf (table : HashTable) (watch : Option (Word × Word))
    (unset : Nat → Byte) (addr : Word) (len index : Nat) : Byte :=
  match watch.filter (fun pending => addr = pending.1) with
  | some (_, value) =>
    if index < 4 then wordByte value index else unset index
  | none =>
    if index < 4 * readWords len then
      wordByte
        (memGetAddrValue table (addr + BitVec.ofNat 32 (4 * (index / 4))))
        (index % 4)
    else unset index

def tohex (value : Nat) : Char :=
  if value < 10 then Char.ofNat (value + 48) else Char.ofNat (value - 10 + 97)

def memtohex (bytes : List Byte) : List Char :=
  bytes.flatMap fun byte => [tohex (byte.toNat / 16), tohex (byte.toNat % 16)]

/-- The reply to `m`; `none` when it does not fit into `buf`. -/
def gdbReadMemory (table : HashTable) (watch : Option (Word × Word))
    (unset : Nat → Byte) (addr : Word) (len : Nat) : Option (List Char) :=
  if 2 * len + 1 ≤ gdbMaxPacketLength then
    some (memtohex ((List.range len).map (memBuf table watch unset addr len)))
  else none

/-- What the debugger sends, one list of packets for each read. -/
abbrev Script := List (List Packet)

/-- The reading loop of `gdb_loop`.  All packets of a read are handled before
the state is tested again. -/
def readLoop : Gdb → Script → Option (Gdb × Script)
  | gdb, [] => some ({ gdb with running := .detach }, [])
  | gdb, packets :: script => do
      let gdb ← packets.foldlM gdbHandlePacket gdb
      if gdb.running = .control then readLoop gdb script
      else return (gdb, script)

/-- `gdb_loop` after a stop; `watch` tells whether a watchpoint was hit. -/
def gdbLoop (gdb : Gdb) (watch : Bool) (script : Script) : Option (Gdb × Script) :=
  let gdb :=
    { gdb with
      writeWatchpoint := watch && decide (gdb.running ≠ .init) }
  if gdb.running = .detach then some (gdb, script)
  else readLoop { gdb with running := .control } script

/-- `gdb_condition`, as the test whether its answer is not zero. -/
def gdbCondition (gdb : Gdb) (addr : Word) : Bool :=
  match gdb.running with
  | .detach => false
  | .step | .init | .reverseStep => true
  | _ => gdb.breakpoints.contains (addr.setWidth 64)

/-- `gdb_exec_direction`: whether execution goes backward. -/
def gdbExecDirection (gdb : Gdb) : Bool :=
  gdb.running = .reverseContinue ∨ gdb.running = .reverseStep

/-- The test of `gdb_verify` on one watchpoint. -/
def Watch.hit (watch : Watch) (addr : Word) : Bool :=
  watch.beginAddress.toNat ≤ addr.toNat ∧
    addr.toNat < watch.endAddress.toNat ∧
    (watch.kind = .write ∨ watch.kind = .access)

/-- The state machine of `gdb_verify` on what the last step has done. -/
def gdbStop (gdb : Gdb) (script : Script) : Seen → Option (Gdb × Script)
  | .cpu _ pc =>
    if gdbCondition gdb pc then gdbLoop gdb false script
    else some (gdb, script)
  | .mem _ addr _ =>
    if gdb.watchpoints.any (Watch.hit · addr) then gdbLoop gdb true script
    else some (gdb, script)
  | .periph => some (gdb, script)

/-- The move of `gdb_verify` at the head of its loop. -/
def gdbMove (oracle : Oracle) (gdb : Gdb) (seen : Seen) : Option (Oracle × Seen) :=
  if gdbExecDirection gdb then oracleReverseExec oracle
  else if oracleGetTrace oracle then some (oracle, seen)
  else oracleForwardExec oracle

/-- How a call of `gdb_verify` ends. -/
inductive Verdict where
  | returned (oracle : Oracle) (gdb : Gdb) (script : Script)
  /-- A node could not be replayed. -/
  | stuck (oracle : Oracle) (gdb : Gdb)
  | exited
  | outOfFuel

/-- `gdb_verify`, for at most `fuel` rounds of its loop. -/
def gdbVerify : Nat → Oracle → Gdb → Script → Seen → Verdict
  | 0, _, _, _, _ => .outOfFuel
  | fuel + 1, oracle, gdb, script, seen =>
    match gdbMove oracle gdb seen with
    | none => .stuck oracle gdb
    | some (oracle, seen) =>
      match gdbStop gdb script seen with
      | none => .exited
      | some (gdb, script) =>
        if gdbExecDirection gdb ∨ oracleGetTrace oracle = false then
          gdbVerify fuel oracle gdb script seen
        else .returned oracle gdb script

end Reverse.Delorean
