import Mathlib
import Reverse.Delorean.Gdbstub

/-!
# The tables of breakpoints and watchpoints

The packets `Z` and `z` insert points into the tables of `m_gdb` and remove
them.  A point is inserted as often as it is sent, removed once by each packet,
and the reply is `OK` whatever happened.  So the tables show the set of points
that the debugger has in mind exactly in the runs in which no point is removed
that is in the table more than once, no unsupported type is inserted, the table
has room, and the stored range of a watchpoint is the range that was asked for.
-/

namespace Reverse.Delorean

open Sherlock

/-- The packets `Z` and `z` with the numbers that `strtoull` finds in them. -/
inductive BreakPacket where
  | insert (kind : BreakKind) (addr len : BitVec 64)
  | remove (kind : BreakKind) (addr len : BitVec 64)
deriving DecidableEq, Repr

/-- The length is kept in an `int` and passed on as `unsigned long`. -/
def passedLength (len : BitVec 64) : BitVec 64 :=
  (len.setWidth 32).signExtend 64

/-- The reply for a result; the value of `ENOSYS` is 38. -/
def breakReply (res : Int) : String :=
  if 0 ≤ res then "OK" else if res = -38 then "" else "E22"

/-- The two cases of `gdb_handle_packet`.  The result of the insertion or
removal is overwritten by 1. -/
def gdbBreakPacket (gdb : Gdb) : BreakPacket → Option (Gdb × String)
  | .insert kind addr len =>
    (gdbBreakpointInsert gdb addr (passedLength len) kind).map fun gdb => (gdb, breakReply 1)
  | .remove kind addr len =>
    some (gdbBreakpointRemove gdb addr (passedLength len) kind, breakReply 1)

def breakRun (packets : List BreakPacket) : Option Gdb :=
  packets.foldlM (fun gdb packet => (gdbBreakPacket gdb packet).map Prod.fst)
    gdbStartAndWait

/-- What a packet names: a breakpoint of some type at an address, or a
watchpoint of some type on a range. -/
inductive Point where
  | code (kind : BreakKind) (addr : BitVec 64)
  | data (kind : BreakKind) (addr len : BitVec 64)
deriving DecidableEq, Repr

/-- Packets of an unsupported type name nothing. -/
def pointOf (kind : BreakKind) (addr len : BitVec 64) : Option Point :=
  match kind with
  | .sw | .hw => some (.code kind addr)
  | .other => none
  | .write | .read | .access => some (.data kind addr len)

/-- What a packet does to the points that the debugger has in mind. -/
def liveStep (points : Finset Point) : BreakPacket → Finset Point
  | .insert kind addr len =>
    match pointOf kind addr len with
    | some point => insert point points
    | none => points
  | .remove kind addr len =>
    match pointOf kind addr len with
    | some point => points.erase point
    | none => points

def live (packets : List BreakPacket) : Finset Point :=
  packets.foldl liveStep ∅

/-- What can make the execution stop: an instruction or an access to memory. -/
inductive Moment where
  | inst (pc : Word)
  | load (addr : Word)
  | store (addr : Word)
deriving DecidableEq, Repr

/-- The addresses of a range, which does not wrap around. -/
def inRange (addr len : BitVec 64) (place : Word) : Bool :=
  addr.toNat ≤ place.toNat ∧ place.toNat < addr.toNat + len.toNat

/-- The moments at which the execution should stop because of a point. -/
def Point.asks : Point → Moment → Bool
  | .code _ addr, .inst pc => pc.setWidth 64 = addr
  | .data kind addr len, .load place =>
    (kind = .read ∨ kind = .access) ∧ inRange addr len place
  | .data kind addr len, .store place =>
    (kind = .write ∨ kind = .access) ∧ inRange addr len place
  | _, _ => false

/-- An entry of one of the tables. -/
inductive Entry where
  | code (addr : BitVec 64)
  | data (watch : Watch)
deriving DecidableEq, Repr

def Point.entry : Point → Entry
  | .code _ addr => .code addr
  | .data kind addr len => .data ⟨addr, addr + passedLength len, kind⟩

def Gdb.entries (gdb : Gdb) : List Entry :=
  gdb.breakpoints.map .code ++ gdb.watchpoints.map .data

/-- The tests of `gdb_condition` and `gdb_verify` on an entry.  Nothing is done
for a load. -/
def Entry.catches : Entry → Moment → Bool
  | .code addr, .inst pc => pc.setWidth 64 = addr
  | .data watch, .store place => watch.hit place
  | _, _ => false

/-- The execution stops while it continues. -/
def stopsAt (gdb : Gdb) : Moment → Bool
  | .inst pc => gdbCondition (gdbContinue gdb .continue_) pc
  | .load _ => false
  | .store place => gdb.watchpoints.any (Watch.hit · place)

theorem stopsAt_iff (gdb : Gdb) (moment : Moment) :
    stopsAt gdb moment = true ↔ ∃ entry ∈ gdb.entries, entry.catches moment = true := by
  unfold Gdb.entries
  cases moment with
  | inst pc =>
    simp [stopsAt, gdbCondition, gdbContinue, Entry.catches, or_and_right, exists_or]
  | load place => simp [stopsAt, Entry.catches]
  | store place =>
    simp [stopsAt, Entry.catches, or_and_right, exists_or]

/-- The table of a type has room for another entry. -/
def Gdb.hasRoom (gdb : Gdb) : BreakKind → Bool
  | .sw | .hw => gdb.breakpoints.length < breakTable
  | .other => false
  | .write | .read | .access => gdb.watchpoints.length < breakTable

theorem gdbBreakpointInsert_room (named : pointOf kind addr len = some point)
    (room : gdb.hasRoom kind = true) :
    ∃ next, gdbBreakpointInsert gdb addr (passedLength len) kind = some next ∧
      ∀ entry, entry ∈ next.entries ↔ entry = point.entry ∨ entry ∈ gdb.entries := by
  cases kind <;> cases named <;>
    · refine ⟨_, if_pos (of_decide_eq_true room), fun entry => ?_⟩
      simp only [Gdb.entries, Point.entry, List.map_append, List.mem_append,
        List.map_cons, List.map_nil, List.mem_singleton]
      tauto

theorem Entry.code_injective : Function.Injective Entry.code := by
  intro left right same
  cases same
  rfl

theorem Entry.data_injective : Function.Injective Entry.data := by
  intro left right same
  cases same
  rfl

theorem Gdb.erase_code (gdb : Gdb) (addr : BitVec 64) :
    gdb.entries.erase (.code addr) =
      (gdb.breakpoints.erase addr).map .code ++ gdb.watchpoints.map .data := by
  rw [Gdb.entries, List.erase_append, List.map_erase Entry.code_injective]
  split
  · rfl
  · rename_i absent
    rw [List.erase_of_not_mem absent, List.erase_of_not_mem (by simp)]

theorem Gdb.erase_data (gdb : Gdb) (watch : Watch) :
    gdb.entries.erase (.data watch) =
      gdb.breakpoints.map .code ++ (gdb.watchpoints.erase watch).map .data := by
  rw [Gdb.entries, List.erase_append_right _ (by simp), List.map_erase Entry.data_injective]

theorem gdbBreakpointRemove_entries (gdb : Gdb) (named : pointOf kind addr len = some point) :
    (gdbBreakpointRemove gdb addr (passedLength len) kind).entries =
      gdb.entries.erase point.entry := by
  cases kind <;> cases named
  case sw | hw => exact (gdb.erase_code addr).symm
  all_goals exact (gdb.erase_data _).symm

/-- The entries of the points, and nothing else, are in the tables, each of them
is met when its point asks for it, and the execution stops accordingly. -/
structure Gdb.Shows (gdb : Gdb) (points : Finset Point) : Prop where
  entries : ∀ entry, entry ∈ gdb.entries ↔
    ∃ point ∈ points, point.entry = entry
  met : ∀ point ∈ points, ∀ moment,
    point.asks moment = point.entry.catches moment
  stops : ∀ moment, stopsAt gdb moment = true ↔
    ∃ point ∈ points, point.asks moment = true

/-- Where the points are met, the tables decide where the execution stops. -/
theorem Gdb.Shows.of_entries {gdb : Gdb} (entries : ∀ entry, entry ∈ gdb.entries ↔
      ∃ point ∈ points, point.entry = entry) (met : ∀ point ∈ points, ∀ moment,
      point.asks moment = point.entry.catches moment) :
    gdb.Shows points := by
  refine ⟨entries, met, fun moment => (stopsAt_iff gdb moment).trans ?_⟩
  constructor
  · intro ⟨entry, present, caught⟩
    obtain ⟨point, known, same⟩ := (entries entry).mp present
    exact ⟨point, known, by rw [met point known, same, caught]⟩
  · intro ⟨point, known, asked⟩
    refine ⟨point.entry, (entries _).mpr ⟨point, known, rfl⟩, ?_⟩
    rw [← met point known, asked]

theorem gdbStartAndWait_shows : gdbStartAndWait.Shows ∅ := by
  apply Gdb.Shows.of_entries <;> simp [Gdb.entries, gdbStartAndWait]

/-- Insertions that the debugger should be told about. -/
def Gdb.Rejects (gdb : Gdb) : BreakPacket → Prop
  | .insert kind _ _ => gdb.hasRoom kind = false
  | .remove .. => False

/-- A packet is handled as by sets. -/
structure Gdb.Handles (gdb : Gdb) (points : Finset Point)
    (packet : BreakPacket) : Prop where
  shown : ∃ next reply, gdbBreakPacket gdb packet = some (next, reply) ∧
    next.Shows (liveStep points packet)
  refused : gdb.Rejects packet → ∃ reply,
    gdbBreakPacket gdb packet = some (gdb, reply) ∧ reply ≠ "OK"

/-- An insertion is supported, has room and stores what it asks for.  A removal
meets an entry that is there once, unless another point has the same entry. -/
def Gdb.Fine (gdb : Gdb) (points : Finset Point) : BreakPacket → Prop
  | .insert kind addr len =>
    gdb.hasRoom kind = true ∧
      ∀ point, pointOf kind addr len = some point →
        ∀ moment, point.asks moment = point.entry.catches moment
  | .remove kind addr len =>
    ∀ point, pointOf kind addr len = some point →
      (1 < gdb.entries.count point.entry ↔
        ∃ other ∈ points, other ≠ point ∧ other.entry = point.entry)

theorem mem_erase_self_iff [DecidableEq α] (list : List α) (value : α) :
    value ∈ list.erase value ↔ 1 < list.count value := by
  rw [← List.count_pos_iff, List.count_erase_self]
  omega

theorem gdbBreakPacket_reply (handled : gdbBreakPacket gdb packet = some (next, reply)) :
    reply = "OK" := by
  cases packet with
  | insert kind addr len =>
    obtain ⟨_, _, same⟩ := Option.map_eq_some_iff.mp handled
    cases same
    rfl
  | remove kind addr len =>
    cases handled
    rfl

theorem pointOf_of_room {gdb : Gdb} (room : gdb.hasRoom kind = true) (addr len : BitVec 64) :
    ∃ point, pointOf kind addr len = some point := by
  cases kind
  case other => exact absurd room Bool.false_ne_true
  all_goals exact ⟨_, rfl⟩

theorem Gdb.Shows.handles_insert_iff {gdb : Gdb} (shows_ : gdb.Shows points)
    (kind : BreakKind) (addr len : BitVec 64) :
    gdb.Handles points (.insert kind addr len) ↔ gdb.Fine points (.insert kind addr len) := by
  constructor
  · intro handles
    have room : gdb.hasRoom kind = true := by
      by_contra full
      obtain ⟨reply, handled, refused⟩ := handles.refused (Bool.eq_false_of_not_eq_true full)
      exact refused (gdbBreakPacket_reply handled)
    refine ⟨room, fun point named => ?_⟩
    obtain ⟨next, reply, -, shown⟩ := handles.shown
    apply shown.met
    simp [liveStep, named]
  · intro ⟨room, meets⟩
    refine ⟨?_, fun full => by simp [Gdb.Rejects, room] at full⟩
    obtain ⟨point, named⟩ := pointOf_of_room room addr len
    obtain ⟨next, inserted, present⟩ := gdbBreakpointInsert_room named room
    refine ⟨next, breakReply 1, by simp [gdbBreakPacket, inserted], ?_⟩
    apply Gdb.Shows.of_entries
    · intro entry
      simp [liveStep, named, present, shows_.entries, eq_comm]
    · simpa [liveStep, named] using ⟨meets point named, shows_.met⟩

theorem Gdb.Shows.handles_remove_iff {gdb : Gdb} (shows_ : gdb.Shows points)
    (kind : BreakKind) (addr len : BitVec 64) :
    gdb.Handles points (.remove kind addr len) ↔ gdb.Fine points (.remove kind addr len) := by
  constructor
  · intro handles point named
    obtain ⟨next, reply, handled, shown⟩ := handles.shown
    cases handled
    have left := shown.entries point.entry
    rw [gdbBreakpointRemove_entries gdb named, mem_erase_self_iff] at left
    simpa [liveStep, named, and_assoc, and_left_comm] using left
  · intro once
    refine ⟨⟨_, _, rfl, ?_⟩, False.elim⟩
    cases named : pointOf kind addr len with
    | none =>
      have kept : gdbBreakpointRemove gdb addr (passedLength len) kind =
          gdb := by
        cases kind <;> first | rfl | cases named
      simpa [liveStep, named, kept] using shows_
    | some point =>
      apply Gdb.Shows.of_entries
      · intro entry
        rw [gdbBreakpointRemove_entries gdb named]
        by_cases same : entry = point.entry
        · subst same
          rw [mem_erase_self_iff, once point named]
          simp [liveStep, named, and_assoc, and_left_comm]
        · rw [List.mem_erase_of_ne same, shows_.entries]
          simp only [liveStep, named, Finset.mem_erase]
          constructor
          · intro ⟨other, known, entered⟩
            refine ⟨other, ⟨fun equal => same ?_, known⟩, entered⟩
            rw [← entered, equal]
          · intro ⟨other, ⟨_, known⟩, entered⟩
            exact ⟨other, known, entered⟩
      · intro other known
        apply shows_.met
        simp only [liveStep, named] at known
        exact Finset.mem_of_mem_erase known

theorem Gdb.Shows.handles_iff {gdb : Gdb} (shows_ : gdb.Shows points) (packet : BreakPacket) :
    gdb.Handles points packet ↔ gdb.Fine points packet := by
  cases packet with
  | insert kind addr len => exact shows_.handles_insert_iff kind addr len
  | remove kind addr len => exact shows_.handles_remove_iff kind addr len

/-- After each of the packets the tables show the points, and each packet is
handled as by sets. -/
def TablesAreSets (packets : List BreakPacket) : Prop :=
  ∀ n, ∃ gdb, breakRun (packets.take n) = some gdb ∧
    gdb.Shows (live (packets.take n)) ∧
    ∀ packet, packets[n]? = some packet → gdb.Handles (live (packets.take n)) packet

theorem breakRun_concat (packets : List BreakPacket) (packet : BreakPacket) :
    breakRun (packets ++ [packet]) =
      (breakRun packets).bind fun gdb =>
        (gdbBreakPacket gdb packet).map Prod.fst := by
  simp [breakRun, List.foldlM_append]

theorem live_concat (packets : List BreakPacket) (packet : BreakPacket) :
    live (packets ++ [packet]) = liveStep (live packets) packet := by
  simp [live, List.foldl_append]

theorem breakRun_shows {packets : List BreakPacket}
    (fine : ∀ n gdb packet, packets[n]? = some packet →
      breakRun (packets.take n) = some gdb →
      gdb.Fine (live (packets.take n)) packet) (n : Nat) :
    ∃ gdb, breakRun (packets.take n) = some gdb ∧ gdb.Shows (live (packets.take n)) := by
  induction n with
  | zero => exact ⟨gdbStartAndWait, rfl, gdbStartAndWait_shows⟩
  | succ n ih =>
    obtain ⟨gdb, run, shown⟩ := ih
    rw [List.take_add_one]
    cases found : packets[n]? with
    | none => simpa using ⟨gdb, run, shown⟩
    | some packet =>
      obtain ⟨next, reply, handled, showing⟩ :=
        ((shown.handles_iff packet).mpr (fine n gdb packet found run)).shown
      refine ⟨next, ?_, ?_⟩
      · simp [breakRun_concat, run, handled]
      · simpa [live_concat] using showing

/-- The tables of breakpoints and watchpoints are sets of points exactly in the
runs whose packets are all fine. -/
theorem tables_are_sets_iff (packets : List BreakPacket) :
    TablesAreSets packets ↔
      ∀ n gdb packet, packets[n]? = some packet →
        breakRun (packets.take n) = some gdb →
        gdb.Fine (live (packets.take n)) packet := by
  constructor
  · intro sets n gdb packet found run
    obtain ⟨reached, same, shown, handles⟩ := sets n
    cases run.symm.trans same
    exact (shown.handles_iff packet).mp (handles packet found)
  · intro fine n
    obtain ⟨gdb, run, shown⟩ := breakRun_shows fine n
    refine ⟨gdb, run, shown, fun packet found => ?_⟩
    exact (shown.handles_iff packet).mpr (fine n gdb packet found run)

/-- A breakpoint that was inserted twice stops the execution after its
removal. -/
theorem removed_twice_inserted :
    ∃ gdb, breakRun [.insert .sw 64 4, .insert .sw 64 4, .remove .sw 64 4] = some gdb ∧
      live [.insert .sw 64 4, .insert .sw 64 4, .remove .sw 64 4] = ∅ ∧
      stopsAt gdb (.inst 64) = true ∧
      ¬ TablesAreSets [.insert .sw 64 4, .insert .sw 64 4, .remove .sw 64 4] := by
  refine ⟨_, rfl, by decide, by decide, fun sets => ?_⟩
  obtain ⟨gdb, run, shown, _⟩ := sets 3
  cases run
  have none_ := (shown.stops (.inst 64)).mp (by decide)
  revert none_
  decide

end Reverse.Delorean
