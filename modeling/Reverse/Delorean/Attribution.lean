import Reverse.Delorean.Debugging
import Reverse.Delorean.StoreBytes

/-!
# What a watchpoint reports

A stop at a watchpoint is reported with the fields `ref` and `val` of the
parameter block that the caller of `gdb_verify` has on its stack.  Replay steps
fill in the identifier, the address and the value of the node, in both
directions the one that the store has left.  No step fills in `ref`: every stop
of a call names the processor that the caller has put there, or nothing has.
So a stop tells the truth exactly if that processor has made the store and, on
the way back, the store has repeated the bytes that were there.
-/

namespace Reverse.Delorean

open Sherlock Option

/-- The union `gdb_param_t`.  `cpu.id` and `mem.id` are its first half-word,
`cpu.pc` and `mem.addr` its second word, and `mem.ref` lies in the padding of
`gdb_cpu_t`. -/
structure GdbParam where
  id : BitVec 16
  ref : BitVec 16
  addr : Word
  val : Word
deriving DecidableEq, Repr

/-- The fields that a replay step returns. -/
def GdbParam.fill (param : GdbParam) : Seen → GdbParam
  | .cpu id pc => { param with id := id.setWidth 16, addr := pc }
  | .mem id addr val =>
    { param with id := id.setWidth 16, addr := addr, val := val }
  | .periph => param

theorem GdbParam.fill_ref (param : GdbParam) (seen : Seen) : (param.fill seen).ref = param.ref := by
  cases seen <;> rfl

/-- A call of `gdb_loop` for a store that was replayed. -/
structure WatchStop where
  node : Option NodeId
  reverse : Bool
  cpu : BitVec 16
  val : Word
deriving DecidableEq, Repr

/-- What a round of `gdb_verify` that has replayed a node reports at a
watchpoint. -/
def watchStop (oracle next : Oracle) (gdb : Gdb) (seen : Seen)
    (param : GdbParam) : Option WatchStop :=
  match seen with
  | .mem .. =>
    if (gdbExecDirection gdb ∨ oracleGetTrace oracle = false) ∧
        gdb.watchpoints.any (Watch.hit · param.addr) then
      some
        { node :=
            if gdbExecDirection gdb then oracle.lastExec else next.lastExec
          reverse := gdbExecDirection gdb
          cpu := param.ref
          val := param.val }
    else none
  | _ => none

/-- The stops at watchpoints that `gdb_verify` reports while it replays. -/
def watchStops : Nat → Oracle → Gdb → Script → Seen → GdbParam → List WatchStop
  | 0, _, _, _, _, _ => []
  | fuel + 1, oracle, gdb, script, seen, param =>
    match gdbMove oracle gdb seen with
    | none => []
    | some (next, seen) =>
      let param := param.fill seen
      (watchStop oracle next gdb seen param).toList ++
        match gdbStop gdb script seen with
        | none => []
        | some (gdb, script) =>
          if gdbExecDirection gdb ∨ oracleGetTrace next = false then
            watchStops fuel next gdb script seen param
          else []

section Packets

variable (watched : Word → Prop) (backward : Prop)

/-- The debugger watches no other addresses, and goes back only if it may. -/
structure Gdb.Within (gdb : Gdb) : Prop where
  watches : ∀ watch ∈ gdb.watchpoints, ∀ addr, watch.hit addr = true → watched addr
  direction : gdbExecDirection gdb = true → backward

def Packet.Within : Packet → Prop
  | .insert addr len kind =>
    ∀ place, Watch.hit ⟨addr, addr + len, kind⟩ place = true → watched place
  | .reverseStep | .reverseContinue => backward
  | _ => True

def Script.Within (script : Script) : Prop :=
  ∀ packets ∈ script, ∀ packet ∈ packets, packet.Within watched backward

variable {watched backward} {gdb next : Gdb}

theorem Gdb.Within.running (within : gdb.Within watched backward)
    (direction : gdbExecDirection { gdb with running := state } = true → backward) :
    Gdb.Within watched backward { gdb with running := state } :=
  ⟨within.watches, direction⟩

theorem gdbHandlePacket_within (within : gdb.Within watched backward)
    (allowed : packet.Within watched backward) (handled : gdbHandlePacket gdb packet = some next) :
    next.Within watched backward := by
  cases packet with
  | insert addr len kind =>
    cases kind <;>
      · simp only [gdbHandlePacket, gdbBreakpointInsert, ite_none_right_eq_some,
          some.injEq] at handled
        grind [Gdb.Within, Packet.Within, gdbExecDirection]
  | remove addr len kind =>
    cases handled
    refine ⟨fun watch member => within.watches watch ?_, ?_⟩
    · cases kind <;> first | exact member | exact List.mem_of_mem_erase member
    · cases kind <;> exact within.direction
  | reverseStep | reverseContinue =>
    cases handled
    exact within.running fun _ => allowed
  | stepThread =>
    simp only [gdbHandlePacket] at handled
    split at handled
    · cases handled
      exact within
    · cases handled
      exact within.running (by rintro ⟨⟩)
  | halted =>
    cases handled
    exact ⟨by rintro _ ⟨⟩, within.direction⟩
  | kill => cases handled
  | query =>
    cases handled
    exact within
  | step | continue_ | detach =>
    cases handled
    exact within.running (by rintro ⟨⟩)

theorem readLoop_within (finished : readLoop gdb script = some (next, rest)) :
    ∃ used, script = used ++ rest ∧
      (used.Within watched backward → gdb.Within watched backward →
        next.Within watched backward) := by
  induction script generalizing gdb with
  | nil =>
    cases finished
    exact ⟨[], rfl, fun _ within => within.running nofun⟩
  | cons packets script ih =>
    simp only [readLoop, bind_eq_bind, bind_eq_some_iff] at finished
    obtain ⟨handled, folded, finished⟩ := finished
    have first : (∀ packet ∈ packets, packet.Within watched backward) →
        gdb.Within watched backward → handled.Within watched backward := by
      intro allowed within
      refine Runs.foldlM_keeps (Gdb.Within watched backward) ?_ within folded
      intro packet before after member kept step
      exact gdbHandlePacket_within kept (allowed packet member) step
    split at finished
    · obtain ⟨used, isUsed, keeps⟩ := ih finished
      refine ⟨packets :: used, by rw [isUsed, List.cons_append], fun allowed within => ?_⟩
      obtain ⟨now, later⟩ := List.forall_mem_cons.mp allowed
      exact keeps later (first now within)
    · cases finished
      refine ⟨[packets], rfl, fun allowed within => ?_⟩
      exact first (List.forall_mem_singleton.mp allowed) within

/-- A stop reads some packets, and these decide what the debugger does next. -/
theorem gdbStop_within (stopped : gdbStop gdb script seen = some (next, rest)) :
    ∃ used, script = used ++ rest ∧
      (used.Within watched backward → gdb.Within watched backward →
        next.Within watched backward) := by
  have loop : ∀ watch, gdbLoop gdb watch script = some (next, rest) → ∃ used,
      script = used ++ rest ∧ (used.Within watched backward → gdb.Within watched backward →
        next.Within watched backward) := by
    intro watch finished
    unfold gdbLoop at finished
    dsimp only at finished
    split at finished
    · cases finished
      exact ⟨[], rfl, fun _ within => ⟨within.watches, within.direction⟩⟩
    · obtain ⟨used, isUsed, keeps⟩ := readLoop_within finished
      exact ⟨used, isUsed, fun allowed within => keeps allowed ⟨within.watches, nofun⟩⟩
  cases seen with
  | cpu id pc =>
    simp only [gdbStop] at stopped
    split at stopped
    · exact loop false stopped
    · cases stopped
      exact ⟨[], rfl, fun _ within => within⟩
  | mem id addr val =>
    simp only [gdbStop] at stopped
    split at stopped
    · exact loop true stopped
    · cases stopped
      exact ⟨[], rfl, fun _ within => within⟩
  | periph =>
    cases stopped
    exact ⟨[], rfl, fun _ within => within⟩

theorem gdbVerify_read (returned : gdbVerify fuel oracle gdb script seen = .returned last next rest) :
    ∃ used, script = used ++ rest := by
  induction fuel generalizing oracle gdb script seen with
  | zero => cases returned
  | succ fuel ih =>
    unfold gdbVerify at returned
    split at returned
    · cases returned
    · split at returned
      · cases returned
      · next stopped =>
          obtain ⟨used, rfl, _⟩ := @gdbStop_within (fun _ => True) True _ _ _ _ _ stopped
          split at returned
          · obtain ⟨more, rfl⟩ := ih returned
            exact ⟨used ++ more, (List.append_assoc ..).symm⟩
          · cases returned
            exact ⟨used, rfl⟩

/-- A call at the tip that reads no packet to go back changes nothing. -/
theorem gdbVerify_still (ended : oracleGetTrace oracle = true)
    (within : gdb.Within (fun _ => True) False)
    (returned : gdbVerify fuel oracle gdb script seen = .returned last next rest) :
    ∃ used, script = used ++ rest ∧
      (used.Within (fun _ => True) False → last = oracle ∧ next.Within (fun _ => True) False) := by
  have forward : ∀ {gdb : Gdb}, gdb.Within (fun _ => True) False → ¬ gdbExecDirection gdb = true :=
    fun within => within.direction
  cases fuel with
  | zero => cases returned
  | succ fuel =>
    rw [gdbVerify, gdbMove, if_neg (forward within), if_pos ended] at returned
    dsimp only at returned
    split at returned
    · cases returned
    · next stopped =>
        obtain ⟨used, rfl, keeps⟩ := gdbStop_within stopped
        split at returned
        · next again =>
            obtain ⟨more, rfl⟩ := gdbVerify_read returned
            refine ⟨used ++ more, (List.append_assoc ..).symm, fun allowed => ?_⟩
            have kept := keeps (fun packets member =>
              allowed packets (List.mem_append_left _ member)) within
            have notEnded := ne_false_of_eq_true ended
            exact absurd (again.resolve_right notEnded) (forward kept)
        · cases returned
          exact ⟨used, rfl, fun allowed => ⟨rfl, keeps allowed within⟩⟩

end Packets

/-- The node is the one a step has replayed. -/
def NodeData.Told (content : NodeData) (seen : Seen) : Prop :=
  ∀ id addr val, seen = .mem id addr val →
    ∃ data : MemData, content = .mem data ∧ data.addr = addr ∧ data.value = val

theorem NodeData.Shown.told {content : NodeData} (shown : content.Shown seen) :
    content.Told seen := by
  rintro id addr val rfl
  cases content with
  | mem data => exact ⟨data, rfl, shown.1.symm, shown.2.symm⟩
  | inst data => cases shown
  | dev id => cases shown

section Track

variable {base first count pos : Nat} {oracle next : Oracle} {seen : Seen}

section

variable (track : Track base first count pos oracle)

include track

theorem Track.reverse (reversed : oracleReverseExec oracle = some (next, seen))
    :
    ∃ event, pos = event + 1 ∧ event < count ∧
      next.nodes = oracle.nodes ∧ Track base first count event next ∧
      oracle.lastExec = some (first + event) ∧
      (oracle.nodes (first + event)).data.Told seen := by
  obtain ⟨last, current, named, shown, nodes, fresh, back⟩ := oracleReverseExec_shown reversed
  rw [track.current, some.injEq] at current
  subst current
  cases pos with
  | zero => exact absurd track.unnamed named
  | succ event =>
    have inside : event < count := track.inside
    rw [track.chain.back event inside] at back
    exact ⟨event, rfl, inside, nodes,
      track.of_heap nodes fresh (Nat.le_of_lt inside) back, track.current,
      shown.told⟩

theorem Track.forward (forwarded : oracleForwardExec oracle = some (next, seen)) :
    pos < count ∧ next.nodes = oracle.nodes ∧
      Track base first count (pos + 1) next ∧
      (oracle.nodes (first + pos)).data.Told seen := by
  obtain ⟨last, node, current, follows, shown, nodes, fresh, stands⟩ :=
    oracleForwardExec_shown forwarded
  rw [track.current, some.injEq] at current
  subst current
  rcases Nat.lt_or_eq_of_le track.inside with inside | rfl
  · rw [track.chain.next pos inside, some.injEq] at follows
    subst follows
    exact ⟨inside, nodes, track.of_heap nodes fresh inside stands, shown.told⟩
  · rw [track.chain.tip] at follows
    cases follows

end

variable {watched : Word → Prop} {backward : Prop}

/-- The stop names the processor in `ref`, a recorded store to a watched address
and the value in its node. -/
def WatchStop.Tells (watched : Word → Prop) (backward : Prop) (stop : WatchStop)
    (nodes : NodeId → InstNode) (first count : Nat) (ref : BitVec 16) : Prop :=
  stop.cpu = ref ∧ (stop.reverse = true → backward) ∧
    ∃ event < count, stop.node = some (first + event) ∧
      ∃ data, (nodes (first + event)).data = .mem data ∧ watched data.addr ∧
        stop.val = data.value

theorem NodeData.Told.tells (told : content.Told seen)
    (here : (nodes (first + event)).data = content) (inside : event < count)
    (within : gdb.Within watched backward) {param : GdbParam}
    (node : (if gdbExecDirection gdb then oracle.lastExec
      else next.lastExec) = some (first + event))
    (stopped : watchStop oracle next gdb seen (param.fill seen) = some stop) :
    stop.Tells watched backward nodes first count param.ref := by
  unfold watchStop at stopped
  split at stopped
  · split at stopped
    · next hit =>
        cases stopped
        obtain ⟨data, isMem, addr, value⟩ := told _ _ _ rfl
        obtain ⟨watch, member, caught⟩ := List.any_eq_true.mp hit.2
        refine ⟨param.fill_ref _, within.direction, event, inside, node, data,
          here.trans isMem, ?_, value.symm⟩
        rw [addr]
        exact within.watches watch member _ caught
    · cases stopped
  · cases stopped

section

variable (track : Track base first count pos oracle)

include track

/-- A round keeps to the track, and its stop tells what it has replayed. -/
theorem Track.round (within : gdb.Within watched backward)
    (moved : gdbMove oracle gdb before = some (next, seen)) :
    next.nodes = oracle.nodes ∧
      (∃ other, Track base first count other next) ∧
      ∀ (param : GdbParam) (stop : WatchStop),
        watchStop oracle next gdb seen (param.fill seen) = some stop →
        stop.Tells watched backward oracle.nodes first count param.ref := by
  unfold gdbMove at moved
  split at moved
  · next back =>
      obtain ⟨event, _, inside, nodes, after, here, told⟩ := track.reverse moved
      refine ⟨nodes, ⟨event, after⟩, fun param stop => ?_⟩
      exact told.tells rfl inside within ((if_pos back).trans here)
  · next forward =>
      split at moved
      · next ended =>
          cases moved
          refine ⟨rfl, ⟨pos, track⟩, fun param stop stopped => ?_⟩
          cases seen <;> simp [watchStop, forward, ended] at stopped
      · obtain ⟨inside, nodes, after, told⟩ := track.forward moved
        refine ⟨nodes, ⟨pos + 1, after⟩, fun param stop => ?_⟩
        exact told.tells rfl inside within ((if_neg forward).trans after.current)

/-- Every stop of a call names the processor in the block of its caller. -/
theorem Track.stops_tell (fuel : Nat) (within : gdb.Within watched backward)
    (allowed : Script.Within watched backward script) (before : Seen) (param : GdbParam) :
    ∀ stop ∈ watchStops fuel oracle gdb script before param,
      stop.Tells watched backward oracle.nodes first count param.ref := by
  induction fuel generalizing pos oracle gdb script before param with
  | zero =>
    intro stop member
    cases member
  | succ fuel ih =>
    intro stop member
    unfold watchStops at member
    split at member
    · cases member
    · next next seen moved =>
        obtain ⟨nodes, ⟨other, after⟩, tells⟩ := track.round within moved
        rcases List.mem_append.mp member with here | later
        · exact tells param stop (mem_toList.mp here)
        · split at later
          · cases later
          · next gdb rest stopped =>
              obtain ⟨used, rfl, keeps⟩ := gdbStop_within stopped
              have now := keeps (fun packets member =>
                allowed packets (List.mem_append_left _ member)) within
              split at later
              · rw [← nodes, ← param.fill_ref seen]
                exact ih after now (fun packets member =>
                  allowed packets (List.mem_append_right _ member)) seen _ stop later
              · cases later

end

end Track

def recordedEvents (actions : List Action) : List Event :=
  actions.filterMap fun action =>
    match action with
    | .record event => some event
    | .verify _ => none

theorem recordedEvents_record (actions : List Action) (event : Event) :
    recordedEvents (actions ++ [.record event]) = recordedEvents actions ++ [event] := by
  simp [recordedEvents]

theorem recordedEvents_verify (actions : List Action) (seen : Seen) :
    recordedEvents (actions ++ [.verify seen]) = recordedEvents actions := by
  simp [recordedEvents]

/-- The bytes of the traced system, which only its stores change. -/
def realStep (memory : Word → Byte) : Event → Word → Byte
  | .store store => storeBytes memory store.addr store.data store.width
  | _ => memory

def realMemory (table : HashTable) (events : List Event) : Word → Byte :=
  events.foldl realStep (byteAt table)

theorem realMemory_snoc (table : HashTable) (events : List Event) (event : Event) :
    realMemory table (events ++ [event]) = realStep (realMemory table events) event := by
  simp [realMemory]

/-- The processor whose instruction has performed a store. -/
def performer (oracle : Oracle) (store : StoreEvent) : Option DevId := do
  let inst ← store.inst
  match (oracle.nodes inst).data with
  | .inst data => data.id
  | _ => none

section Truth

variable (table : HashTable) (comps : List Comp) (events : List Event) (oracle : Oracle)

/-- The store of a stop, the processor that has performed it and the value of
its word where the replay has arrived: before the store or after it. -/
def WatchStop.Truth (stop : WatchStop) (cpu : BitVec 16) (val : Word) : Prop :=
  ∃ (event : Nat) (store : StoreEvent) (id : DevId),
    stop.node = some ((boot table comps).fresh + event) ∧
    events[event]? = some (.store store) ∧
    performer oracle store = some id ∧ cpu = id.setWidth 16 ∧
    val = wordAt (realMemory table (events.take (if stop.reverse then event else event + 1)))
      store.addr

/-- What is reported is true. -/
def WatchStop.Right (stop : WatchStop) : Prop :=
  stop.Truth table comps events oracle stop.cpu stop.val

end Truth

theorem boot_track (table : HashTable) (announced : comps ≠ []) :
    ∃ base, Track base (boot table comps).fresh 0 0 (boot table comps) := by
  obtain ⟨base, first, chain, current⟩ := boot_chain table announced
  have fresh : (boot table comps).fresh = first := chain.fresh
  rw [fresh]
  exact ⟨base, chain, Nat.le_refl 0, current, boot_unnamed current⟩

/-- A recorded event changes the bytes of the table as it changes those of the
traced system, and the node of a store holds the word that it has left. -/
theorem Track.recorded (track : Track base first count count oracle)
    (recorded : recordEvent oracle event = some next)
    (fits : ∀ store, event = .store store → FitsWord store.addr store.width) :
    byteAt next.table = realStep (byteAt oracle.table) event ∧
      ∃ content, Appended oracle (nodeAt base first count) content next ∧
        ∀ data, content = .mem data → ∃ store, event = .store store ∧
          data.addr = store.addr ∧ data.value = wordAt (byteAt next.table) store.addr := by
  have allocated := track.chain.allocated (Nat.le_refl count)
  cases event with
  | inst id event =>
    simp only [recordEvent, cpuGoInst, execAndRecord, bind_eq_bind, bind_eq_some_iff] at recorded
    obtain ⟨regs, _, cpu, _, recorded⟩ := recorded
    have current : (oracle.setCpu id cpu).lastExec = some (nodeAt base first count) := track.current
    have heap := deloreanPgExecCpu_appended recorded current allocated
    obtain ⟨_, steady⟩ := steady_of_deloreanPgExecCpu recorded
    obtain ⟨_, result, _⟩ := deloreanPgExecCpu_steady current steady
    rw [result, some.injEq] at recorded
    refine ⟨by rw [← recorded]; rfl, _, ⟨heap.fresh, heap.lastExec, heap.added, heap.linked,
      heap.core, heap.back, heap.forth⟩, by rintro _ ⟨⟩⟩
  | store store =>
    obtain ⟨instr, heap, _, table⟩ := deloreanPgExecMem_appended recorded track.current allocated
    -- Apart from the edge, the table is the one that `mem_exec` has left.
    have bytes : byteAt next.table =
        byteAt (memExec oracle.table store.addr store.data store.width) := by
      funext place
      rw [byteAt, byteAt, table, HashTable.get_put]
      split
      · next same => rw [same]
      · rfl
    refine ⟨bytes.trans (byteAt_memExec (fits store rfl) _ _), _, ⟨heap.fresh, heap.lastExec,
      heap.added, heap.linked, heap.core, heap.back, heap.forth⟩, ?_⟩
    intro data isMem
    cases isMem
    refine ⟨store, rfl, rfl, ?_⟩
    rw [bytes, wordAt_byteAt]
  | dev id =>
    simp only [recordEvent, deloreanPgExecDev, track.current, bind_eq_bind,
      bind_some, pure_def, some.injEq] at recorded
    subst next
    exact ⟨rfl, _, append_appended allocated _, by rintro _ ⟨⟩⟩

/-- The table has the bytes of the traced system, and the nodes of the stores
the words that they have left. -/
structure Mirrored (table : HashTable) (base first : Nat) (events : List Event) (oracle : Oracle) :
    Prop extends Track base first events.length events.length oracle where
  bytes : byteAt oracle.table = realMemory table events
  stores : ∀ pos < events.length, ∀ data,
    (oracle.nodes (first + pos)).data = .mem data →
      ∃ store, events[pos]? = some (.store store) ∧ data.addr = store.addr ∧
        data.value = wordAt (realMemory table (events.take (pos + 1))) store.addr

theorem Mirrored.record (mirrored : Mirrored table base first events oracle)
    (recorded : recordEvent oracle event = some next)
    (fits : ∀ store, event = .store store → FitsWord store.addr store.width) :
    Mirrored table base first (events ++ [event]) next := by
  obtain ⟨bytes, content, appended, isStore⟩ := mirrored.recorded recorded fits
  have memory : byteAt next.table = realMemory table (events ++ [event]) := by
    rw [bytes, mirrored.bytes, realMemory_snoc]
  refine ⟨?_, memory, fun pos inside data isMem => ?_⟩
  · rw [List.length_append]
    exact mirrored.append appended
  · rw [List.length_append, List.length_singleton] at inside
    rcases Nat.lt_or_eq_of_le (Nat.le_of_lt_succ inside) with before | rfl
    · have old := appended.core (first + pos) (mirrored.chain.allocated before)
      rw [isMem] at old
      obtain ⟨store, found, addr, value⟩ :=
        mirrored.stores pos before data (NodeData.core_eq_mem old.symm)
      refine ⟨store, ?_, addr, ?_⟩
      · rw [List.getElem?_append_left before, found]
      · rw [value, List.take_append_of_le_length before]
    · rw [← mirrored.chain.fresh, appended.added] at isMem
      obtain ⟨store, rfl, addr, value⟩ := isStore data isMem
      refine ⟨store, by simp, addr, ?_⟩
      rw [value, memory, List.take_of_length_le (by simp)]

theorem boot_bytes (table : HashTable) (comps : List Comp) :
    byteAt (boot table comps).table = byteAt table := by
  induction comps using List.reverseRecOn with
  | nil => rfl
  | append_singleton comps comp ih =>
    rw [boot_append, ← ih]
    cases comp with
    | mem id => rfl
    | cpu id =>
      unfold deloreanPgComp
      dsimp only
      split <;> rfl

/-- As long as no packet has made the debugger go back, the memory is that of
the traced system. -/
theorem Session.Run.mirrored {gdb : Gdb} {script : Script}
    (start : Track base (boot table comps).fresh 0 0 (boot table comps))
    (attached : gdb.Within (fun _ => True) False)
    (run : Run (Session.start table comps gdb script) actions session) :
    ∃ consumed : Script, script = consumed ++ session.script ∧
      (consumed.Within (fun _ => True) False →
        (∀ store, .store store ∈ recordedEvents actions → FitsWord store.addr store.width) →
        session.gdb.Within (fun _ => True) False ∧
          Mirrored table base (boot table comps).fresh (recordedEvents actions) session.oracle) := by
  induction run with
  | nil =>
    exact ⟨[], rfl, fun _ _ => ⟨attached, start, boot_bytes table comps, nofun⟩⟩
  | @snoc actions _ middle _ run step ih =>
    obtain ⟨consumed, isConsumed, kept⟩ := ih
    cases step with
    | record event recorded =>
      refine ⟨consumed, isConsumed, fun allowed fits => ?_⟩
      rw [recordedEvents_record] at fits ⊢
      obtain ⟨within, mirrored⟩ := kept allowed fun store member =>
        fits store (List.mem_append_left _ member)
      refine ⟨within, mirrored.record recorded fun store isStore => fits store ?_⟩
      rw [isStore]
      exact List.mem_append_right _ List.mem_cons_self
    | verify seen fuel returned =>
      rw [recordedEvents_verify]
      obtain ⟨used, isUsed⟩ := gdbVerify_read returned
      refine ⟨consumed ++ used, ?_, fun allowed fits => ?_⟩
      · rw [isConsumed, isUsed, List.append_assoc]
      · obtain ⟨within, mirrored⟩ := kept (fun packets member =>
          allowed packets (List.mem_append_left _ member)) fits
        obtain ⟨same, isSame, still⟩ :=
          gdbVerify_still (mirrored.getTrace_iff.mpr rfl) within returned
        cases List.append_cancel_right (isUsed.symm.trans isSame)
        obtain ⟨stays, after⟩ := still fun packets member =>
          allowed packets (List.mem_append_right _ member)
        subst stays
        exact ⟨after, mirrored⟩

/-- The debugger goes back, or one of the packets tells it to. -/
def Reverses (gdb : Gdb) (script : Script) : Prop :=
  gdbExecDirection gdb = true ∨
    ∃ packets ∈ script, .reverseStep ∈ packets ∨ .reverseContinue ∈ packets

/-- A watchpoint that is set or that one of the packets inserts has the address. -/
def Watched (gdb : Gdb) (script : Script) (addr : Word) : Prop :=
  (∃ watch ∈ gdb.watchpoints, watch.hit addr = true) ∨
    ∃ packets ∈ script, ∃ start len kind,
      .insert start len kind ∈ packets ∧ Watch.hit ⟨start, start + len, kind⟩ addr = true

theorem within_of_reads (gdb : Gdb) (script : Script) :
    gdb.Within (Watched gdb script) (Reverses gdb script) ∧
      script.Within (Watched gdb script) (Reverses gdb script) := by
  refine ⟨⟨fun watch member addr hit => .inl ⟨watch, member, hit⟩, .inl⟩, ?_⟩
  intro packets read packet member
  cases packet with
  | insert start len kind =>
    exact fun addr hit => .inr ⟨packets, read, start, len, kind, member, hit⟩
  | reverseStep => exact .inr ⟨packets, read, .inl member⟩
  | reverseContinue => exact .inr ⟨packets, read, .inr member⟩
  | step | continue_ | detach | stepThread | halted | remove | kill | query => trivial

theorem within_of_not_reverses (forward : ¬ Reverses gdb script) :
    gdb.Within (fun _ => True) False ∧ script.Within (fun _ => True) False := by
  refine ⟨⟨fun _ _ _ _ => trivial, fun back => forward (.inl back)⟩, ?_⟩
  intro packets read packet member
  cases packet with
  | insert start len kind => exact fun _ _ => trivial
  | reverseStep => exact forward (.inr ⟨packets, read, .inl member⟩)
  | reverseContinue => exact forward (.inr ⟨packets, read, .inr member⟩)
  | step | continue_ | detach | stepThread | halted | remove | kill | query => trivial

/-- The processor that the block names has performed the store. -/
def StoreEvent.MadeBy (oracle : Oracle) (ref : BitVec 16) (store : StoreEvent) : Prop :=
  ∃ id, performer oracle store = some id ∧ ref = id.setWidth 16

/-- The store writes the bytes that are there. -/
def StoreEvent.Repeats (memory : Word → Byte) (store : StoreEvent) : Prop :=
  ∀ index < store.width, memory (store.addr + BitVec.ofNat 32 index) = store.data index

instance (memory : Word → Byte) (store : StoreEvent) : Decidable (store.Repeats memory) := by
  unfold StoreEvent.Repeats
  infer_instance

section

variable {events : List Event}

/-- The word before the store is the one in its node if the store repeats its
bytes. -/
theorem realMemory_repeats_iff (table : HashTable)
    (found : events[pos]? = some (.store store)) (fits : FitsWord store.addr store.width) :
    wordAt (realMemory table (events.take (pos + 1))) store.addr =
        wordAt (realMemory table (events.take pos)) store.addr ↔
      store.Repeats (realMemory table (events.take pos)) := by
  rw [List.take_add_one, found, toList_some, realMemory_snoc]
  exact wordAt_storeBytes_iff fits _ _

theorem Mirrored.right_iff (mirrored : Mirrored table base (boot table comps).fresh events oracle)
    (fit : ∀ store, .store store ∈ events → FitsWord store.addr store.width) {stop : WatchStop}
    (tells : stop.Tells watched backward oracle.nodes (boot table comps).fresh events.length ref) :
    ∃ pos store, stop.node = some ((boot table comps).fresh + pos) ∧
      events[pos]? = some (.store store) ∧ watched store.addr ∧
      (stop.Right table comps events oracle ↔ store.MadeBy oracle ref ∧
        (stop.reverse = true → store.Repeats (realMemory table (events.take pos)))) := by
  obtain ⟨cpu, _, pos, inside, node, data, isMem, isWatched, value⟩ := tells
  obtain ⟨store, found, addr, word⟩ := mirrored.stores pos inside data isMem
  have repeats := realMemory_repeats_iff table found (fit store (List.mem_of_getElem? found))
  refine ⟨pos, store, node, found, addr ▸ isWatched, ?_⟩
  rw [← repeats, ← word, ← value, ← cpu]
  constructor
  · rintro ⟨other, same, id, isNode, isStore, performed, isCpu, isVal⟩
    rw [node, some.injEq, Nat.add_left_cancel_iff] at isNode
    subst isNode
    cases found.symm.trans isStore
    refine ⟨⟨id, performed, isCpu⟩, fun reverse => ?_⟩
    rw [isVal, if_pos reverse]
  · rintro ⟨⟨id, performed, isCpu⟩, before⟩
    refine ⟨pos, store, id, node, found, performed, isCpu, ?_⟩
    split
    · next reverse => exact before reverse
    · rw [value, word]

end

/-- After a run in which no packet has made the debugger go back, a stop at a
watchpoint is reported with the processor that stored and the word at the
position reached exactly if the block of the caller names that processor and,
on the way back, the store has repeated the bytes that were there.  So all stops
are reported right if this holds for all stores to watched addresses. -/
theorem watch_attribution_iff (table : HashTable) (comps : List Comp)
    (announced : comps ≠ []) (gdb : Gdb) (script : Script)
    (actions : List Action) (session : Session)
    (run : (Session.start table comps gdb script).Run actions session)
    (consumed : Script) (read : script = consumed ++ session.script)
    (forward : ¬ Reverses gdb consumed)
    (fit : ∀ store, .store store ∈ recordedEvents actions → FitsWord store.addr store.width)
    (fuel : Nat) (seen : Seen) (param : GdbParam) :
    (∀ stop ∈ watchStops fuel session.oracle session.gdb session.script seen param,
      (stop.reverse = true → Reverses session.gdb session.script) ∧
      ∃ pos store, stop.node = some ((boot table comps).fresh + pos) ∧
        (recordedEvents actions)[pos]? = some (.store store) ∧
        Watched session.gdb session.script store.addr ∧
        (stop.Right table comps (recordedEvents actions) session.oracle ↔
          store.MadeBy session.oracle param.ref ∧
            (stop.reverse = true →
              store.Repeats (realMemory table ((recordedEvents actions).take pos))))) ∧
    ((∀ (pos : Nat) (store : StoreEvent),
        (recordedEvents actions)[pos]? = some (.store store) →
        Watched session.gdb session.script store.addr →
        store.MadeBy session.oracle param.ref ∧
          (Reverses session.gdb session.script →
            store.Repeats (realMemory table ((recordedEvents actions).take pos)))) →
      ∀ stop ∈ watchStops fuel session.oracle session.gdb session.script seen param,
        stop.Right table comps (recordedEvents actions) session.oracle) := by
  obtain ⟨base, start⟩ := boot_track table announced
  obtain ⟨attached, allowed⟩ := within_of_not_reverses forward
  obtain ⟨same, isSame, kept⟩ := run.mirrored start attached
  cases List.append_cancel_right (read.symm.trans isSame)
  obtain ⟨_, mirrored⟩ := kept allowed fit
  obtain ⟨within, reads⟩ := within_of_reads session.gdb session.script
  have tells := mirrored.stops_tell fuel within reads seen param
  refine ⟨fun stop member => ⟨(tells stop member).2.1,
    mirrored.right_iff fit (tells stop member)⟩, fun condition stop member => ?_⟩
  obtain ⟨pos, store, _, found, isWatched, right⟩ := mirrored.right_iff fit (tells stop member)
  obtain ⟨madeBy, repeats⟩ := condition pos store found isWatched
  exact right.mpr ⟨madeBy, fun reverse => repeats ((tells stop member).2.1 reverse)⟩

def fiveStore (inst : NodeId) : StoreEvent :=
  { mem := 2, addr := 64, data := fun index => if index = 0 then 5 else 0, width := 4
    inst := some inst }

def fiveTable : HashTable := HashTable.put ⟨fun _ _ => none⟩ 16 ⟨5, none⟩

/-- Processor 0 stores the 5 that is there, and processor 1 stores elsewhere. -/
def fiveRepeated : List Action :=
  [.record (.inst 0 (writingInst 0 [] (by decide))), .record (.store (fiveStore 3)),
    .record (.inst 1 (writingInst 0 [] (by decide))),
    .record (.store ⟨2, 128, fun _ => 9, 4, some 5⟩)]

/-- The debugger watches the address 64, goes back and forward again. -/
def fiveWatched : Session :=
  Session.start fiveTable [.cpu 0, .cpu 1, .mem 2]
    { gdbStartAndWait with watchpoints := [⟨64, 68, .write⟩] } [[.reverseContinue], [.continue_]]

theorem watch_attribution_iff_unchanged :
    ∃ session : Session, fiveWatched.Run fiveRepeated session ∧
      watchStops 9 session.oracle session.gdb session.script (.cpu 1 0) ⟨1, 0, 0, 0⟩ =
        [⟨some 4, true, 0, 5⟩, ⟨some 4, false, 0, 5⟩] ∧
      ∀ stop ∈ watchStops 9 session.oracle session.gdb session.script (.cpu 1 0) ⟨1, 0, 0, 0⟩,
        stop.Right fiveTable [.cpu 0, .cpu 1, .mem 2] (recordedEvents fiveRepeated)
          session.oracle := by
  obtain ⟨session, run, stops, gdb, script, performed⟩ : ∃ session : Session,
      fiveWatched.Run fiveRepeated session ∧
      watchStops 9 session.oracle session.gdb session.script (.cpu 1 0) ⟨1, 0, 0, 0⟩ =
        [⟨some 4, true, 0, 5⟩, ⟨some 4, false, 0, 5⟩] ∧
      session.gdb.watchpoints = [⟨64, 68, .write⟩] ∧
      session.script = [[.reverseContinue], [.continue_]] ∧
      performer session.oracle (fiveStore 3) = some 0 :=
    ⟨_, .snoc (.snoc (.snoc (.snoc .nil (.record _ rfl)) (.record _ rfl)) (.record _ rfl))
      (.record _ rfl), by decide, rfl, rfl, rfl⟩
  refine ⟨session, run, stops, (watch_attribution_iff _ _ (by decide) _ _ _ session run [] script.symm
    ?_ ?_ 9 (.cpu 1 0) ⟨1, 0, 0, 0⟩).2 ?_⟩
  · rintro (back | ⟨packets, member, _⟩)
    · cases back
    · cases member
  · intro store member
    have isStore : store = fiveStore 3 ∨ store = ⟨2, 128, fun _ => 9, 4, some 5⟩ := by
      simpa [fiveRepeated, recordedEvents] using member
    rcases isStore with rfl | rfl <;> decide
  · intro pos store found isWatched
    obtain _ | _ | _ | _ | pos := pos
    · cases found
    · cases found
      exact ⟨⟨0, performed, rfl⟩, fun _ => by decide⟩
    · cases found
    · cases found
      rcases isWatched with ⟨watch, member, hit⟩ | ⟨packets, member, _, _, _, inserted, _⟩
      · rw [gdb, List.mem_singleton] at member
        subst member
        exact absurd hit (by decide)
      · rw [script] at member
        rcases List.mem_pair.mp member with rfl | rfl <;> simp at inserted
    · cases found

/-- Processor 1 stores 5 at the address 64, then processor 0 executes an
instruction and the debugger goes back to the store. -/
theorem store_reported_for_other_cpu :
    ∃ (session : Session) (stop : WatchStop),
      (Session.start ⟨fun _ _ => none⟩ [.cpu 0, .cpu 1, .mem 2]
        { gdbStartAndWait with
          running := .step
          watchpoints := [⟨64, 68, .write⟩] }
        [[.reverseContinue]]).Run
        [.record (.inst 1 (writingInst 0 [] (by decide))),
          .record (.store (fiveStore 3)),
          .record (.inst 0 (writingInst 0 [] (by decide)))] session ∧
      watchStops 3 session.oracle session.gdb session.script (.cpu 0 0) ⟨0, 0, 0, 0⟩ = [stop] ∧
      stop.cpu = 0 ∧ stop.val = 5 ∧
      ∀ cpu val, stop.Truth ⟨fun _ _ => none⟩ [.cpu 0, .cpu 1, .mem 2]
          [.inst 1 (writingInst 0 [] (by decide)),
            .store (fiveStore 3),
            .inst 0 (writingInst 0 [] (by decide))]
          session.oracle cpu val ↔
        cpu = 1 ∧ val = 0 := by
  refine ⟨_, ⟨some 4, true, 0, 5⟩,
    .snoc (.snoc (.snoc .nil (.record _ rfl)) (.record _ rfl))
      (.record _ rfl), by decide, rfl, rfl, fun cpu val => ⟨?_, ?_⟩⟩
  · rintro ⟨event, store, id, node, found, performed, rfl, rfl⟩
    have second : event = 1 := by
      have sum := some.inj node
      change 4 = 3 + event at sum
      omega
    subst second
    cases found
    cases performed
    decide
  · rintro ⟨rfl, rfl⟩
    exact ⟨1, _, 1, rfl, rfl, rfl, rfl, by decide⟩

end Reverse.Delorean
