import Reverse.Delorean.MemoryUndo
import Reverse.Delorean.Stopping

/-!
# A step back and a step

A reverse-step goes back over the last instruction or watched store, and a
step comes forward over that one node.  What lies behind it stays undone.
-/

namespace Reverse.Delorean

open Sherlock Function
open List hiding count

/-- The value that the entries give a cell when they are written in order. -/
def lastValue (entries : List RegNode) (cell : Cell) : Option Word :=
  entries.foldl (fun value entry =>
    if archCell entry.id = some cell then some entry.value else value) none

theorem lastValue_append (entries : List RegNode) (entry : RegNode) (cell : Cell) :
    lastValue (entries ++ [entry]) cell =
      if archCell entry.id = some cell then some entry.value
      else lastValue entries cell := by
  unfold lastValue
  rw [foldl_append]
  rfl

theorem foldl_forwardReg_data (node : NodeId) (entries : List RegNode) (cpu : Cpu) (cell : Cell) :
    (entries.foldl (forwardReg node) cpu).data cell =
      (lastValue entries cell).getD (cpu.data cell) := by
  induction entries using List.reverseRecOn with
  | nil => rfl
  | append_singleton entries entry ih =>
    rw [foldl_append, foldl_cons, foldl_nil, Cpu.data, forwardReg_cell, lastValue_append]
    split
    · rfl
    · exact ih

theorem lastValue_none (unlisted : lastValue entries cell = none) :
    ∀ entry ∈ entries, archCell entry.id ≠ some cell := by
  induction entries using List.reverseRecOn with
  | nil => nofun
  | append_singleton entries last ih =>
    rw [lastValue_append] at unlisted
    split at unlisted
    · cases unlisted
    · next other =>
        intro entry member
        rcases mem_append.mp member with earlier | isLast
        · exact ih unlisted entry earlier
        · rw [mem_singleton.mp isLast]
          exact other

/-- What the debugger can see is as it was. -/
structure Restored (before after : Oracle) : Prop where
  registers : ∀ id cell, (after.cpu id).data cell = (before.cpu id).data cell
  memory : memValues after = memValues before
  position : after.lastExec = before.lastExec

/-- The state already holds what going forward over a node writes. -/
def Redoable (oracle : Oracle) : NodeData → Prop
  | .inst data => ∀ id, data.id = some id → ∀ cell value,
      lastValue (data.reg.regs.take data.nReg) cell = some value → (oracle.cpu id).data cell = value
  | .mem data => memValues oracle data.addr = data.value
  | .dev _ => True

/-- Whether a step or a reverse-step over a node gives control back. -/
def nodeStops (gdb : Gdb) : NodeData → Bool
  | .inst _ => true
  | .mem data => gdb.watchpoints.any (Watch.hit · data.addr)
  | .dev _ => false

/-- A command that stops at the next instruction. -/
def Stepping (gdb : Gdb) : Prop :=
  gdb.running = .step ∨ gdb.running = .reverseStep

theorem gdbCondition_stepping (stepping : Stepping gdb) (pc : Word) :
    gdbCondition gdb pc = true := by
  unfold gdbCondition
  rcases stepping with running | running
  · rw [running]
  · rw [running]

theorem NodeData.Shown.stops (shown : content.Shown seen) (stepping : Stepping gdb) :
    gdbStops gdb seen = nodeStops gdb content := by
  cases content with
  | inst data =>
    cases seen with
    | cpu id pc => exact gdbCondition_stepping stepping pc
    | _ => cases shown
  | mem data =>
    cases seen with
    | mem id addr val => rw [gdbStops, nodeStops, shown.1]
    | _ => cases shown
  | dev id =>
    cases seen with
    | periph => rfl
    | _ => cases shown

theorem reverse_stops (stepping : Stepping gdb) (current : oracle.lastExec = some last)
    (reversed : oracleReverseExec oracle = some (later, seen)) :
    gdbStops gdb seen = nodeStops gdb (oracle.nodes last).data ∧ later.nodes = oracle.nodes := by
  obtain ⟨node, isNode, -, shown, nodes, -⟩ := oracleReverseExec_shown reversed
  cases isNode.symm.trans current
  exact ⟨shown.stops stepping, nodes⟩

/-- Going back over an instruction and forward again writes its last listed
values. -/
theorem forward_after_reverse
    (anchored : ∀ entry ∈ data.reg.regs.take data.nReg, entry.lastWrite.isSome)
    (isReversed : cpuReverseExec nodes data before = some reversed)
    (isNext : later.cell = reversed.cell) (cell : Cell) :
    (cpuForwardExec node data later).data cell =
      (lastValue (data.reg.regs.take data.nReg) cell).getD (before.data cell) := by
  obtain ⟨same, again, -, frame⟩ := foldlM_reverseReg_frame nodes anchored before
  cases again.symm.trans isReversed
  refine (foldl_forwardReg_data node _ later cell).trans ?_
  cases listed : lastValue (data.reg.regs.take data.nReg) cell with
  | some value => rfl
  | none =>
    change (later.cell cell).data = (before.cell cell).data
    rw [isNext, frame cell (lastValue_none listed)]

theorem forwardStep_mem {node next : NodeId} {id : DevId} (current : oracle.lastExec = some node)
    (follows : (oracle.nodes node).next = some next)
    (content : (oracle.nodes next).data = .mem data) (named : data.id = some id) :
    ∃ after, forwardStep oracle = some after ∧ after.cpu = oracle.cpu ∧
      after.lastExec = some next ∧
      after.table = memForwardExec oracle.table data := by
  simp [forwardStep, oracleForwardExec, current, follows, content, named]

theorem reverseStep_dev {id : DevId} (current : oracle.lastExec = some node)
    (content : (oracle.nodes node).data = .dev id) :
    ∃ next, reverseStep oracle = some next ∧ next.cpu = oracle.cpu ∧
      next.nodes = oracle.nodes ∧
      next.lastExec = (oracle.nodes node).lastExec ∧
      next.table = oracle.table := by
  simp [reverseStep, oracleReverseExec, current, content]

theorem forwardStep_dev {node next : NodeId} {id : DevId}
    (current : oracle.lastExec = some node) (follows : (oracle.nodes node).next = some next)
    (content : (oracle.nodes next).data = .dev id) :
    ∃ after, forwardStep oracle = some after ∧ after.cpu = oracle.cpu ∧
      after.lastExec = some next ∧ after.table = oracle.table := by
  simp [forwardStep, oracleForwardExec, current, follows, content]

section Cursor

variable {announced : DevId → Prop} {base first count pos : Nat} {oracle : Oracle}

theorem Cursor.there_and_back (cursor : Cursor announced base first count (pos + 1) oracle) :
    ∃ middle seen after afterSeen,
      oracleReverseExec oracle = some (middle, seen) ∧
      oracleForwardExec middle = some (after, afterSeen) ∧
      (Restored oracle after ↔ Redoable oracle
        (oracle.nodes (nodeAt base first (pos + 1))).data) := by
  have back := cursor.chain.back pos cursor.inside
  have follows := cursor.chain.next pos cursor.inside
  rcases cursor.named pos cursor.inside with
    ⟨data, id, content, owner⟩ | ⟨data, id, content, owner⟩ | ⟨id, content⟩
  · have below := cursor.edges _ (cursor.chain.allocated cursor.inside) data content
    have anchored : ∀ entry ∈ data.reg.regs.take data.nReg,
        entry.lastWrite.isSome := fun entry member =>
      (below entry member).isSome
    obtain ⟨cpu, reversed, -⟩ := foldlM_reverseReg_frame oracle.nodes
      anchored { oracle.cpu id with
        lastExec := some (nodeAt base first (pos + 1)) }
    obtain ⟨seen, isMiddle⟩ := oracleReverseExec_iff.mpr
      (reverseStep_inst cursor.current content owner reversed)
    obtain ⟨afterSeen, isAfter⟩ := oracleForwardExec_iff.mpr
      (@forwardStep_inst { oracle.setCpu id cpu with
        lastExec := (oracle.nodes (nodeAt base first (pos + 1))).lastExec
        } _ _ _ _ back follows content owner)
    refine ⟨_, seen, _, afterSeen, isMiddle, isAfter, ?_⟩
    rw [content]
    constructor
    · rintro ⟨registers, -, -⟩ other isOther cell value listed
      cases owner.symm.trans isOther
      rw [← registers id cell]
      dsimp only [Oracle.setCpu]
      rw [update_self, forward_after_reverse anchored reversed (by rw [update_self]), listed]
      rfl
    · intro redoable
      refine ⟨fun other cell => ?_, rfl, cursor.current.symm⟩
      dsimp only [Oracle.setCpu]
      by_cases same : other = id
      · rw [same, update_self, forward_after_reverse anchored reversed (by rw [update_self])]
        cases listed : lastValue (data.reg.regs.take data.nReg) cell with
        | none => rfl
        | some value => exact (redoable id owner cell value listed).symm
      · rw [update_of_ne same, update_of_ne same]
  · obtain ⟨middle, reversed, cpu, nodes, -, stands, table⟩ :=
      reverseStep_mem cursor.current content owner
    obtain ⟨after, forwarded, afterCpu, afterStands, afterTable⟩ :=
      @forwardStep_mem middle _ _ _ _ (stands.trans back) (nodes ▸ follows) (nodes ▸ content) owner
    obtain ⟨seen, isMiddle⟩ := oracleReverseExec_iff.mpr reversed
    obtain ⟨afterSeen, isAfter⟩ := oracleForwardExec_iff.mpr forwarded
    have values : ∀ key, memValues after key =
        if key = data.addr then data.value else memValues oracle key := by
      intro key
      rw [memValues, afterTable, memForwardExec, HashTable.get_put]
      split
      · rfl
      · next other =>
          rw [table, memReverseExec_values, if_neg other]
          rfl
    refine ⟨middle, seen, after, afterSeen, isMiddle, isAfter, ?_⟩
    rw [content]
    constructor
    · rintro ⟨-, memory, -⟩
      have same := values data.addr
      rw [if_pos rfl, memory] at same
      exact same
    · intro redoable
      refine ⟨fun id cell => by rw [afterCpu, cpu], funext fun key => ?_,
        afterStands.trans cursor.current.symm⟩
      rw [values]
      split
      · next same =>
          rw [same]
          exact redoable.symm
      · rfl
  · obtain ⟨middle, reversed, cpu, nodes, stands, table⟩ := reverseStep_dev cursor.current content
    obtain ⟨after, forwarded, afterCpu, afterStands, afterTable⟩ :=
      @forwardStep_dev middle _ _ _ (stands.trans back) (nodes ▸ follows) (nodes ▸ content)
    obtain ⟨seen, isMiddle⟩ := oracleReverseExec_iff.mpr reversed
    obtain ⟨afterSeen, isAfter⟩ := oracleForwardExec_iff.mpr forwarded
    refine ⟨middle, seen, after, afterSeen, isMiddle, isAfter, ?_⟩
    rw [content]
    refine ⟨fun _ => trivial, fun _ => ⟨fun id cell => ?_, ?_, ?_⟩⟩
    · rw [afterCpu, cpu]
    · funext key
      rw [memValues, afterTable, table]
      rfl
    · exact afterStands.trans cursor.current.symm

/-- A run back stops before a node that stops it. -/
theorem Cursor.stops_back (stepping : Stepping gdb) (backward : gdbExecDirection gdb = true)
    (stop : StopsAt gdb stopped stopSeen oracle seen)
    (cursor : Cursor announced base first count pos oracle) :
    ∃ other, other < pos ∧
      Cursor announced base first count other stopped ∧
      stopped.nodes = oracle.nodes ∧
      nodeStops gdb (oracle.nodes (nodeAt base first (other + 1))).data = true
      := by
  induction stop generalizing pos with
  | now moved stops =>
    rw [gdbMove_reverse backward] at moved
    cases pos with
    | zero => cases moved.symm.trans cursor.reverse_base
    | succ pos =>
      obtain ⟨next, nextSeen, reversed, before⟩ := cursor.reverse
      cases moved.symm.trans reversed
      obtain ⟨same, nodes⟩ := reverse_stops stepping cursor.current reversed
      exact ⟨pos, Nat.lt_succ_self _, before, nodes, same.symm.trans stops⟩
  | later moved _ _ _ ih =>
    rw [gdbMove_reverse backward] at moved
    cases pos with
    | zero => cases moved.symm.trans cursor.reverse_base
    | succ pos =>
      obtain ⟨next, nextSeen, reversed, before⟩ := cursor.reverse
      cases moved.symm.trans reversed
      obtain ⟨-, nodes⟩ := reverse_stops stepping cursor.current reversed
      obtain ⟨other, less, stands, same, stops⟩ := ih before
      rw [nodes] at same stops
      exact ⟨other, Nat.lt_succ_of_lt less, stands, same, stops⟩

end Cursor

/-- A reverse-step and then a step, with the same watchpoints. -/
def StepsBack (oracle : Oracle) (gdb : Gdb) (seen : Seen) : Prop :=
  ∃ middle middleSeen after afterSeen,
    StopsAt (gdbContinue gdb .reverseStep) middle middleSeen oracle seen ∧
    StopsAt (gdbContinue gdb .step) after afterSeen middle middleSeen ∧
    Restored oracle after

/-- The cursor stands behind an instruction or a watched store, and going
forward over it again writes what is there. -/
def StandsOnStop (oracle : Oracle) (gdb : Gdb) : Prop :=
  ∃ last, oracle.lastExec = some last ∧ (oracle.nodes last).data.Named ∧
    nodeStops gdb (oracle.nodes last).data = true ∧
    Redoable oracle (oracle.nodes last).data

theorem nodeStops_running (gdb : Gdb) (running : Running) (content : NodeData) :
    nodeStops (gdbContinue gdb running) content = nodeStops gdb content := by
  cases content <;> rfl

theorem gdbMove_forward (ahead : gdbExecDirection gdb = false)
    (forwarded : oracleForwardExec oracle = some (later, nextSeen)) :
    gdbMove oracle gdb seen = some (later, nextSeen) := by
  unfold gdbMove
  rw [if_neg (ne_true_of_eq_false ahead),
    if_neg (ne_true_of_eq_false (oracleForwardExec_next forwarded))]
  exact forwarded

theorem StopsAt.first (stop : StopsAt gdb stopped stopSeen oracle seen)
    (moved : gdbMove oracle gdb seen = some (behind, nextSeen))
    (stops : gdbStops gdb nextSeen = true) :
    stopped = behind ∧ stopSeen = nextSeen := by
  cases stop with
  | now other =>
    cases moved.symm.trans other
    exact ⟨rfl, rfl⟩
  | later other runs =>
    cases moved.symm.trans other
    cases stops.symm.trans runs

/-- A step over a node that stops it. -/
theorem Cursor.stops_forward (cursor : Cursor announced base first count pos oracle) (gdb : Gdb)
    (running : gdb.running = .step) (before : pos < count)
    (stops : nodeStops gdb (oracle.nodes (nodeAt base first (pos + 1))).data = true) (seen : Seen) :
    ∃ next nextSeen, oracleForwardExec oracle = some (next, nextSeen) ∧
      gdbMove oracle gdb seen = some (next, nextSeen) ∧
      gdbStops gdb nextSeen = true ∧
      Cursor announced base first count (pos + 1) next := by
  obtain ⟨next, nextSeen, forwarded, after⟩ := cursor.forward before
  have ahead : gdbExecDirection gdb = false := by
    unfold gdbExecDirection
    rw [running]
    rfl
  refine ⟨next, nextSeen, forwarded, gdbMove_forward ahead forwarded, ?_, after⟩
  obtain ⟨last, node, current, follows, shown, -⟩ := oracleForwardExec_shown forwarded
  cases current.symm.trans cursor.current
  cases follows.symm.trans (cursor.chain.next pos before)
  exact (shown.stops (Or.inl running)).trans stops

theorem NodeData.Unnamed.not_named {content : NodeData}
    (unnamed : content.Unnamed) : ¬ content.Named := by
  rintro (⟨data, id, rfl, owner⟩ | ⟨data, id, rfl, owner⟩ | ⟨id, rfl⟩)
  · rcases unnamed with ⟨_, same, none⟩ | ⟨_, same, _⟩
    · cases same
      cases owner.symm.trans none
    · cases same
  · rcases unnamed with ⟨_, same, _⟩ | ⟨_, same, none⟩
    · cases same
    · cases same
      cases owner.symm.trans none
  · rcases unnamed with ⟨_, same, _⟩ | ⟨_, same, _⟩
    · cases same
    · cases same

theorem Cursor.stepsBack_iff
    (cursor : Cursor announced base first count pos oracle) (gdb : Gdb) (seen : Seen) :
    StepsBack oracle gdb seen ↔ StandsOnStop oracle gdb := by
  have stepping : Stepping (gdbContinue gdb .reverseStep) := Or.inr rfl
  have backward : gdbExecDirection (gdbContinue gdb .reverseStep) = true := rfl
  cases pos with
  | zero =>
    constructor
    · rintro ⟨middle, middleSeen, -, -, stop, -⟩
      obtain ⟨other, impossible, -⟩ := cursor.stops_back stepping backward stop
      cases impossible
    · rintro ⟨last, current, named, -⟩
      cases cursor.current.symm.trans current
      exact absurd named cursor.unnamed.not_named
  | succ pos =>
    cases stops : nodeStops gdb (oracle.nodes (nodeAt base first (pos + 1))).data with
    | true =>
      obtain ⟨middle, middleSeen, after, afterSeen, reversed, forwarded,
        restored⟩ := cursor.there_and_back
      obtain ⟨same, nodes⟩ := reverse_stops stepping cursor.current reversed
      have moved := (gdbMove_reverse backward oracle seen).trans reversed
      have stopsHere := same.trans ((nodeStops_running gdb _ _).trans stops)
      obtain ⟨other, otherSeen, again, before⟩ := cursor.reverse
      cases reversed.symm.trans again
      obtain ⟨next, nextSeen, result, steps, stopsThere, -⟩ :=
        before.stops_forward (gdbContinue gdb .step) rfl
          cursor.inside
          (by rw [nodes, nodeStops_running]; exact stops) middleSeen
      cases forwarded.symm.trans result
      constructor
      · rintro ⟨_, _, _, _, stop, resume, returns⟩
        obtain ⟨rfl, rfl⟩ := stop.first moved stopsHere
        obtain ⟨rfl, rfl⟩ := resume.first steps stopsThere
        exact ⟨_, cursor.current, cursor.named pos cursor.inside, stops, restored.mp returns⟩
      · rintro ⟨last, current, -, -, redoable⟩
        cases cursor.current.symm.trans current
        exact ⟨_, _, _, _, .now moved stopsHere, .now steps stopsThere, restored.mpr redoable⟩
    | false =>
      constructor
      · rintro ⟨middle, middleSeen, after, afterSeen, stop, resume, returns⟩
        -- the step stops behind the node that stopped the reverse-step
        obtain ⟨other, less, stands, nodes, stopsThere⟩ := cursor.stops_back stepping backward stop
        rw [nodeStops_running] at stopsThere
        have earlier : other + 1 < pos + 1 := by
          refine Nat.succ_lt_succ (Nat.lt_of_le_of_ne (Nat.le_of_lt_succ less) ?_)
          rintro rfl
          cases stops.symm.trans stopsThere
        obtain ⟨next, nextSeen, -, steps, stopsNext, arrives⟩ :=
          stands.stops_forward (gdbContinue gdb .step) rfl
            (Nat.lt_of_lt_of_le less cursor.inside)
            (by rw [nodes, nodeStops_running]; exact stopsThere)
            middleSeen
        obtain ⟨rfl, -⟩ := resume.first steps stopsNext
        have node := arrives.current.symm.trans (returns.position.trans cursor.current)
        exact absurd (Option.some.inj node) (nodeAt_ne cursor.chain.below earlier)
      · rintro ⟨last, current, -, stopsThere, -⟩
        cases cursor.current.symm.trans current
        cases stops.symm.trans stopsThere

/-- A reverse-step and a step come back exactly to the positions behind an
instruction or a watched store that can be redone. -/
theorem step_back_and_forth_iff {table : HashTable} {comps : List Comp}
    {oracle : Oracle} (visited : Visited table comps oracle) (gdb : Gdb) (seen : Seen) :
    StepsBack oracle gdb seen ↔ StandsOnStop oracle gdb := by
  by_cases registered : comps = []
  · subst registered
    have current := visited.unregistered
    constructor
    · rintro ⟨middle, middleSeen, -, -, stop, -⟩
      have moved : gdbMove oracle (gdbContinue gdb .reverseStep) seen =
          none := by
        rw [gdbMove_reverse rfl, oracleReverseExec, current]
        rfl
      cases stop with
      | now other => cases moved.symm.trans other
      | later other => cases moved.symm.trans other
    · rintro ⟨last, other, -⟩
      cases current.symm.trans other
  · obtain ⟨base, first, begins⟩ := boot_cursor table registered
    obtain ⟨count, pos, cursor⟩ := visited.cursor begins
    exact cursor.stepsBack_iff gdb seen

theorem step_back_and_forth_iff_tip :
    ∃ tip, [Event.inst 0 (writingInst 0 [⟨0, 1⟩] (by decide))].foldlM
        recordEvent (boot ⟨fun _ _ => none⟩ [.cpu 0]) = some tip ∧
      StepsBack tip gdbStartAndWait (.cpu 0 4) := by
  have recorded : [Event.inst 0 (writingInst 0 [⟨0, 1⟩] (by decide))].foldlM
      recordEvent (boot ⟨fun _ _ => none⟩ [.cpu 0]) = some _ := rfl
  have visited := Visited.recordAll (cons_ne_nil _ _) (by
    intro id inst member
    cases mem_singleton.mp member
    decide) recorded
  refine ⟨_, recorded, ?_⟩
  refine (step_back_and_forth_iff visited gdbStartAndWait _).mpr
    ⟨1, rfl, Or.inl ⟨_, 0, rfl, rfl⟩, rfl, ?_⟩
  intro id isId cell value listed
  cases isId
  change (if archCell 15 = some cell then some 4
    else if archCell 0 = some cell then some 1 else none) = some value at listed
  split at listed
  · next same =>
      cases same
      cases listed
      rfl
  · split at listed
    · next same =>
        cases same
        cases listed
        rfl
    · cases listed

/-- An instruction, its store and another instruction.  A reverse-step from the
tip stops behind the store; from there a reverse-step and a step only come to
the first instruction. -/
theorem step_back_over_store :
    ∃ tip stopped seen,
      [Event.inst 0 (writingInst 0 [⟨0, 1⟩] (by decide)),
        .store (wordStore 8 7 2),
        .inst 0 (writingInst 4 [⟨0, 2⟩] (by decide))].foldlM recordEvent
          (boot ⟨fun _ _ => none⟩ [.cpu 0, .mem 1]) = some tip ∧
      StopsAt (gdbContinue gdbStartAndWait .reverseStep) stopped seen tip (.cpu 0 8) ∧
      ¬ StepsBack stopped gdbStartAndWait seen := by
  obtain ⟨tip, recorded, stopped, seen, reversed, current, runs, stops⟩ :
      ∃ tip, [Event.inst 0 (writingInst 0 [⟨0, 1⟩] (by decide)),
          .store (wordStore 8 7 2),
          .inst 0 (writingInst 4 [⟨0, 2⟩] (by decide))].foldlM recordEvent
            (boot ⟨fun _ _ => none⟩ [.cpu 0, .mem 1]) = some tip ∧
        ∃ stopped seen, oracleReverseExec tip = some (stopped, seen) ∧
          stopped.lastExec = some 3 ∧
          nodeStops gdbStartAndWait (stopped.nodes 3).data = false ∧
          gdbStops (gdbContinue gdbStartAndWait .reverseStep) seen = true :=
    ⟨_, rfl, _, _, rfl, rfl, rfl, rfl⟩
  have visited := Visited.recordAll (cons_ne_nil _ _) (by
    intro id inst member
    rcases mem_cons.mp member with same | member
    · cases same
      decide
    · rcases mem_cons.mp member with same | member
      · cases same
      · cases mem_singleton.mp member
        decide) recorded
  refine ⟨tip, stopped, seen, recorded, .now reversed stops, ?_⟩
  obtain ⟨base, first, begins⟩ := boot_cursor ⟨fun _ _ => none⟩ (cons_ne_nil (Comp.cpu 0) [.mem 1])
  obtain ⟨count, pos, cursor⟩ := (visited.reverse reversed).cursor begins
  intro returns
  obtain ⟨last, isLast, -, stopsThere, -⟩ := (cursor.stepsBack_iff gdbStartAndWait seen).mp returns
  cases current.symm.trans isLast
  cases runs.symm.trans stopsThere

end Reverse.Delorean
