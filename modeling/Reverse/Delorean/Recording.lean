import Reverse.Sherlock.ModeSwitch
import Reverse.Delorean.Replay

/-!
# What a recorded instruction says

`recordRegs_steady` gives the node that `delorean_pg_exec_cpu` builds, and
`steady_of_recordRegs` says that it builds one for no other list: as soon as
`dl_switch_mode` sees two different modes it works through pointers that are
no longer, or not yet, valid.  Since `cpu_exec` has already set the new mode,
`dl_switch_mode` never records what the switch has moved.
-/

namespace Reverse.Delorean

open Sherlock Function List Option

theorem dlSwitchMode_same (cpu : Cpu) (node : NodeId) (block : RegBlock) :
    dlSwitchMode cpu node block cpu.mode = some (cpu, block) := by
  simp [dlSwitchMode]

private theorem recordEntry_released (released : pointer.gen ≠ block.gen)
    (entry : RegNode) :
    recordEntry (block, pointer) entry = none := by
  simp [recordEntry, RegBlock.store, released]

/-- Past its first test `dl_switch_mode` has no defined behaviour. -/
theorem dlSwitchMode_of_ne (differ : cpu.mode ≠ mode) (node : NodeId) (block : RegBlock) :
    dlSwitchMode cpu node block mode = none := by
  by_cases fiq : cpu.mode = armCpuModeFiq ∨ mode = armCpuModeFiq
  · have released : ∀ entry, recordEntry
        (block.increase 16, ⟨block.gen, block.regs.length⟩) entry = none := by
      apply recordEntry_released
      simp [RegBlock.increase]
    simp [dlSwitchMode, differ, fiq, foldlM_cons, released]
  · cases oldBank : cpuBank cpu.mode with
    | none => simp [dlSwitchMode, differ, fiq, oldBank]
    | some bank => simp [dlSwitchMode, differ, fiq, oldBank]

/-- The entries of the node for a register list, given the edges of the cells
before it. -/
def entriesOf (node : NodeId) : List RegWrite → (Cell → Option NodeId) → List RegNode
  | [], _ => []
  | write :: writes, edges =>
    match target write.id with
    | .cell cell =>
      { id := write.id, value := write.data, lastWrite := edges cell } ::
        entriesOf node writes (update edges cell (some node))
    | _ => entriesOf node writes edges

theorem entriesOf_ids (steady : Steady mode writes) (node : NodeId) (edges : Cell → Option NodeId) :
    (entriesOf node writes edges).map RegNode.id = writes.map RegWrite.id := by
  induction writes generalizing edges with
  | nil => rfl
  | cons write writes ih =>
    obtain ⟨cell, named, _⟩ := steady write (by simp)
    simp [entriesOf, named, ih steady.tail]

theorem entriesOf_length (steady : Steady mode writes) (node : NodeId)
    (edges : Cell → Option NodeId) :
    (entriesOf node writes edges).length = writes.length := by
  simpa using congrArg List.length (entriesOf_ids steady node edges)

/-- The edges of the entries are edges from before the list, or lead to the
node itself. -/
theorem entriesOf_edges {p : Option NodeId → Prop}
    (before : ∀ cell, p (edges cell)) (own : p (some node)) (writes : List RegWrite) :
    ∀ entry ∈ entriesOf node writes edges, p entry.lastWrite := by
  induction writes generalizing edges with
  | nil =>
    intro entry member
    cases member
  | cons write writes ih =>
    intro entry member
    unfold entriesOf at member
    split at member
    · next cell _ =>
        rcases mem_cons.mp member with rfl | later
        · exact before cell
        · apply ih _ entry later
          intro other
          rw [update_apply]
          split
          · exact own
          · exact before other
    · exact ih before entry member

def edgesAfter (node : NodeId) (writes : List RegWrite)
    (edges : Cell → Option NodeId) (cell : Cell) : Option NodeId :=
  if Names writes cell then some node else edges cell

theorem edgesAfter_cons (named : target write.id = .cell cell) (node : NodeId)
    (writes : List RegWrite) (edges : Cell → Option NodeId) :
    edgesAfter node (write :: writes) edges =
      edgesAfter node writes (update edges cell (some node)) := by
  funext other
  by_cases later : Names writes other
  · simp [edgesAfter, names_cons, later]
  · by_cases same : other = cell
    · subst other
      simp [edgesAfter, names_cons, later, named]
    · have differ : cell ≠ other := Ne.symm same
      simp [edgesAfter, names_cons, later, named, differ, same]

/-- The loop has filled `done` and points at the rest of the block. -/
structure Filled (done : List RegNode) (rest : Nat) (block : RegBlock)
    (pointer : RegPtr) : Prop where
  regs : block.regs = done ++ List.replicate rest .unset
  gen : pointer.gen = block.gen
  index : pointer.index = done.length

theorem Filled.alloc (size : Nat) : Filled [] size (RegBlock.alloc size) ⟨0, 0⟩ := by
  constructor <;> rfl

theorem Filled.store (filled : Filled done (rest + 1) block pointer) (entry : RegNode) :
    ∃ next, block.store pointer entry = some next ∧
      next.gen = block.gen ∧
      Filled (done ++ [entry]) rest next pointer.next := by
  refine ⟨{ block with regs := block.regs.set pointer.index entry }, ?_, rfl, ?_, ?_, ?_⟩
  · simp [RegBlock.store, filled.gen, filled.regs, filled.index]
  · simp [filled.regs, filled.index, replicate_succ]
  · exact filled.gen
  · simp [RegPtr.next, filled.index]

/-- One round of the loop on a register that keeps the mode. -/
theorem recordReg_keeps (filled : Filled done (rest + 1) block pointer)
    (named : target write.id = .cell cell)
    (keeps : cell = .cpsr → write.data &&& cpsrModeMask = cpu.mode) (node : NodeId) :
    ∃ next, recordReg node write (cpu, block, pointer) =
        some (cpu.setLastWrite cell node, next, pointer.next) ∧
      next.gen = block.gen ∧
      Filled
        (done ++ [RegNode.mk write.id write.data (cpu.lastWrite cell)])
        rest next pointer.next := by
  obtain ⟨next, stored, gen, nextFilled⟩ := filled.store
    { id := write.id, value := write.data, lastWrite := cpu.lastWrite cell }
  refine ⟨next, ?_, gen, nextFilled⟩
  by_cases status : cell = .cpsr
  · subst status
    have id := target_eq_cpsr named
    have mode : (cpu.setLastWrite .cpsr node).mode = write.data &&& cpsrModeMask := by
      rw [Cpu.mode, Cpu.setLastWrite_data, keeps rfl, Cpu.mode]
    have unchanged := dlSwitchMode_same (cpu.setLastWrite .cpsr node) node next
    rw [mode] at unchanged
    rw [id] at stored
    simp [recordReg, named, stored, unchanged]
  · cases cell with
    | cpsr => exact (status rfl).elim
    | _ => simp [recordReg, named, stored]

theorem recordRegs_steady (steady : Steady cpu.mode writes)
    (filled : Filled done writes.length block pointer) (node : NodeId) :
    ∃ next last pointer',
      recordRegs node writes (cpu, block, pointer) = some (next, last, pointer') ∧
      next.data = cpu.data ∧ next.id = cpu.id ∧
      next.lastWrite = edgesAfter node writes cpu.lastWrite ∧
      last.gen = block.gen ∧
      last.regs = done ++ entriesOf node writes cpu.lastWrite := by
  induction writes generalizing cpu done block pointer with
  | nil =>
    refine ⟨cpu, block, pointer, rfl, rfl, rfl, rfl, rfl, ?_⟩
    simpa [entriesOf] using filled.regs
  | cons write writes ih =>
    obtain ⟨cell, named, keeps⟩ := steady write (by simp)
    obtain ⟨middle, recorded, gen, nextFilled⟩ := recordReg_keeps filled named keeps node
    have rest : Steady (cpu.setLastWrite cell node).mode writes := by
      rw [Cpu.mode, Cpu.setLastWrite_data, ← Cpu.mode]
      exact steady.tail
    have edges : (cpu.setLastWrite cell node).lastWrite =
        update cpu.lastWrite cell (some node) := by
      funext other
      rw [Cpu.setLastWrite_lastWrite, update_apply]
    obtain ⟨next, last, pointer', finished, data, id, nextEdges, lastGen,
      regs⟩ := ih rest nextFilled
    refine ⟨next, last, pointer', ?_, ?_, ?_, ?_, ?_, ?_⟩
    · simp [recordRegs, recorded, finished]
    · rw [data, Cpu.setLastWrite_data]
    · rw [id, Cpu.setLastWrite_id]
    · rw [nextEdges, edges, edgesAfter_cons named]
    · rw [lastGen, gen]
    · rw [regs, edges]
      simp [entriesOf, named]

/-- The loop reaches its end only on lists that keep the mode. -/
theorem steady_of_recordRegs (filled : Filled done writes.length block pointer)
    (finished : (recordRegs node writes (cpu, block, pointer)).isSome) :
    Steady cpu.mode writes := by
  induction writes generalizing cpu done block pointer with
  | nil =>
    intro write member
    simp at member
  | cons write writes ih =>
    have named : ∃ cell, target write.id = .cell cell := by
      cases kind : target write.id with
      | cell cell => exact ⟨cell, rfl⟩
      | outside => simp [recordRegs, recordReg, kind] at finished
      | unknown => simp [recordRegs, recordReg, kind] at finished
    obtain ⟨cell, named⟩ := named
    have keeps : cell = .cpsr → write.data &&& cpsrModeMask = cpu.mode := by
      rintro rfl
      by_contra differs
      obtain ⟨next, stored, _⟩ := filled.store
        (RegNode.mk regidCpsr write.data (cpu.lastWrite .cpsr))
      have modes : (cpu.setLastWrite .cpsr node).mode ≠ write.data &&& cpsrModeMask := by
        rw [Cpu.mode, Cpu.setLastWrite_data, ← Cpu.mode]
        exact Ne.symm differs
      simp [recordRegs, recordReg, named, stored, dlSwitchMode_of_ne modes] at finished
    obtain ⟨middle, recorded, _, nextFilled⟩ := recordReg_keeps filled named keeps node
    have rest : Steady (cpu.setLastWrite cell node).mode writes := by
      apply ih nextFilled
      simpa [recordRegs, recorded] using finished
    rw [Cpu.mode, Cpu.setLastWrite_data, ← Cpu.mode] at rest
    intro other member
    rcases mem_cons.mp member with rfl | later
    · exact ⟨cell, named, keeps⟩
    · exact rest other later

/-- The node content for a list that keeps the mode. -/
def recordedData (oracle : Oracle) (id : DevId) (writes : List RegWrite) : InstData where
  id := some (oracle.cpu id).id
  nReg := writes.length
  reg :=
    { gen := 0
      regs := entriesOf oracle.fresh writes (oracle.cpu id).lastWrite }
  mem := []

theorem recordedData_entries (steady : Steady mode writes) (oracle : Oracle) (id : DevId) :
    (recordedData oracle id writes).reg.regs.take (recordedData oracle id writes).nReg =
      entriesOf oracle.fresh writes (oracle.cpu id).lastWrite := by
  rw [recordedData, ← entriesOf_length steady oracle.fresh (oracle.cpu id).lastWrite, take_length]

theorem deloreanPgExecCpu_steady {id : DevId} (current : oracle.lastExec = some last)
    (steady : Steady (oracle.cpu id).mode regs.writes) :
    ∃ cpu, deloreanPgExecCpu oracle id regs =
        some ((oracle.append last (.inst (recordedData oracle id regs.writes))).setCpu id cpu) ∧
      cpu.data = (oracle.cpu id).data ∧
      cpu.id = (oracle.cpu id).id ∧
      cpu.lastWrite = edgesAfter oracle.fresh regs.writes (oracle.cpu id).lastWrite := by
  obtain ⟨cpu, block, pointer, recorded, data, sameId, edges, gen, entries⟩ :=
    recordRegs_steady steady (Filled.alloc regs.writes.length) oracle.fresh
  refine ⟨cpu, ?_, data, sameId, edges⟩
  obtain ⟨blockGen, blockRegs⟩ := block
  simp only [RegBlock.alloc, nil_append] at gen entries recorded
  subst gen entries
  simp [deloreanPgExecCpu, current, recorded, RegBlock.alloc, recordedData, entriesOf_length steady]

theorem steady_of_deloreanPgExecCpu {id : DevId}
    (recorded : deloreanPgExecCpu oracle id regs = some later) :
    oracle.lastExec.isSome ∧ Steady (oracle.cpu id).mode regs.writes := by
  cases current : oracle.lastExec with
  | none => simp [deloreanPgExecCpu, current] at recorded
  | some last =>
    refine ⟨rfl, ?_⟩
    apply steady_of_recordRegs (Filled.alloc regs.writes.length)
    cases finished : recordRegs oracle.fresh regs.writes
        (oracle.cpu id, RegBlock.alloc regs.writes.length, ⟨0, 0⟩) with
    | none => simp [deloreanPgExecCpu, current, finished] at recorded
    | some state => rfl

theorem append_data (oracle : Oracle) (last : NodeId) (data : NodeData) :
    ((oracle.append last data).nodes oracle.fresh).data = data := by
  by_cases same : oracle.fresh = last
  · simp [Oracle.append, Oracle.linkNext, Oracle.setNode, ← same]
  · simp [Oracle.append, Oracle.linkNext, Oracle.setNode, same]

/-- `cpu_exec` and then the plugin run to their end on a list, and every cell
whose data `cpu_exec` has changed has an entry in the new node. -/
def ChangesRecorded (oracle : Oracle) (id : DevId) (regs : ExecReg) : Prop :=
  ∃ cpu next data,
    cpuExec (oracle.cpu id) regs = some cpu ∧
    deloreanPgExecCpu (oracle.setCpu id cpu) id regs = some next ∧
    (next.nodes oracle.fresh).data = .inst data ∧
    ∀ cell, cpu.data cell ≠ (oracle.cpu id).data cell →
      ∃ entry ∈ data.reg.regs.take data.nReg, target entry.id = .cell cell

/-- Every identifier of the list is a register, its status writes ask for one
mode, and a switch to that mode finds in each cell the list does not name the
data it moves there. -/
structure SwitchHarmless (cpu : Cpu) (writes : List RegWrite) : Prop where
  oneMode : Steady (newMode cpu.mode writes) writes
  banks : newMode cpu.mode writes ≠ cpu.mode →
    (cpuBank cpu.mode).isSome ∧ (cpuBank (newMode cpu.mode writes)).isSome
  unmoved : ∀ cell, ¬ Names writes cell →
    lastListed (beforeSwitch writes)
        (switchSource cpu.mode (newMode cpu.mode writes) cell)
        (cpu.data (switchSource cpu.mode (newMode cpu.mode writes) cell)) =
      cpu.data cell

theorem entriesOf_names_iff (steady : Steady mode writes) :
    (∃ entry ∈ entriesOf node writes edges, target entry.id = .cell cell) ↔ Names writes cell := by
  have ids := entriesOf_ids steady node edges
  constructor
  · rintro ⟨entry, member, named⟩
    have listed : entry.id ∈ writes.map RegWrite.id := by
      rw [← ids]
      exact mem_map_of_mem member
    obtain ⟨write, writeMember, same⟩ := mem_map.mp listed
    exact ⟨write, writeMember, by rw [same, named]⟩
  · rintro ⟨write, member, named⟩
    have listed : write.id ∈ (entriesOf node writes edges).map RegNode.id := by
      rw [ids]
      exact mem_map_of_mem member
    obtain ⟨entry, entryMember, same⟩ := mem_map.mp listed
    exact ⟨entry, entryMember, by rw [same, named]⟩

theorem switchHarmless_of_changesRecorded {id : DevId} (changes : ChangesRecorded oracle id regs) :
    oracle.lastExec.isSome ∧ SwitchHarmless (oracle.cpu id) regs.writes := by
  obtain ⟨cpu, next, data, executed, recorded, node, complete⟩ := changes
  obtain ⟨current, steady⟩ := steady_of_deloreanPgExecCpu recorded
  obtain ⟨last, current⟩ := isSome_iff_exists.mp current
  obtain ⟨_, recorded', _⟩ := deloreanPgExecCpu_steady current steady
  rw [recorded', some.injEq] at recorded
  subst next
  have sameData : data = recordedData (oracle.setCpu id cpu) id regs.writes := by
    apply NodeData.inst.inj
    rw [← node]
    exact append_data (oracle.setCpu id cpu) last _
  have noEntry : ∀ {cell}, ¬ Names regs.writes cell →
      cpu.data cell = (oracle.cpu id).data cell := by
    intro cell unnamed
    by_contra changed
    obtain ⟨entry, member, named⟩ := complete cell changed
    rw [sameData, recordedData_entries steady] at member
    exact unnamed ((entriesOf_names_iff steady).mp ⟨entry, member, named⟩)
  simp only [Oracle.setCpu, update_self] at steady current
  obtain ⟨mode, banks⟩ := cpuExec_newMode executed steady
  rw [← mode] at steady banks
  obtain ⟨cpu', executed', _, unnamedData⟩ := cpuExec_unnamed steady banks
  rw [cpuExec, executed', some.injEq] at executed
  subst cpu'
  refine ⟨isSome_of_eq_some current, steady, banks, ?_⟩
  intro cell unnamed
  rw [← unnamedData cell unnamed, noEntry unnamed]

theorem changesRecorded_of_switchHarmless {id : DevId} (current : oracle.lastExec.isSome)
    (harmless : SwitchHarmless (oracle.cpu id) regs.writes) :
    ChangesRecorded oracle id regs := by
  obtain ⟨last, current⟩ := isSome_iff_exists.mp current
  obtain ⟨cpu, executed, mode, unnamedData⟩ := cpuExec_unnamed harmless.oneMode harmless.banks
  have steady : Steady ((oracle.setCpu id cpu).cpu id).mode regs.writes := by
    simpa [Oracle.setCpu, mode] using harmless.oneMode
  have current' : (oracle.setCpu id cpu).lastExec = some last := current
  obtain ⟨_, recorded, _⟩ := deloreanPgExecCpu_steady current' steady
  refine ⟨cpu, _, _, executed, recorded, append_data _ _ _, ?_⟩
  intro cell changed
  have named : Names regs.writes cell := by
    by_contra unnamed
    apply changed
    rw [unnamedData cell unnamed, harmless.unmoved cell unnamed]
  obtain ⟨entry, member, entryNamed⟩ := (entriesOf_names_iff steady).mpr named
  rw [recordedData_entries steady]
  exact ⟨entry, member, entryNamed⟩

/-- The record is complete exactly when the mode switch is harmless. -/
theorem changesRecorded_iff (oracle : Oracle) (id : DevId) (regs : ExecReg) :
    ChangesRecorded oracle id regs ↔
      oracle.lastExec.isSome ∧ SwitchHarmless (oracle.cpu id) regs.writes := by
  constructor
  · exact switchHarmless_of_changesRecorded
  · rintro ⟨current, harmless⟩
    exact changesRecorded_of_switchHarmless current harmless

/-- A supervisor that has set its stack pointer enters user mode: `r13`
changes, and the node of the instruction only lists `CPSR`. -/
theorem enter_user_not_recorded :
    ∃ oracle,
      execAndRecord (boot ⟨fun _ _ => none⟩ [.cpu 0]) 0
        ⟨[⟨13, 5⟩], by decide⟩ = some oracle ∧
      ¬ ChangesRecorded oracle 0 ⟨[⟨0xFF, 0x10⟩], by decide⟩ := by
  refine ⟨_, rfl, ?_⟩
  intro changes
  have moved := (switchHarmless_of_changesRecorded changes).2.unmoved (.reg 13) (by decide)
  revert moved
  decide

end Reverse.Delorean
