import Reverse.Library.Timeline
import Reverse.Delorean.Chain

/-!
# Replay as a timeline

Replay only works on `r0`-`r15`, `CPSR` and `SPSR`.  A history is *plain* when
its instructions keep the processor mode and never reach one of these
registers through a user-bank identifier.  A plain history is a timeline: each
replay step succeeds, leaves the registers alone that the event does not list,
and a forward step writes what the recording wrote.
-/

namespace Reverse.Sherlock

/-- The identifier under which replay looks for a cell. -/
def Cell.regid : Cell → Option (BitVec 8)
  | .reg index => some (BitVec.ofNat 8 index.val)
  | .cpsr => some regidCpsr
  | .spsr => some regidSpsr
  | _ => none

end Reverse.Sherlock

namespace Reverse.Delorean

open Sherlock Library Option Function

theorem archCell_eq_some_iff {id : BitVec 8} : archCell id = some cell ↔ cell.regid = some id := by
  constructor
  · intro found
    unfold archCell at found
    split_ifs at found with low status saved
    · cases found
      have index : (regIndex id).val = id.toNat := Nat.mod_eq_of_lt low
      simp [Cell.regid, index]
    · cases found
      rw [status]
      rfl
    · cases found
      rw [saved]
      rfl
  · intro named
    cases cell with
    | reg index =>
      cases named
      fin_cases index <;> rfl
    | cpsr =>
      cases named
      rfl
    | spsr =>
      cases named
      rfl
    | _ => cases named

theorem target_of_regid {id : BitVec 8} (named : cell.regid = some id) :
    target id = .cell cell := by
  have found := archCell_eq_some_iff.mpr named
  unfold archCell at found
  unfold target
  split_ifs at found ⊢ <;> simp_all

/-- No user-bank identifier of a list reaches a register of the current
mode. -/
def Direct (writes : List RegWrite) : Prop :=
  ∀ write ∈ writes, ∀ cell, target write.id = .cell cell →
    cell.regid = none ∨ cell.regid = some write.id

theorem Direct.tail (direct : Direct (write :: writes)) : Direct writes := by
  intro other member
  exact direct other (by simp [member])

/-- In a direct list a replayed cell is only written under its own
identifier. -/
theorem Direct.target_iff (direct : Direct writes) (member : write ∈ writes)
    {id : BitVec 8} (named : cell.regid = some id) :
    target write.id = .cell cell ↔ archCell write.id = some cell := by
  rw [archCell_eq_some_iff]
  constructor
  · intro reached
    rcases direct write member cell reached with hidden | own
    · rw [named] at hidden
      cases hidden
    · exact own
  · exact target_of_regid

theorem forwardReg_cell (node : NodeId) (cpu : Cpu) (entry : RegNode) (cell : Cell) :
    (forwardReg node cpu entry).cell cell =
      if archCell entry.id = some cell then
        { data := entry.value, lastWrite := some node }
      else cpu.cell cell := by
  unfold forwardReg
  split
  · next named found =>
      by_cases same : cell = named
      · simp [found, same]
      · simp [found, same, Ne.symm same]
  · next found => simp [found]

theorem forwardReg_id (node : NodeId) (cpu : Cpu) (entry : RegNode) :
    (forwardReg node cpu entry).id = cpu.id := by
  unfold forwardReg
  split <;> rfl

theorem foldl_forwardReg_id (node : NodeId) (entries : List RegNode)
    (cpu : Cpu) : (entries.foldl (forwardReg node) cpu).id = cpu.id := by
  induction entries generalizing cpu with
  | nil => rfl
  | cons entry entries ih =>
    rw [List.foldl_cons, ih, forwardReg_id]

/-- Going forward writes the last listed value of a cell and its edge. -/
theorem foldl_forwardReg_cell (steady : Steady mode writes)
    (direct : Direct writes) {id : BitVec 8} (named : cell.regid = some id)
    (node : NodeId) (edges : Cell → Option NodeId) (cpu : Cpu) :
    ((entriesOf node writes edges).foldl (forwardReg node) cpu).cell cell =
      if Names writes cell then
        { data := lastListed writes cell (cpu.data cell)
          lastWrite := some node }
      else cpu.cell cell := by
  induction writes generalizing edges cpu with
  | nil => simp [entriesOf, Names]
  | cons write writes ih =>
    obtain ⟨written, reached, _⟩ := steady write (by simp)
    have own : target write.id = .cell cell ↔
        archCell write.id = some cell := direct.target_iff (by simp) named
    simp only [entriesOf, reached, List.foldl_cons]
    rw [ih steady.tail direct.tail]
    simp only [Cpu.data, forwardReg_cell, names_cons, lastListed, List.foldl_cons]
    by_cases here : target write.id = .cell cell
    · by_cases later : Names writes cell
      · simp [here, own.mp here, later]
      · have last := lastListed_of_not_names later write.data
        rw [lastListed] at last
        simp [here, own.mp here, later, last]
    · simp [here, own.not.mp here]

theorem cpuForwardExec_recorded (steady : Steady mode writes)
    (direct : Direct writes) (replayed : cell.regid.isSome) (oracle : Oracle)
    (id : DevId) (mem : List NodeId) (cpu : Cpu) :
    (cpuForwardExec oracle.fresh { recordedData oracle id writes with mem := mem } cpu).cell cell =
      if Names writes cell then
        { data := lastListed writes cell (cpu.data cell)
          lastWrite := some oracle.fresh }
      else cpu.cell cell := by
  obtain ⟨_, named⟩ := isSome_iff_exists.mp replayed
  have fold := foldl_forwardReg_cell steady direct named oracle.fresh (oracle.cpu id).lastWrite cpu
  rw [← recordedData_entries steady oracle id] at fold
  exact fold

theorem foldlM_reverseReg_frame (nodes : NodeId → InstNode) {entries : List RegNode}
    (anchored : ∀ entry ∈ entries, entry.lastWrite.isSome) (cpu : Cpu) :
    ∃ next, entries.foldlM (reverseReg nodes) cpu = some next ∧
      next.id = cpu.id ∧
      ∀ cell, (∀ entry ∈ entries, archCell entry.id ≠ some cell) →
        next.cell cell = cpu.cell cell := by
  induction entries generalizing cpu with
  | nil => exact ⟨cpu, rfl, rfl, fun _ _ => rfl⟩
  | cons entry entries ih =>
    obtain ⟨edge, lastWrite⟩ := isSome_iff_exists.mp (anchored entry (by simp))
    have later : ∀ other ∈ entries, other.lastWrite.isSome := by
      intro other member
      exact anchored other (by simp [member])
    cases found : archCell entry.id with
    | none =>
      obtain ⟨next, reversed, id, frame⟩ := ih later cpu
      refine ⟨next, ?_, id, ?_⟩
      · simp [List.foldlM_cons, reverseReg, found, reversed]
      · intro cell unnamed
        apply frame
        intro other member
        exact unnamed other (by simp [member])
    | some cell =>
      obtain ⟨next, reversed, id, frame⟩ := ih later
        (cpu.setCell cell (getRegLastWrite nodes edge (cpu.cell cell) entry.id))
      refine ⟨next, ?_, id, ?_⟩
      · simp [List.foldlM_cons, reverseReg, found, lastWrite, reversed]
      · intro other unnamed
        have differ : other ≠ cell := by
          rintro rfl
          exact unnamed entry (by simp) found
        rw [frame, Cpu.setCell_cell, update_of_ne differ]
        intro later member
        exact unnamed later (by simp [member])

/-- An instruction of an announced processor whose list keeps the mode and
reaches the replayed registers directly, or any other event. -/
def Plain (announced : DevId → Prop) (oracle : Oracle) : Event → Prop
  | .inst id event => announced id ∧
      ∃ regs, event.execReg = some regs ∧
        Steady (oracle.cpu id).mode regs.writes ∧ Direct regs.writes
  | _ => True

/-- The state of the tool before its first event. -/
structure Ready (announced : DevId → Prop) (base first : Nat)
    (oracle : Oracle) : Prop where
  chain : Chain base first 0 oracle
  current : oracle.lastExec = some base
  ids : ∀ id, (oracle.cpu id).id = id
  anchored : ∀ id, announced id → ∀ cell,
    ((oracle.cpu id).lastWrite cell).isSome

/-- A history of plain events that starts from a ready tool. -/
structure PlainHistory (announced : DevId → Prop) (base first : Nat)
    (start : Oracle) extends History start where
  ready : Ready announced base first start
  plain : ∀ {pos : Nat} {event : Event},
    events[pos]? = some event →
    Plain announced (state pos) event

/-- A recorded plain instruction. -/
structure RecordedInst (oracle : Oracle) (last : NodeId) (next : Oracle)
    (id : DevId) (writes : List RegWrite) : Prop where
  others : ∀ other, other ≠ id → next.cpu other = oracle.cpu other
  sameId : (next.cpu id).id = (oracle.cpu id).id
  data : ∀ cell, (next.cpu id).data cell =
    lastListed writes cell ((oracle.cpu id).data cell)
  edges : (next.cpu id).lastWrite =
    edgesAfter oracle.fresh writes (oracle.cpu id).lastWrite
  node : Appended oracle last (.inst (recordedData oracle id writes)) next

theorem cpuGoInst_steady {id : DevId} (current : oracle.lastExec = some last)
    (allocated : last < oracle.fresh) (listed : event.execReg = some regs)
    (steady : Steady (oracle.cpu id).mode regs.writes) :
    ∃ next, cpuGoInst oracle id event = some next ∧
      RecordedInst oracle last next id regs.writes := by
  obtain ⟨cpu, executed, mode, sameId, edges, data⟩ := foldlM_cpuExecReg_steady steady
  have steady' : Steady ((oracle.setCpu id cpu).cpu id).mode regs.writes := by
    simpa [Oracle.setCpu, mode] using steady
  have current' : (oracle.setCpu id cpu).lastExec = some last := current
  have sameNode : recordedData (oracle.setCpu id cpu) id regs.writes =
      recordedData oracle id regs.writes := by
    simp [recordedData, Oracle.setCpu, sameId, edges]
  obtain ⟨final, recorded, finalData, finalId, finalEdges⟩ :=
    deloreanPgExecCpu_steady current' steady'
  simp only [Oracle.setCpu, update_self] at finalData finalId finalEdges
  have whole : cpuGoInst oracle id event = deloreanPgExecCpu (oracle.setCpu id cpu) id regs := by
    simp [cpuGoInst, listed, execAndRecord, cpuExec, executed]
  refine ⟨_, whole.trans recorded, ?_, ?_, ?_, ?_, ?_⟩
  · intro other differ
    simp [Oracle.setCpu, Oracle.append, Oracle.linkNext, Oracle.setNode, differ]
  · simp [Oracle.setCpu, finalId, sameId]
  · intro cell
    simp only [Oracle.setCpu, update_self]
    rw [finalData, data]
  · simp only [Oracle.setCpu, update_self]
    rw [finalEdges, edges]
  · rw [← sameNode]
    have heap := append_appended allocated
      (.inst (recordedData (oracle.setCpu id cpu) id regs.writes))
    exact heap.congr rfl rfl rfl

/-- A node that replay passes without touching a processor. -/
def NodeData.Passive (content : NodeData) : Prop :=
  (∃ data id, content = .mem data ∧ data.id = some id) ∨ ∃ id, content = .dev id

theorem NodeData.Passive.of_core {content other : NodeData}
    (passive : content.Passive) (core : other.core = content.core) :
    other.Passive := by
  rcases passive with ⟨data, id, rfl, named⟩ | ⟨id, rfl⟩
  · exact Or.inl ⟨data, id, NodeData.core_eq_mem core, named⟩
  · exact Or.inr ⟨id, NodeData.core_eq_dev core⟩

/-- A recorded store or device access. -/
structure RecordedOther (oracle : Oracle) (last : NodeId) (next : Oracle) :
    Prop where
  cpu : next.cpu = oracle.cpu
  node : ∃ content, content.Passive ∧ Appended oracle last content next

theorem memRetAck_recorded (current : oracle.lastExec = some last) (allocated : last < oracle.fresh)
    (recorded : memRetAck oracle store = some next) :
    RecordedOther oracle last next := by
  obtain ⟨instr, heap, cpu, _⟩ := deloreanPgExecMem_appended recorded current allocated
  refine ⟨cpu, _, ?_, heap.fresh, heap.lastExec, heap.added, heap.linked,
    heap.core, heap.back, heap.forth⟩
  exact Or.inl ⟨_, (oracle.mem store.mem).id, rfl, rfl⟩

theorem deloreanPgExecDev_recorded {id : DevId}
    (current : oracle.lastExec = some last) (allocated : last < oracle.fresh)
    (recorded : deloreanPgExecDev oracle id = some next) :
    RecordedOther oracle last next := by
  simp only [deloreanPgExecDev, current, bind_eq_bind, bind_some, pure_def, some.injEq] at recorded
  subst next
  exact ⟨rfl, _, Or.inr ⟨_, rfl⟩, append_appended allocated _⟩

theorem reverseStep_inst {id : DevId} (current : oracle.lastExec = some node)
    (content : (oracle.nodes node).data = .inst data)
    (named : data.id = some id) (reversed : cpuReverseExec oracle.nodes data
      { oracle.cpu id with lastExec := some node } = some cpu) :
    reverseStep oracle =
      some { oracle.setCpu id cpu with
        lastExec := (oracle.nodes node).lastExec } := by
  simp [reverseStep, oracleReverseExec, current, content, named, reversed]

theorem reverseStep_mem {id : DevId} (current : oracle.lastExec = some node)
    (content : (oracle.nodes node).data = .mem data) (named : data.id = some id) :
    ∃ next, reverseStep oracle = some next ∧ next.cpu = oracle.cpu ∧
      next.nodes = oracle.nodes ∧
      next.fresh = oracle.fresh ∧
      next.lastExec = (oracle.nodes node).lastExec ∧
      next.table = memReverseExec oracle.table data := by
  simp [reverseStep, oracleReverseExec, current, content, named]

theorem reverseStep_other (current : oracle.lastExec = some node)
    (passive : (oracle.nodes node).data.Passive) :
    ∃ next, reverseStep oracle = some next ∧ next.cpu = oracle.cpu ∧
      next.nodes = oracle.nodes ∧ next.fresh = oracle.fresh ∧
      next.lastExec = (oracle.nodes node).lastExec := by
  rcases passive with ⟨data, id, content, named⟩ | ⟨id, content⟩
  · obtain ⟨next, reversed, cpu, nodes, fresh, lastExec, _⟩ := reverseStep_mem current content named
    exact ⟨next, reversed, cpu, nodes, fresh, lastExec⟩
  · simp [reverseStep, oracleReverseExec, current, content]

theorem forwardStep_inst {oracle : Oracle} {node next : NodeId}
    {data : InstData} {id : DevId} (current : oracle.lastExec = some node)
    (follows : (oracle.nodes node).next = some next)
    (content : (oracle.nodes next).data = .inst data) (named : data.id = some id) :
    forwardStep oracle =
      some { oracle.setCpu id (cpuForwardExec next data
          { oracle.cpu id with nextExec := some next }) with
        lastExec := some next } := by
  simp [forwardStep, oracleForwardExec, current, follows, content, named]

theorem forwardStep_other (current : oracle.lastExec = some node)
    (follows : (oracle.nodes node).next = some next) (passive : (oracle.nodes next).data.Passive) :
    ∃ after, forwardStep oracle = some after ∧ after.cpu = oracle.cpu ∧
      after.nodes = oracle.nodes ∧ after.fresh = oracle.fresh ∧
      after.lastExec = some next := by
  rcases passive with ⟨data, id, content, named⟩ | ⟨id, content⟩
  · simp [forwardStep, oracleForwardExec, current, follows, content, named]
  · simp [forwardStep, oracleForwardExec, current, follows, content]

/-- The registers that replay works on. -/
abbrev ArchReg := { cell : Cell // cell.regid.isSome }

namespace PlainHistory

variable {announced : DevId → Prop} {base first : Nat} {start : Oracle}
  (history : PlainHistory announced base first start)

theorem step_cases (found : history.events[pos]? = some event) :
    (∃ id inst regs, event = .inst id inst ∧ inst.execReg = some regs ∧
        announced id ∧
        Steady ((history.state pos).cpu id).mode regs.writes ∧
        Direct regs.writes ∧
        RecordedInst (history.state pos) (nodeAt base first pos)
          (history.state (pos + 1)) id regs.writes) ∨
      ((∀ id inst, event ≠ .inst id inst) ∧
        RecordedOther (history.state pos) (nodeAt base first pos)
          (history.state (pos + 1))) := by
  have inside : pos ≤ history.length := Nat.le_of_lt (List.getElem?_eq_some_iff.mp found).1
  obtain ⟨chain, current⟩ := History.chain history.ready.chain history.ready.current inside
  have allocated := chain.allocated (Nat.le_refl pos)
  have recorded := history.step found
  cases event with
  | inst id event =>
    obtain ⟨known, regs, listed, steady, direct⟩ := history.plain found
    obtain ⟨next, result, step⟩ := cpuGoInst_steady current allocated listed steady
    rw [recordEvent, result, some.injEq] at recorded
    rw [recorded] at step
    exact Or.inl ⟨id, event, regs, rfl, listed, known, steady, direct, step⟩
  | store store =>
    exact Or.inr ⟨by simp, memRetAck_recorded current allocated recorded⟩
  | dev id =>
    exact Or.inr ⟨by simp, deloreanPgExecDev_recorded current allocated recorded⟩

theorem processors (inside : pos ≤ history.length) :
    (∀ id, ((history.state pos).cpu id).id = id) ∧
      ∀ id, announced id → ∀ cell, (((history.state pos).cpu id).lastWrite cell).isSome := by
  refine history.invariant
    (motive := fun _ oracle => (∀ id, (oracle.cpu id).id = id) ∧
      ∀ id, announced id → ∀ cell, ((oracle.cpu id).lastWrite cell).isSome)
    ⟨history.ready.ids, history.ready.anchored⟩ ?_ inside
  rintro pos event found ⟨ids, anchored⟩
  rcases history.step_cases found with
    ⟨written, _, regs, _, _, _, _, _, step⟩ | ⟨_, step⟩
  · constructor
    · intro id
      by_cases same : id = written
      · subst id
        rw [step.sameId, ids]
      · rw [step.others id same, ids]
    · intro id known cell
      by_cases same : id = written
      · subst id
        rw [step.edges, edgesAfter]
        split
        · rfl
        · exact anchored written known cell
      · rw [step.others id same]
        exact anchored id known cell
  · rw [step.cpu]
    exact ⟨ids, anchored⟩

/-- The replay cursor stands after a number of events: the heap is that of the
tip. -/
structure Stands (pos : Nat) (oracle : Oracle) : Prop where
  nodes : oracle.nodes = history.tip.nodes
  current : oracle.lastExec = some (nodeAt base first pos)
  ids : ∀ id, (oracle.cpu id).id = id

theorem tip_stands : history.Stands history.length history.tip where
  nodes := rfl
  current := (History.chain history.ready.chain history.ready.current
    (Nat.le_refl history.length)).2
  ids := (history.processors (Nat.le_refl _)).1

/-- The event at a position lists a cell of a processor. -/
def Touches (pos : Nat) (id : DevId) (cell : Cell) : Prop :=
  ∃ inst regs, history.events[pos]? = some (.inst id inst) ∧
    inst.execReg = some regs ∧ Names regs.writes cell

theorem touches_iff {id other : DevId} (found : history.events[pos]? = some (.inst id inst))
    (listed : inst.execReg = some regs) :
    history.Touches pos other cell ↔ other = id ∧ Names regs.writes cell := by
  constructor
  · rintro ⟨inst', regs', found', listed', named⟩
    rw [found, some.injEq, Event.inst.injEq] at found'
    obtain ⟨rfl, rfl⟩ := found'
    rw [listed, some.injEq] at listed'
    subst regs'
    exact ⟨rfl, named⟩
  · rintro ⟨rfl, named⟩
    exact ⟨inst, regs, found, listed, named⟩

theorem state_frame (inside : pos < history.length) {id : DevId}
    (untouched : ¬ history.Touches pos id cell) :
    ((history.state (pos + 1)).cpu id).cell cell =
      ((history.state pos).cpu id).cell cell := by
  have found := List.getElem?_eq_getElem inside
  rcases history.step_cases found with
    ⟨written, inst, regs, event, listed, _, _, _, step⟩ | ⟨_, step⟩
  · rw [event] at found
    rw [history.touches_iff found listed, not_and] at untouched
    by_cases same : id = written
    · subst id
      have unnamed := untouched rfl
      apply Cpu.cell_eq
      · rw [step.data, lastListed_of_not_names unnamed]
      · rw [step.edges, edgesAfter, if_neg unnamed]
    · rw [step.others id same]
  · rw [step.cpu]

theorem previous_node (inside : pos < history.length) (stands : history.Stands (pos + 1) oracle) :
    (oracle.nodes (nodeAt base first (pos + 1))).lastExec =
      some (nodeAt base first pos) := by
  rw [stands.nodes]
  exact (History.chain history.ready.chain history.ready.current
    (Nat.le_refl history.length)).1.back pos inside

/-- Reversing a recorded instruction folds over the entries it was recorded
with. -/
theorem reverse_inst {id : DevId} (found : history.events[pos]? = some (.inst id inst))
    (stands : history.Stands (pos + 1) oracle) (known : announced id) (steady : Steady mode writes)
    (step : RecordedInst (history.state pos) (nodeAt base first pos)
      (history.state (pos + 1)) id writes) :
    ∃ cpu,
      (entriesOf (history.state pos).fresh writes
        ((history.state pos).cpu id).lastWrite).foldlM
          (reverseReg oracle.nodes)
          { oracle.cpu id with
            lastExec := some (nodeAt base first (pos + 1)) } =
        some cpu ∧
      reverseStep oracle =
        some { oracle.setCpu id cpu with
          lastExec := some (nodeAt base first pos) } ∧
      cpu.id = (oracle.cpu id).id ∧
      ∀ cell, (∀ entry ∈ entriesOf (history.state pos).fresh writes
          ((history.state pos).cpu id).lastWrite,
          archCell entry.id ≠ some cell) →
        cpu.cell cell = (oracle.cpu id).cell cell := by
  have inside : pos < history.length := (List.getElem?_eq_some_iff.mp found).1
  obtain ⟨mem, content⟩ := NodeData.core_eq_inst
    (History.tip_core history.ready.chain history.ready.current inside step.node)
  rw [← stands.nodes] at content
  obtain ⟨ids, anchored⟩ := history.processors (Nat.le_of_lt inside)
  have edges : ∀ entry ∈ entriesOf (history.state pos).fresh writes
      ((history.state pos).cpu id).lastWrite, entry.lastWrite.isSome :=
    entriesOf_edges (p := fun edge => edge.isSome) (anchored id known) rfl
      writes
  obtain ⟨cpu, reversed, sameId, frame⟩ := foldlM_reverseReg_frame oracle.nodes
    edges
    { oracle.cpu id with
      lastExec := some (nodeAt base first (pos + 1)) }
  refine ⟨cpu, reversed, ?_, sameId, frame⟩
  rw [← recordedData_entries steady] at reversed
  rw [← history.previous_node inside stands]
  exact reverseStep_inst stands.current content (congrArg some (ids id)) reversed

theorem reverse_step (inside : pos < history.length) (stands : history.Stands (pos + 1) oracle) :
    ∃ next, reverseStep oracle = some next ∧
      history.Stands pos next ∧
      ∀ id cell, cell.regid.isSome → ¬ history.Touches pos id cell →
        (next.cpu id).cell cell = (oracle.cpu id).cell cell := by
  have found := List.getElem?_eq_getElem inside
  rcases history.step_cases found with
    ⟨written, inst, regs, event, listed, known, steady, direct, step⟩ |
    ⟨_, step⟩
  · rw [event] at found
    obtain ⟨cpu, _, result, sameId, frame⟩ := history.reverse_inst found stands known steady step
    refine ⟨_, result, ⟨stands.nodes, rfl, ?_⟩, ?_⟩
    · intro id
      by_cases same : id = written
      · subst id
        simp [Oracle.setCpu, sameId, stands.ids]
      · simp [Oracle.setCpu, same, stands.ids]
    · intro id cell replayed untouched
      rw [history.touches_iff found listed, not_and] at untouched
      by_cases same : id = written
      · subst id
        simp only [Oracle.setCpu, update_self]
        apply frame
        intro entry member named
        exact untouched rfl ((entriesOf_names_iff steady).mp ⟨entry, member,
          target_of_regid (archCell_eq_some_iff.mp named)⟩)
      · simp [Oracle.setCpu, same]
  · obtain ⟨content, passive, appended⟩ := step.node
    have core := History.tip_core history.ready.chain history.ready.current inside appended
    rw [← stands.nodes] at core
    obtain ⟨next, reversed, cpu, nodes, _, current⟩ :=
      reverseStep_other stands.current (passive.of_core core)
    refine ⟨next, reversed, ⟨nodes.trans stands.nodes,
      current.trans (history.previous_node inside stands), ?_⟩, ?_⟩
    · rw [cpu]
      exact stands.ids
    · intro id cell _ _
      rw [cpu]

theorem forward_step (inside : pos < history.length) (stands : history.Stands pos oracle) :
    ∃ next, forwardStep oracle = some next ∧
      history.Stands (pos + 1) next ∧
      (∀ id cell, cell.regid.isSome → history.Touches pos id cell →
        (next.cpu id).cell cell = ((history.state (pos + 1)).cpu id).cell cell) ∧
      ∀ id cell, cell.regid.isSome → ¬ history.Touches pos id cell →
        (next.cpu id).cell cell = (oracle.cpu id).cell cell := by
  have found := List.getElem?_eq_getElem inside
  have after : (history.tip.nodes (nodeAt base first pos)).next =
        some (nodeAt base first (pos + 1)) :=
    (History.chain history.ready.chain history.ready.current
      (Nat.le_refl history.length)).1.next pos inside
  rw [← stands.nodes] at after
  rcases history.step_cases found with
    ⟨written, inst, regs, event, listed, known, steady, direct, step⟩ |
    ⟨other, step⟩
  · rw [event] at found
    obtain ⟨mem, content⟩ := NodeData.core_eq_inst
      (History.tip_core history.ready.chain history.ready.current inside
      step.node)
    rw [← stands.nodes] at content
    obtain ⟨ids, _⟩ := history.processors (Nat.le_of_lt inside)
    have node : (history.state pos).fresh = nodeAt base first (pos + 1) :=
      (History.chain history.ready.chain history.ready.current (Nat.le_of_lt inside)).1.fresh
    have result := forwardStep_inst stands.current after content (congrArg some (ids written))
    have written_cell : ∀ cell : Cell, cell.regid.isSome → _ :=
      fun _ replayed => cpuForwardExec_recorded steady direct replayed
        (history.state pos) written mem
        { oracle.cpu written with
          nextExec := some (nodeAt base first (pos + 1)) }
    simp only [node] at written_cell
    refine ⟨_, result, ⟨stands.nodes, rfl, ?_⟩, ?_, ?_⟩
    · intro id
      by_cases same : id = written
      · subst id
        simp [Oracle.setCpu, cpuForwardExec, foldl_forwardReg_id, stands.ids]
      · simp [Oracle.setCpu, same, stands.ids]
    · intro id cell replayed touched
      obtain ⟨rfl, named⟩ := (history.touches_iff found listed).mp touched
      simp only [Oracle.setCpu, update_self]
      rw [written_cell cell replayed, if_pos named]
      have edge : ((history.state (pos + 1)).cpu id).lastWrite cell =
          some (nodeAt base first (pos + 1)) := by
        rw [step.edges, edgesAfter, if_pos named, node]
      rw [lastListed_of_names named _ (((history.state pos).cpu id).data cell), ← step.data, ← edge]
      rfl
    · intro id cell replayed untouched
      rw [history.touches_iff found listed, not_and] at untouched
      by_cases same : id = written
      · subst id
        simp only [Oracle.setCpu, update_self]
        rw [written_cell cell replayed, if_neg (untouched rfl)]
      · simp [Oracle.setCpu, same]
  · obtain ⟨content, passive, appended⟩ := step.node
    have core := History.tip_core history.ready.chain history.ready.current inside appended
    rw [← stands.nodes] at core
    obtain ⟨next, forwarded, cpu, nodes, _, current⟩ :=
      forwardStep_other stands.current after (passive.of_core core)
    refine ⟨next, forwarded, ⟨nodes.trans stands.nodes, current, ?_⟩, ?_, ?_⟩
    · rw [cpu]
      exact stands.ids
    · rintro id cell _ ⟨inst, _, found', _⟩
      rw [found, some.injEq] at found'
      exact (other id inst found').elim
    · intro id cell _ _
      rw [cpu]

/-- A plain history is a timeline of the replayed registers. -/
def timeline : Timeline Oracle (DevId × ArchReg) Reg where
  length := history.length
  At := history.Stands
  read := fun oracle key => (oracle.cpu key.1).cell key.2
  recorded := fun pos key =>
    ((history.state pos).cpu key.1).cell key.2
  touched := fun pos key => history.Touches pos key.1 key.2
  back := reverseStep
  forth := forwardStep
  recorded_frame := fun inside untouched =>
    history.state_frame inside untouched
  back_step := by
    intro event oracle inside stands
    obtain ⟨next, reversed, nextStands, frame⟩ := history.reverse_step inside stands
    exact ⟨next, reversed, nextStands,
      fun key untouched => frame key.1 key.2 key.2.property untouched⟩
  forth_step := by
    intro event oracle inside stands
    obtain ⟨next, forwarded, nextStands, written, frame⟩ := history.forward_step inside stands
    exact ⟨next, forwarded, nextStands,
      fun key touched => written key.1 key.2 key.2.property touched,
      fun key untouched => frame key.1 key.2 key.2.property untouched⟩

end PlainHistory

/-- Reverse and forward steps in the given order. -/
def replay : List Move → Oracle → Option Oracle
  | [], oracle => some oracle
  | .back :: moves, oracle => (reverseStep oracle).bind (replay moves)
  | .forth :: moves, oracle => (forwardStep oracle).bind (replay moves)

theorem replay_append (left right : List Move) (oracle : Oracle) :
    replay (left ++ right) oracle = (replay left oracle).bind (replay right) := by
  induction left generalizing oracle with
  | nil => rfl
  | cons move left ih =>
    cases move with
    | back =>
      rw [List.cons_append, replay, replay]
      cases reverseStep oracle with
      | none => rfl
      | some next => exact ih next
    | forth =>
      rw [List.cons_append, replay, replay]
      cases forwardStep oracle with
      | none => rfl
      | some next => exact ih next

theorem walk_eq_replay {line : Timeline Oracle κ ν}
    (back : line.back = reverseStep) (forth : line.forth = forwardStep)
    (moves : List Move) : line.walk moves = replay moves := by
  induction moves with
  | nil => rfl
  | cons move moves ih =>
    funext oracle
    cases move with
    | back => simp only [Timeline.walk, replay, back, ih]
    | forth => simp only [Timeline.walk, replay, forth, ih]

end Reverse.Delorean
