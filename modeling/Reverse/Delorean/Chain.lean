import Reverse.Delorean.Recording

/-!
# The chain of recorded events

Every recorded event appends one node.  `Appended` says what a recording step
does to the heap, whatever the event is; the chain that `oracle_reverse_exec`
and `oracle_forward_exec` follow is derived from it.
-/

namespace Reverse.Delorean

open Sherlock Option

/-- A traced event that Delorean records. -/
inductive Event where
  | inst (id : DevId) (event : InstEvent)
  | store (store : StoreEvent)
  | dev (id : DevId)

def recordEvent (oracle : Oracle) : Event → Option Oracle
  | .inst id event => cpuGoInst oracle id event
  | .store store => memRetAck oracle store
  | .dev id => deloreanPgExecDev oracle id

/-- The executed instruction at `pc` that writes the given registers and does
not jump. -/
def writingInst (pc : Word) (regs : List RegWrite) (bounded : regs.length ≤ 18) : InstEvent :=
  { pc := pc, exec := true, jump := false, jumpPc := 0
    regs := regs, bounded := bounded }

/-- A node content without the list of stores, the only part of a node that a
later event changes. -/
def NodeData.core : NodeData → NodeData
  | .inst data => .inst { data with mem := [] }
  | other => other

theorem NodeData.core_eq_inst {content : NodeData} (core : content.core = .inst data) :
    ∃ mem, content = .inst { data with mem := mem } := by
  cases content with
  | inst found =>
    simp only [NodeData.core, NodeData.inst.injEq] at core
    subst core
    exact ⟨found.mem, rfl⟩
  | mem found => cases core
  | dev id => cases core

theorem NodeData.core_eq_mem {content : NodeData}
    (core : content.core = .mem data) : content = .mem data := by
  cases content with
  | inst found => cases core
  | mem found => exact core
  | dev id => cases core

theorem NodeData.core_eq_dev {content : NodeData} {id : DevId}
    (core : content.core = .dev id) : content = .dev id := by
  cases content with
  | inst found => cases core
  | mem found => cases core
  | dev found => exact core

/-- What every recording step does to the heap. -/
structure Appended (oracle : Oracle) (last : NodeId) (content : NodeData)
    (next : Oracle) : Prop where
  fresh : next.fresh = oracle.fresh + 1
  lastExec : next.lastExec = some oracle.fresh
  added : next.nodes oracle.fresh =
    { data := content, next := none, lastExec := some last }
  linked : (next.nodes last).next = some oracle.fresh
  core : ∀ node < oracle.fresh,
    (next.nodes node).data.core = (oracle.nodes node).data.core
  back : ∀ node < oracle.fresh,
    (next.nodes node).lastExec = (oracle.nodes node).lastExec
  forth : ∀ node < oracle.fresh, node ≠ last →
    (next.nodes node).next = (oracle.nodes node).next

theorem append_appended (allocated : last < oracle.fresh) (content : NodeData) :
    Appended oracle last content (oracle.append last content) := by
  have lastOld : last ≠ oracle.fresh := Nat.ne_of_lt allocated
  refine ⟨rfl, rfl, ?_, ?_, ?_, ?_, ?_⟩
  · simp [Oracle.append, Oracle.linkNext, Oracle.setNode, lastOld, Ne.symm lastOld]
  · simp [Oracle.append, Oracle.linkNext, Oracle.setNode]
  all_goals
    intro node old
    have nodeOld : node ≠ oracle.fresh := Nat.ne_of_lt old
    by_cases same : node = last
    · simp [Oracle.append, Oracle.linkNext, Oracle.setNode, same, lastOld]
    · simp [Oracle.append, Oracle.linkNext, Oracle.setNode, same, nodeOld]

theorem Appended.congr (heap : Appended oracle last content next) (fresh : other.fresh = next.fresh)
    (lastExec : other.lastExec = next.lastExec) (nodes : other.nodes = next.nodes) :
    Appended oracle last content other where
  fresh := fresh.trans heap.fresh
  lastExec := lastExec.trans heap.lastExec
  added := nodes ▸ heap.added
  linked := nodes ▸ heap.linked
  core := nodes ▸ heap.core
  back := nodes ▸ heap.back
  forth := nodes ▸ heap.forth

theorem deloreanPgExecCpu_appended {id : DevId}
    (recorded : deloreanPgExecCpu oracle id regs = some next)
    (current : oracle.lastExec = some last) (allocated : last < oracle.fresh) :
    Appended oracle last (.inst (recordedData oracle id regs.writes))
      next := by
  obtain ⟨_, steady⟩ := steady_of_deloreanPgExecCpu recorded
  obtain ⟨cpu, result, _⟩ := deloreanPgExecCpu_steady current steady
  rw [result, some.injEq] at recorded
  subst next
  exact (append_appended allocated _).congr rfl rfl rfl

/-- `add_mem_node` changes the list of stores of one node. -/
theorem addMemNode_kept (added : addMemNode oracle inst node = some next) :
    ∃ nodes, next = { oracle with nodes := nodes } ∧
      ∀ other,
        (nodes other).data.core = (oracle.nodes other).data.core ∧
        (nodes other).lastExec = (oracle.nodes other).lastExec ∧
        (nodes other).next = (oracle.nodes other).next := by
  unfold addMemNode at added
  split at added
  · next data content =>
      split at added
      · cases added
        refine ⟨_, rfl, ?_⟩
        intro other
        by_cases same : other = inst
        · subst other
          simp [NodeData.core, content]
        · simp [same]
      · cases added
  · cases added
    exact ⟨_, rfl, fun _ => ⟨rfl, rfl, rfl⟩⟩

theorem Appended.of_kept (heap : Appended { oracle with nodes := nodes } last content next)
    (kept : ∀ other,
      (nodes other).data.core = (oracle.nodes other).data.core ∧
      (nodes other).lastExec = (oracle.nodes other).lastExec ∧
      (nodes other).next = (oracle.nodes other).next) :
    Appended oracle last content next where
  fresh := heap.fresh
  lastExec := heap.lastExec
  added := heap.added
  linked := heap.linked
  core := fun node old => (heap.core node old).trans (kept node).1
  back := fun node old => (heap.back node old).trans (kept node).2.1
  forth := fun node old other =>
    (heap.forth node old other).trans (kept node).2.2

/-- A recorded store appends a memory node; the word it wrote gets the edge to
that node. -/
theorem deloreanPgExecMem_appended
    (recorded : deloreanPgExecMem oracle mem key inst addr = some next)
    (current : oracle.lastExec = some last) (allocated : last < oracle.fresh) :
    ∃ instr, Appended oracle last
        (.mem
          { id := some (oracle.mem mem).id
            addr := addr
            value := (oracle.table.get key).value
            lastWrite := (oracle.table.get key).lastWrite
            instr := instr }) next ∧
      next.cpu = oracle.cpu ∧
      next.table = oracle.table.put key
        { oracle.table.get key with lastWrite := some oracle.fresh } := by
  cases requester : inst with
  | none => simp [deloreanPgExecMem, current, requester] at recorded
  | some inst =>
    cases added : addMemNode oracle inst oracle.fresh with
    | none =>
      simp [deloreanPgExecMem, current, requester, added] at recorded
    | some middle =>
      obtain ⟨nodes, rfl, kept⟩ := addMemNode_kept added
      simp only [deloreanPgExecMem, current, requester, added,
        bind_eq_bind, bind_some, pure_def,
        some.injEq] at recorded
      subst next
      have heap : ∀ content, Appended { oracle with nodes := nodes } last
          content ({ oracle with nodes := nodes }.append last content) :=
        append_appended allocated
      exact ⟨_, ((heap _).of_kept kept).congr rfl rfl rfl, rfl, rfl⟩

theorem recordEvent_appended (recorded : recordEvent oracle event = some next)
    (current : oracle.lastExec = some last) (allocated : last < oracle.fresh) :
    ∃ content, Appended oracle last content next := by
  cases event with
  | inst id event =>
    simp only [recordEvent, cpuGoInst, execAndRecord, bind_eq_bind, bind_eq_some_iff] at recorded
    obtain ⟨regs, _, cpu, _, recorded⟩ := recorded
    have heap := deloreanPgExecCpu_appended recorded current allocated
    exact ⟨_, heap.fresh, heap.lastExec, heap.added, heap.linked, heap.core, heap.back, heap.forth⟩
  | store store =>
    obtain ⟨_, heap, _⟩ := deloreanPgExecMem_appended recorded current allocated
    exact ⟨_, heap.fresh, heap.lastExec, heap.added, heap.linked, heap.core, heap.back, heap.forth⟩
  | dev id =>
    simp only [recordEvent, deloreanPgExecDev, current, bind_eq_bind,
      bind_some, pure_def, some.injEq] at recorded
    subst next
    exact ⟨_, append_appended allocated _⟩

/-- The node at a position of the history: position `0` is the node before the
first recorded event. -/
def nodeAt (base first : Nat) : Nat → Nat
  | 0 => base
  | pos + 1 => first + pos

/-- The heap holds `count` recorded events behind `base`, linked both ways. -/
structure Chain (base first count : Nat) (oracle : Oracle) : Prop where
  below : base < first
  fresh : oracle.fresh = first + count
  next : ∀ pos < count,
    (oracle.nodes (nodeAt base first pos)).next =
      some (nodeAt base first (pos + 1))
  back : ∀ pos < count,
    (oracle.nodes (nodeAt base first (pos + 1))).lastExec =
      some (nodeAt base first pos)
  tip : (oracle.nodes (nodeAt base first count)).next = none

theorem Chain.allocated (chain : Chain base first count oracle) (inside : pos ≤ count) :
    nodeAt base first pos < oracle.fresh := by
  have below := chain.below
  rw [chain.fresh]
  cases pos with
  | zero => exact Nat.lt_of_lt_of_le below (Nat.le_add_right _ _)
  | succ pos => simp only [nodeAt]; omega

theorem nodeAt_ne (below : base < first) (differ : left < right) :
    nodeAt base first left ≠ nodeAt base first right := by
  cases left <;> cases right <;> simp only [nodeAt] <;> omega

theorem Chain.append {oracle next : Oracle} (chain : Chain base first count oracle)
    (appended : Appended oracle (nodeAt base first count) content next) :
    Chain base first (count + 1) next ∧ next.lastExec = some (nodeAt base first (count + 1)) := by
  have node : oracle.fresh = nodeAt base first (count + 1) := chain.fresh
  refine ⟨⟨chain.below, ?_, ?_, ?_, ?_⟩, ?_⟩
  · rw [appended.fresh, chain.fresh, Nat.add_assoc]
  · intro pos inside
    rcases Nat.lt_or_eq_of_le (Nat.le_of_lt_succ inside) with before | same
    · rw [appended.forth _ (chain.allocated (Nat.le_of_lt before)) (nodeAt_ne chain.below before)]
      exact chain.next pos before
    · rw [same, appended.linked, node]
  · intro pos inside
    rcases Nat.lt_or_eq_of_le (Nat.le_of_lt_succ inside) with before | same
    · rw [appended.back _ (chain.allocated before)]
      exact chain.back pos before
    · rw [same, ← node, appended.added]
  · rw [← node, appended.added]
  · rw [appended.lastExec, node]

/-- Events recorded one after the other, with the state between them. -/
structure History (start : Oracle) where
  events : List Event
  state : Nat → Oracle
  begins : state 0 = start
  step : ∀ {pos : Nat} {event : Event},
    events[pos]? = some event →
    recordEvent (state pos) event = some (state (pos + 1))

namespace History

/-- The history without events. -/
def nil {start : Oracle} : History start where
  events := []
  state := fun _ => start
  begins := rfl
  step := by simp

/-- One event recorded before a history. -/
def cons {start next : Oracle} (event : Event)
    (recorded : recordEvent start event = some next) (rest : History next) :
    History start where
  events := event :: rest.events
  state
    | 0 => start
    | pos + 1 => rest.state pos
  begins := rfl
  step := by
    intro pos found_event found
    cases pos with
    | zero =>
      rw [List.getElem?_cons_zero, some.injEq] at found
      subst found
      exact recorded.trans (congrArg some rest.begins.symm)
    | succ pos => exact rest.step found

variable {start : Oracle} (history : History start)

def length : Nat := history.events.length

def tip : Oracle := history.state history.length

/-- What holds at the start and is kept by every recorded event holds after
every number of events. -/
theorem invariant {motive : Nat → Oracle → Prop} (initial : motive 0 start)
    (preserved : ∀ {pos : Nat} {event : Event},
      history.events[pos]? = some event →
      motive pos (history.state pos) →
      motive (pos + 1) (history.state (pos + 1)))
    (inside : pos ≤ history.length) :
    motive pos (history.state pos) := by
  induction pos with
  | zero => simpa [history.begins] using initial
  | succ pos ih =>
    have before : pos < history.events.length := inside
    exact preserved (List.getElem?_eq_getElem before) (ih (Nat.le_of_lt inside))

variable {history} {base first : Nat}

section

variable (empty : Chain base first 0 start) (current : start.lastExec = some base)

include empty current

theorem chain (inside : pos ≤ history.length) :
    Chain base first pos (history.state pos) ∧
      (history.state pos).lastExec = some (nodeAt base first pos) := by
  refine history.invariant
    (motive := fun pos oracle => Chain base first pos oracle ∧
      oracle.lastExec = some (nodeAt base first pos))
    ⟨empty, current⟩ ?_ inside
  rintro pos event found ⟨chain, current⟩
  obtain ⟨content, appended⟩ := recordEvent_appended (history.step found)
    current (chain.allocated (Nat.le_refl _))
  exact chain.append appended

/-- Later events leave the content of a node as it is, up to its stores. -/
theorem core_eq (inside : pos ≤ history.length) (old : node < (history.state pos).fresh) :
    (history.tip.nodes node).data.core = ((history.state pos).nodes node).data.core := by
  obtain ⟨gap, sum⟩ := Nat.exists_eq_add_of_le inside
  induction gap generalizing pos with
  | zero => rw [tip, sum, Nat.add_zero]
  | succ gap ih =>
    have before : pos < history.events.length := by
      change pos < history.length
      omega
    obtain ⟨chain, here⟩ := history.chain empty current inside
    obtain ⟨content, appended⟩ :=
      recordEvent_appended (history.step (List.getElem?_eq_getElem before))
        here (chain.allocated (Nat.le_refl _))
    rw [← appended.core node old]
    apply ih before
    · rw [appended.fresh]
      exact Nat.lt_succ_of_lt old
    · omega

theorem tip_core (inside : pos < history.length)
    (appended : Appended (history.state pos) (nodeAt base first pos)
      content (history.state (pos + 1))) :
    (history.tip.nodes (nodeAt base first (pos + 1))).data.core =
      content.core := by
  obtain ⟨shorter, _⟩ := history.chain empty current (Nat.le_of_lt inside)
  obtain ⟨longer, _⟩ := history.chain empty current inside
  have node : (history.state pos).fresh = nodeAt base first (pos + 1) := shorter.fresh
  rw [history.core_eq empty current inside
    (longer.allocated (Nat.le_refl _)), ← node, appended.added]

end

end History

theorem boot_append (table : HashTable) (comps : List Comp) (comp : Comp) :
    boot table (comps ++ [comp]) = deloreanPgComp (boot table comps) comp := by
  simp [boot]

theorem deloreanPgComp_cpu (oracle : Oracle) (id : DevId) :
    (deloreanPgComp oracle (.cpu id)).cpu =
      Function.update oracle.cpu id
        { id := id
          cell := fun cell =>
            { data := (cpuCreate id).data cell
              lastWrite := some oracle.fresh }
          lastExec := some oracle.fresh
          nextExec := none } := by
  simp only [deloreanPgComp]
  split <;> rfl

theorem deloreanPgComp_fresh (oracle : Oracle) (comp : Comp) :
    (deloreanPgComp oracle comp).fresh = oracle.fresh + 1 ∧
      (deloreanPgComp oracle comp).lastExec = some oracle.fresh := by
  cases comp <;> exact ⟨rfl, rfl⟩

theorem deloreanPgComp_core (oracle : Oracle) (comp : Comp) :
    ∀ node < oracle.fresh,
      ((deloreanPgComp oracle comp).nodes node).data.core = (oracle.nodes node).data.core := by
  intro node old
  have other : node ≠ oracle.fresh := Nat.ne_of_lt old
  cases comp with
  | mem id => simp [deloreanPgComp, Oracle.setNode, other]
  | cpu id =>
    cases current : oracle.lastExec with
    | none =>
      simp [deloreanPgComp, Oracle.setNode, Oracle.setCpu, current, other]
    | some last =>
      by_cases same : node = last
      · subst last
        simp [deloreanPgComp, Oracle.setNode, Oracle.setCpu, Oracle.linkNext, current, other]
      · simp [deloreanPgComp, Oracle.setNode, Oracle.setCpu, Oracle.linkNext, current, other, same]

theorem deloreanPgComp_content_cpu (oracle : Oracle) (id : DevId) :
    ((deloreanPgComp oracle (.cpu id)).nodes oracle.fresh).data =
      .inst
        { id := none
          nReg := armRegs
          reg := { gen := 0, regs := resetRegs oracle.fresh }
          mem := [] } := by
  cases current : oracle.lastExec with
  | none => simp [deloreanPgComp, Oracle.setNode, Oracle.setCpu, current]
  | some last =>
    by_cases same : oracle.fresh = last
    · simp [deloreanPgComp, Oracle.setNode, Oracle.setCpu, Oracle.linkNext, current, same]
    · simp [deloreanPgComp, Oracle.setNode, Oracle.setCpu, Oracle.linkNext, current, same]

theorem deloreanPgComp_content_mem (oracle : Oracle) (id : DevId) :
    ((deloreanPgComp oracle (.mem id)).nodes oracle.fresh).data =
      .mem
        { id := none, addr := 0, value := 0
          lastWrite := none, instr := none } := by
  simp [deloreanPgComp, Oracle.setNode]

theorem boot_allocated (table : HashTable) (comps : List Comp) :
    ∀ last, (boot table comps).lastExec = some last → last < (boot table comps).fresh := by
  intro last current
  rcases List.eq_nil_or_concat comps with rfl | ⟨comps, comp, rfl⟩
  · cases current
  · obtain ⟨fresh, lastExec⟩ := deloreanPgComp_fresh (boot table comps) comp
    rw [List.concat_eq_append, boot_append] at current ⊢
    rw [lastExec, some.injEq] at current
    rw [fresh, ← current]
    exact Nat.lt_succ_self _

/-- Nothing is recorded before a component is announced. -/
theorem recordEvent_current (recorded : recordEvent oracle event = some next) :
    oracle.lastExec.isSome := by
  cases current : oracle.lastExec with
  | some last => rfl
  | none =>
    cases event with
    | inst id event =>
      simp only [recordEvent, cpuGoInst, execAndRecord, bind_eq_bind, bind_eq_some_iff] at recorded
      obtain ⟨regs, _, cpu, _, recorded⟩ := recorded
      have some_node := (steady_of_deloreanPgExecCpu recorded).1
      rw [Oracle.setCpu, current] at some_node
      cases some_node
    | store store =>
      simp [recordEvent, memRetAck, deloreanPgExecMem, current] at recorded
    | dev id => simp [recordEvent, deloreanPgExecDev, current] at recorded

theorem History.length_of_unannounced (history : History (boot table [])) : history.length = 0 := by
  by_contra some_event
  have recorded := history.step (List.getElem?_eq_getElem (Nat.pos_of_ne_zero some_event))
  rw [history.begins] at recorded
  cases recordEvent_current recorded

theorem boot_chain (table : HashTable) (announced : comps ≠ []) :
    ∃ base first, Chain base first 0 (boot table comps) ∧
      (boot table comps).lastExec = some base := by
  obtain ⟨earlier, comp, rfl⟩ := (List.eq_nil_or_concat comps).resolve_left announced
  rw [List.concat_eq_append, boot_append]
  have allocated := boot_allocated table earlier
  generalize boot table earlier = oracle at allocated
  obtain ⟨fresh, lastExec⟩ := deloreanPgComp_fresh oracle comp
  refine ⟨oracle.fresh, oracle.fresh + 1,
    ⟨Nat.lt_succ_self _, fresh, by simp, by simp, ?_⟩, lastExec⟩
  cases comp with
  | cpu id =>
    cases current : oracle.lastExec with
    | none =>
      simp [deloreanPgComp, Oracle.setNode, Oracle.setCpu, nodeAt, current]
    | some last =>
      have other := Nat.ne_of_gt (allocated last current)
      simp [deloreanPgComp, Oracle.setNode, Oracle.setCpu, Oracle.linkNext, nodeAt, current, other]
  | mem id => simp [deloreanPgComp, Oracle.setNode, nodeAt]

/-- The processors that the information events announce. -/
def Announced (comps : List Comp) (id : DevId) : Prop := .cpu id ∈ comps

theorem boot_ids (table : HashTable) (comps : List Comp) (id : DevId) :
    ((boot table comps).cpu id).id = id := by
  induction comps using List.reverseRecOn with
  | nil => rfl
  | append_singleton comps comp ih =>
    rw [boot_append]
    cases comp with
    | cpu other =>
      rw [deloreanPgComp_cpu]
      by_cases same : id = other
      · simp [same]
      · simp [same, ih]
    | mem other => exact ih

/-- Every edge of an announced processor leads to its reset node. -/
theorem boot_anchored (table : HashTable) {id : DevId}
    (announced : Announced comps id) (cell : Cell) :
    ∃ node, ((boot table comps).cpu id).lastWrite cell = some node ∧
      node < (boot table comps).fresh := by
  induction comps using List.reverseRecOn with
  | nil => cases announced
  | append_singleton comps comp ih =>
    have fresh := (deloreanPgComp_fresh (boot table comps) comp).1
    rw [boot_append, fresh]
    by_cases here : comp = .cpu id
    · subst comp
      rw [deloreanPgComp_cpu, Function.update_self]
      exact ⟨_, rfl, Nat.lt_succ_self _⟩
    · have earlier : Announced comps id := by
        have listed := List.mem_append.mp announced
        simpa [Announced, Ne.symm here] using listed
      obtain ⟨node, found, allocated⟩ := ih earlier
      refine ⟨node, ?_, Nat.lt_succ_of_lt allocated⟩
      rw [← found]
      cases comp with
      | cpu other =>
        have differ : id ≠ other := by
          rintro rfl
          exact here rfl
        rw [deloreanPgComp_cpu, Function.update_of_ne differ]
      | mem other => rfl

end Reverse.Delorean
