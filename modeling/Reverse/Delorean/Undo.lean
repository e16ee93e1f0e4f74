import Reverse.Delorean.Walk

/-!
# Undo

Reversing an instruction looks each listed register up in the node its edge
names.  This restores the old value as long as no instruction lists a register
twice: the second entry of a pair points to the node itself, where the search
finds the first one.
-/

namespace Reverse.Delorean

open Sherlock Library Function List Option

/-- No register that replay works on is listed twice. -/
def OnceListed (writes : List RegWrite) : Prop :=
  writes.Pairwise fun left right =>
    left.id = right.id → archCell left.id = none

/-- An instruction of an announced processor can be undone when its executed
list keeps the mode, names only registers, reaches the replayed ones directly
and lists none of them twice.  Other events only have to be recorded. -/
def Clean (announced : DevId → Prop) (oracle : Oracle) : Event → Prop
  | .inst id event => announced id ∧
      ∃ regs, event.execReg = some regs ∧
        Steady (oracle.cpu id).mode regs.writes ∧
        Direct regs.writes ∧ OnceListed regs.writes
  | other => (recordEvent oracle other).isSome

/-- Every event is clean in the state it is recorded from. -/
def CleanRun (announced : DevId → Prop) : Oracle → List Event → Prop
  | _, [] => True
  | oracle, event :: events => Clean announced oracle event ∧
      ∀ next, recordEvent oracle event = some next → CleanRun announced next events

section

variable (steady : Steady mode writes) (direct : Direct writes)

include steady direct

/-- In a clean list the entry of a register carries the edge from before the
list. -/
theorem entriesOf_edge (once : OnceListed writes) {id : BitVec 8} (named : cell.regid = some id)
    (member : entry ∈ entriesOf node writes edges) (same : entry.id = id) :
    entry.lastWrite = edges cell := by
  induction writes generalizing edges with
  | nil => cases member
  | cons write writes ih =>
    obtain ⟨written, reached, _⟩ := steady write (by simp)
    obtain ⟨distinct, later⟩ := pairwise_cons.mp once
    simp only [entriesOf, reached] at member
    rcases mem_cons.mp member with rfl | tail
    · have own := target_of_regid named
      rw [← same, reached, Target.cell.injEq] at own
      rw [own]
    · rw [ih steady.tail direct.tail later tail]
      have differs : cell ≠ written := by
        rintro rfl
        have listed : entry.id ∈ writes.map RegWrite.id := by
          rw [← entriesOf_ids steady.tail]
          exact mem_map_of_mem tail
        obtain ⟨other, otherMember, otherId⟩ := mem_map.mp listed
        have own : cell.regid = some write.id :=
          archCell_eq_some_iff.mp ((direct.target_iff (by simp) named).mp reached)
        rw [named, some.injEq] at own
        have twice : write.id = other.id := by
          rw [otherId, same, own]
        have hidden := distinct other otherMember twice
        rw [← own, archCell_eq_some_iff.mpr named] at hidden
        cases hidden
      rw [update_of_ne differs]

/-- In a clean list the first entry of a register holds its last value. -/
theorem entriesOf_find (once : OnceListed writes) {id : BitVec 8}
    (named : cell.regid = some id) (listed : Names writes cell) (node : NodeId)
    (edges : Cell → Option NodeId) (value : Word) :
    ∃ entry, (entriesOf node writes edges).find? (fun entry => entry.id = id) =
        some entry ∧
      entry.value = lastListed writes cell value := by
  induction writes generalizing edges value with
  | nil => simp [Names] at listed
  | cons write writes ih =>
    obtain ⟨written, reached, _⟩ := steady write (by simp)
    obtain ⟨distinct, later⟩ := pairwise_cons.mp once
    have own : target write.id = .cell cell ↔ archCell write.id = some cell :=
      direct.target_iff (by simp) named
    rw [archCell_eq_some_iff, named, some.injEq] at own
    simp only [entriesOf, reached]
    by_cases here : id = write.id
    · refine ⟨_, List.find?_cons_of_pos (by simp [here]), ?_⟩
      have unnamed : ¬ Names writes cell := by
        rintro ⟨other, member, otherNamed⟩
        have otherId := (direct.tail.target_iff member named).mp otherNamed
        rw [archCell_eq_some_iff, named, some.injEq] at otherId
        have hidden := distinct other member (here ▸ otherId)
        rw [← here, archCell_eq_some_iff.mpr named] at hidden
        cases hidden
      have last := lastListed_of_not_names unnamed write.data
      rw [lastListed] at last
      simp [lastListed, own.mpr here, last]
    · have elsewhere : target write.id ≠ .cell cell := own.not.mpr here
      have tail := (names_cons.mp listed).resolve_left elsewhere
      obtain ⟨entry, found, last⟩ :=
        ih steady.tail direct.tail later tail (update edges written (some node)) value
      refine ⟨entry, ?_, ?_⟩
      · rw [List.find?_cons_of_neg (by simp [Ne.symm here]), found]
      · simpa [lastListed, elsewhere] using last

theorem entriesOf_archCell {id : BitVec 8} (named : cell.regid = some id)
    (listed : Names writes cell) :
    ∃ entry ∈ entriesOf node writes edges, archCell entry.id = some cell := by
  obtain ⟨write, member, reached⟩ := listed
  have own := (direct.target_iff member named).mp reached
  have entryId : write.id ∈ (entriesOf node writes edges).map RegNode.id := by
    rw [entriesOf_ids steady]
    exact mem_map_of_mem member
  obtain ⟨entry, entryMember, same⟩ := mem_map.mp entryId
  exact ⟨entry, entryMember, by rw [same, own]⟩

end

/-- Reversing a list gives a cell the value every entry for it restores. -/
theorem foldlM_reverseReg_data {entries : List RegNode}
    (restores : ∀ entry ∈ entries, archCell entry.id = some cell →
      ∃ edge old, entry.lastWrite = some edge ∧
        entryAt? nodes edge entry.id = some old ∧ old.value = value)
    (reversed : entries.foldlM (reverseReg nodes) cpu = some later)
    (reached : cpu.data cell = value ∨ ∃ entry ∈ entries, archCell entry.id = some cell) :
    later.data cell = value := by
  induction entries generalizing cpu with
  | nil =>
    cases reversed
    simpa using reached
  | cons entry entries ih =>
    rw [foldlM_cons, bind_eq_bind, bind_eq_some_iff] at reversed
    obtain ⟨middle, step, reversed⟩ := reversed
    refine ih (fun other member =>
      restores other (by simp [member])) reversed ?_
    by_cases here : archCell entry.id = some cell
    · left
      obtain ⟨edge, old, lastWrite, found, oldValue⟩ := restores entry (by simp) here
      simp only [reverseReg, here, lastWrite, bind_eq_bind,
        bind_some, Option.pure_def, some.injEq] at step
      subst middle
      simp [Cpu.data, getRegLastWrite, found, oldValue]
    · have elsewhere : middle.data cell = cpu.data cell := by
        unfold reverseReg at step
        split at step
        · next other found =>
            have differs : cell ≠ other := by
              rintro rfl
              exact here found
            rw [bind_eq_bind, bind_eq_some_iff] at step
            obtain ⟨edge, _, step⟩ := step
            cases step
            simp [Cpu.data, differs]
        · cases step
          rfl
      rw [elsewhere]
      rcases reached with already | ⟨other, member, named⟩
      · exact Or.inl already
      · rcases mem_cons.mp member with rfl | tail
        · exact (here named).elim
        · exact Or.inr ⟨other, tail, named⟩

/-- The node that an edge of a replayed register names holds the value of the
register. -/
def Faithful (oracle : Oracle) (id : DevId) : Prop :=
  ∀ (cell : Cell) (regid : BitVec 8), cell.regid = some regid →
    ∃ node entry, (oracle.cpu id).lastWrite cell = some node ∧
      node < oracle.fresh ∧
      entryAt? oracle.nodes node regid = some entry ∧
      entry.value = (oracle.cpu id).data cell

theorem entryAt?_congr (core : (left node).data.core = (right node).data.core)
    (id : BitVec 8) : entryAt? left node id = entryAt? right node id := by
  unfold entryAt?
  cases found : (left node).data with
  | inst data =>
    rw [found] at core
    obtain ⟨mem, content⟩ := NodeData.core_eq_inst core.symm
    rw [content]
    rfl
  | mem data =>
    rw [found] at core
    rw [NodeData.core_eq_mem core.symm]
  | dev id =>
    rw [found] at core
    rw [NodeData.core_eq_dev core.symm]

theorem Faithful.of_kept {id : DevId} (faithful : Faithful oracle id)
    (cpu : later.cpu id = oracle.cpu id) (fresh : oracle.fresh ≤ later.fresh)
    (core : ∀ node < oracle.fresh, (later.nodes node).data.core = (oracle.nodes node).data.core) :
    Faithful later id := by
  intro cell regid named
  obtain ⟨node, entry, edge, old, found, value⟩ := faithful cell regid named
  refine ⟨node, entry, ?_, Nat.lt_of_lt_of_le old fresh, ?_, ?_⟩
  · rw [cpu, edge]
  · rw [entryAt?_congr (core node old), found]
  · rw [cpu, value]

theorem reset_faithful (oracle : Oracle) (id : DevId) :
    Faithful (deloreanPgComp oracle (.cpu id)) id := by
  intro cell regid named
  rw [deloreanPgComp_cpu, update_self]
  refine ⟨oracle.fresh,
    { id := regid, value := (cpuCreate id).data cell
      lastWrite := some oracle.fresh }, rfl, ?_, ?_, rfl⟩
  · rw [(deloreanPgComp_fresh oracle (.cpu id)).1]
    exact Nat.lt_succ_self _
  · simp only [entryAt?, deloreanPgComp_content_cpu]
    cases cell with
    | reg index =>
      cases named
      fin_cases index <;> rfl
    | cpsr =>
      cases named
      rfl
    | spsr =>
      cases named
      rfl
    | _ => cases named

theorem boot_faithful (table : HashTable) {id : DevId}
    (announced : Announced comps id) : Faithful (boot table comps) id := by
  induction comps using List.reverseRecOn with
  | nil => cases announced
  | append_singleton comps comp ih =>
    rw [boot_append]
    have fresh : (boot table comps).fresh ≤ (deloreanPgComp (boot table comps) comp).fresh := by
      rw [(deloreanPgComp_fresh _ comp).1]
      exact Nat.le_succ _
    by_cases here : comp = .cpu id
    · subst comp
      exact reset_faithful _ _
    · have earlier : Announced comps id := by
        have listed := mem_append.mp announced
        simpa [Announced, Ne.symm here] using listed
      refine (ih earlier).of_kept ?_ fresh (deloreanPgComp_core _ comp)
      cases comp with
      | cpu other =>
        have differ : id ≠ other := by
          rintro rfl
          exact here rfl
        rw [deloreanPgComp_cpu, update_of_ne differ]
      | mem other => rfl

theorem RecordedInst.faithful {id : DevId} (step : RecordedInst oracle last later id writes)
    (steady : Steady mode writes) (direct : Direct writes)
    (once : OnceListed writes) (faithful : Faithful oracle id) :
    Faithful later id := by
  intro cell regid named
  have data := step.data cell
  by_cases listed : Names writes cell
  · obtain ⟨entry, found, value⟩ := entriesOf_find steady direct once named
      listed oracle.fresh (oracle.cpu id).lastWrite ((oracle.cpu id).data cell)
    refine ⟨oracle.fresh, entry, ?_, ?_, ?_, ?_⟩
    · rw [step.edges, edgesAfter, if_pos listed]
    · rw [step.node.fresh]
      exact Nat.lt_succ_self _
    · simp only [entryAt?, step.node.added, InstData.entry?, recordedData_entries steady, found]
    · rw [value, data]
  · obtain ⟨node, entry, edge, old, found, value⟩ := faithful cell regid named
    refine ⟨node, entry, ?_, ?_, ?_, ?_⟩
    · rw [step.edges, edgesAfter, if_neg listed, edge]
    · rw [step.node.fresh]
      exact Nat.lt_succ_of_lt old
    · rw [entryAt?_congr (step.node.core node old), found]
    · rw [value, data, lastListed_of_not_names listed]

theorem Clean.plain (clean : Clean announced oracle event) : Plain announced oracle event := by
  cases event with
  | inst id event =>
    obtain ⟨known, regs, listed, steady, direct, _⟩ := clean
    exact ⟨known, regs, listed, steady, direct⟩
  | store store => trivial
  | dev id => trivial

theorem Clean.recorded (clean : Clean announced oracle event)
    (current : oracle.lastExec = some last) (allocated : last < oracle.fresh) :
    ∃ next, recordEvent oracle event = some next := by
  cases event with
  | inst id event =>
    obtain ⟨_, regs, listed, steady, _⟩ := clean
    obtain ⟨next, recorded, _⟩ := cpuGoInst_steady current allocated listed steady
    exact ⟨next, recorded⟩
  | store store => exact isSome_iff_exists.mp clean
  | dev id => exact isSome_iff_exists.mp clean

theorem CleanRun.history (run : CleanRun announced start events)
    (current : start.lastExec = some last) (allocated : last < start.fresh) :
    ∃ history : History start, history.events = events ∧
      ∀ {pos : Nat} {event : Event}, events[pos]? = some event →
        Clean announced (history.state pos) event := by
  induction events generalizing start last with
  | nil => exact ⟨.nil, rfl, by simp⟩
  | cons event events ih =>
    obtain ⟨clean, later⟩ := run
    obtain ⟨next, recorded⟩ := clean.recorded current allocated
    obtain ⟨_, appended⟩ := recordEvent_appended recorded current allocated
    obtain ⟨rest, sameEvents, restClean⟩ :=
      ih (later next recorded) appended.lastExec
        (by rw [appended.fresh]; exact Nat.lt_succ_self _)
    refine ⟨.cons event recorded rest, by simp [History.cons, sameEvents], ?_⟩
    intro pos found_event found
    cases pos with
    | zero =>
      rw [List.getElem?_cons_zero, some.injEq] at found
      subst found
      exact clean
    | succ pos => exact restClean found

namespace PlainHistory

variable {announced : DevId → Prop} {base first : Nat} {start : Oracle}
  (history : PlainHistory announced base first start)

/-- No instruction of the history lists a replayed register twice. -/
def Once : Prop :=
  ∀ {pos : Nat} {id : DevId} {inst : InstEvent} {regs : ExecReg},
    history.events[pos]? = some (.inst id inst) →
    inst.execReg = some regs → OnceListed regs.writes

variable {history}

theorem faithful_at (once : history.Once) (initial : ∀ id, announced id → Faithful start id)
    (inside : pos ≤ history.length) :
    ∀ id, announced id → Faithful (history.state pos) id := by
  refine history.invariant
    (motive := fun _ oracle => ∀ id, announced id → Faithful oracle id)
    initial ?_ inside
  intro pos event found faithful id known
  rcases history.step_cases found with
    ⟨written, inst, regs, same, listed, _, steady, direct, step⟩ | ⟨_, step⟩
  · subst event
    by_cases here : id = written
    · subst id
      exact step.faithful steady direct (once found listed) (faithful written known)
    · refine (faithful id known).of_kept (step.others id here) ?_ step.node.core
      rw [step.node.fresh]
      exact Nat.le_succ _
  · obtain ⟨content, _, appended⟩ := step.node
    refine (faithful id known).of_kept (by rw [step.cpu]) ?_ appended.core
    rw [appended.fresh]
    exact Nat.le_succ _

/-- Undo is exact on the values of a clean history. -/
theorem timeline_exact (once : history.Once) (initial : ∀ id, announced id → Faithful start id) :
    (history.timeline.mapContents Reg.data).Exact := by
  rintro pos oracle next inside stands reversed ⟨id, cell⟩ ⟨inst, regs, found, listed, named⟩
  have before : pos ≤ history.length := Nat.le_of_lt inside
  obtain ⟨regid, ownId⟩ := isSome_iff_exists.mp cell.property
  rcases history.step_cases found with
    ⟨written, inst', regs', same, listed', known, steady, direct, step⟩ |
    ⟨other, _⟩
  · cases same
    rw [listed, some.injEq] at listed'
    subst regs'
    obtain ⟨edgeNode, entry, edge, old, entryFound, value⟩ :=
      faithful_at once initial before id known cell regid ownId
    obtain ⟨cpu, folded, result, _⟩ := history.reverse_inst found stands known steady step
    have sameNext := (show reverseStep oracle = some next from reversed)
    rw [result, some.injEq] at sameNext
    subst next
    have restored : cpu.data cell = ((history.state pos).cpu id).data cell := by
      refine foldlM_reverseReg_data ?_ folded (Or.inr ?_)
      · intro candidate member candidateNamed
        have sameId : candidate.id = regid := by
          have own := archCell_eq_some_iff.mp candidateNamed
          rw [ownId, some.injEq] at own
          exact own.symm
        refine ⟨edgeNode, entry, ?_, ?_, value⟩
        · rw [entriesOf_edge steady direct (once found listed) ownId member sameId, ← edge]
        · rw [sameId, ← entryFound]
          apply entryAt?_congr
          rw [stands.nodes]
          exact History.core_eq history.ready.chain history.ready.current before old
      · exact entriesOf_archCell steady direct ownId named
    simpa [PlainHistory.timeline, Timeline.mapContents, Oracle.setCpu, Cpu.data] using restored
  · exact (other id inst rfl).elim

/-- The registers are those that were recorded wherever a walk comes. -/
theorem walk_registers (once : history.Once) (initial : ∀ id, announced id → Faithful start id)
    (followed : Move.follow history.length history.length moves = some finish) :
    ∃ last, replay moves history.tip = some last ∧
      ∀ (id : DevId) (cell : Cell), cell.regid.isSome →
        (last.cpu id).data cell = ((history.state finish).cpu id).data cell := by
  obtain ⟨last, walked, -, contents⟩ := Timeline.walk_exact (timeline_exact once initial)
    (Nat.le_refl _) followed history.tip_stands fun _ => rfl
  rw [walk_eq_replay rfl rfl] at walked
  exact ⟨last, walked, fun id cell replayed => contents (id, ⟨cell, replayed⟩)⟩

end PlainHistory

theorem CleanRun.plainHistory (announced : comps ≠ [])
    (run : CleanRun (Announced comps) (boot table comps) events) :
    ∃ base first, ∃ history : PlainHistory (Announced comps) base first (boot table comps),
      history.events = events ∧ history.Once := by
  obtain ⟨base, first, ready⟩ := boot_ready table announced
  obtain ⟨history, sameEvents, clean⟩ := run.history ready.current
    (ready.chain.allocated (Nat.le_refl 0))
  rw [← sameEvents] at clean
  refine ⟨base, first, { history with
    ready := ready
    plain := fun found => (clean found).plain }, sameEvents, ?_⟩
  intro pos id inst regs found listed
  obtain ⟨_, regs', listed', _, _, once⟩ := clean found
  cases listed.symm.trans listed'
  exact once

/-- A run of clean events is recorded, and reversing its last `count` events
gives every replayed register of every processor the value it had before
them. -/
theorem undo_clean_run (table : HashTable) (comps : List Comp) (events : List Event)
    (run : CleanRun (Announced comps) (boot table comps) events) :
    ∃ history : History (boot table comps), history.events = events ∧
      ∀ count ≤ history.length, ∃ last,
        replay (List.replicate count .back) history.tip = some last ∧
        ∀ (id : DevId) (cell : Cell), cell.regid.isSome →
          (last.cpu id).data cell =
            ((history.state (history.length - count)).cpu id).data cell := by
  by_cases announced : comps = []
  · subst announced
    cases events with
    | nil =>
      refine ⟨.nil, rfl, ?_⟩
      intro count bounded
      obtain rfl : count = 0 := Nat.le_zero.mp bounded
      exact ⟨_, rfl, fun _ _ _ => rfl⟩
    | cons event events =>
      obtain ⟨clean, _⟩ := run
      cases event with
      | inst id event => cases clean.1
      | store store =>
        obtain ⟨_, recorded⟩ := isSome_iff_exists.mp clean
        cases recordEvent_current recorded
      | dev id =>
        obtain ⟨_, recorded⟩ := isSome_iff_exists.mp clean
        cases recordEvent_current recorded
  · obtain ⟨base, first, history, sameEvents, once⟩ := run.plainHistory announced
    refine ⟨history.toHistory, sameEvents, fun count bounded => ?_⟩
    exact history.walk_registers once (fun _ known => boot_faithful table known)
      (Move.follow_back _ bounded)

/-- Different registers other than `CPSR` make a clean list. -/
theorem clean_of_distinct
    (arch : ∀ write ∈ writes, (archCell write.id).isSome ∧ write.id ≠ regidCpsr)
    (distinct : writes.Pairwise fun left right => left.id ≠ right.id) :
    Steady mode writes ∧ Direct writes ∧ OnceListed writes := by
  have lists : Steady mode writes ∧ Direct writes := by
    apply steady_of_arch
    intro write member
    obtain ⟨found, other⟩ := arch write member
    exact ⟨found, fun status => absurd status other⟩
  refine ⟨lists.1, lists.2, ?_⟩
  exact distinct.imp fun differ same => absurd same differ

/-- However the debugger goes back and forth over a clean run, the registers
are those that were recorded at the position where it stands. -/
theorem walk_clean_run (table : HashTable) {comps : List Comp} (announced : comps ≠ [])
    {events : List Event} (run : CleanRun (Announced comps) (boot table comps) events) :
    ∃ history : History (boot table comps), history.events = events ∧
      ∀ moves finish, Move.follow history.length history.length moves = some finish →
        ∃ last, replay moves history.tip = some last ∧
          ∀ (id : DevId) (cell : Cell), cell.regid.isSome →
            (last.cpu id).data cell = ((history.state finish).cpu id).data cell := by
  obtain ⟨base, first, history, sameEvents, once⟩ := run.plainHistory announced
  refine ⟨history.toHistory, sameEvents, fun moves finish followed => ?_⟩
  exact history.walk_registers once (fun _ known => boot_faithful table known) followed

/-- Back over an instruction, forth and back again. -/
theorem walk_clean_run_back :
    ∃ history : History (boot ⟨fun _ _ => none⟩ [.cpu 0]), ∃ last,
      replay [.back, .forth, .back] history.tip = some last ∧
      (last.cpu 0).data (.reg 0) = ((history.state 0).cpu 0).data (.reg 0) := by
  have run : CleanRun (Announced [.cpu 0]) (boot ⟨fun _ _ => none⟩ [.cpu 0])
      [.inst 0 (writingInst 0 [⟨0, 1⟩] (by decide))] :=
    ⟨⟨mem_singleton_self _, _, rfl, clean_of_distinct (by decide) (by decide)⟩,
      fun _ _ => trivial⟩
  obtain ⟨history, events, walks⟩ := walk_clean_run _ (cons_ne_nil _ _) run
  have length : history.length = 1 := congrArg List.length events
  obtain ⟨last, walked, registers⟩ := walks [.back, .forth, .back] 0 (by rw [length]; rfl)
  exact ⟨history, last, walked, registers 0 (.reg 0) rfl⟩

/-- Two instructions that overwrite `r0` one after the other. -/
theorem undo_clean_run_overwrite :
    ∃ history : History (boot ⟨fun _ _ => none⟩ [.cpu 0]),
      history.events =
        [.inst 0 (writingInst 0 [⟨0, 1⟩] (by decide)),
          .inst 0 (writingInst 4 [⟨0, 2⟩, ⟨1, 3⟩] (by decide))] ∧
      ∀ count ≤ history.length, ∃ last,
        replay (List.replicate count .back) history.tip = some last ∧
        ∀ (id : DevId) (cell : Cell), cell.regid.isSome →
          (last.cpu id).data cell =
            ((history.state (history.length - count)).cpu id).data cell := by
  apply undo_clean_run
  refine ⟨⟨by simp [Announced], _, rfl, ?_⟩, fun next _ =>
    ⟨⟨by simp [Announced], _, rfl, ?_⟩, fun _ _ => trivial⟩⟩
  · exact clean_of_distinct (by decide) (by decide)
  · exact clean_of_distinct (by decide) (by decide)

/-- An instruction that lists `r0` twice: undoing it leaves the first of the
two values. -/
theorem undo_repeated_register :
    ∃ history : History (boot ⟨fun _ _ => none⟩ [.cpu 0]),
      history.events = [.inst 0 (writingInst 0 [⟨0, 1⟩, ⟨0, 2⟩] (by decide))] ∧
      ∃ last, replay [.back] history.tip = some last ∧
        (last.cpu 0).data (.reg 0) = 1 ∧
        ((history.state 0).cpu 0).data (.reg 0) = 0 := by
  exact ⟨.cons _ rfl .nil, rfl, _, rfl, rfl, rfl⟩

end Reverse.Delorean
