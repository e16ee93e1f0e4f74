import Mathlib.Data.List.Chain
import Reverse.Delorean.Gdbstub
import Reverse.Delorean.PlainHistory

/-!
# Debugging a recorded run

The append point of the recording is the replay cursor.  Whatever the debugger
sends, the cursor moves along the chain of recorded nodes, and `gdb_verify`
returns only when it stands at the end of the chain again.
-/

namespace Reverse.Delorean

open Sherlock Function Option
open List hiding count

/-- An edge to an allocated node. -/
def Edge (bound : Nat) (edge : Option NodeId) : Prop :=
  ∃ node, edge = some node ∧ node < bound

theorem Edge.mono (below : Edge bound edge) (le : bound ≤ larger) : Edge larger edge := by
  obtain ⟨node, found, inside⟩ := below
  exact ⟨node, found, Nat.lt_of_lt_of_le inside le⟩

theorem Edge.isSome (below : Edge bound edge) : edge.isSome := by
  obtain ⟨node, rfl, _⟩ := below
  rfl

/-- The used entries of an instruction node carry allocated edges. -/
def NodeData.EdgesBelow (bound : Nat) (content : NodeData) : Prop :=
  ∀ data, content = .inst data → ∀ entry ∈ data.reg.regs.take data.nReg, Edge bound entry.lastWrite

theorem NodeData.EdgesBelow.of_core {content other : NodeData}
    (below : content.EdgesBelow bound) (core : other.core = content.core) (le : bound ≤ larger) :
    other.EdgesBelow larger := by
  rintro data rfl entry member
  obtain ⟨mem, same⟩ := NodeData.core_eq_inst core.symm
  exact (below _ same entry member).mono le

/-- A node made by an event: replay knows which component it belongs to. -/
def NodeData.Named (content : NodeData) : Prop :=
  (∃ data id, content = .inst data ∧ data.id = some id) ∨ content.Passive

theorem NodeData.Named.of_core {content other : NodeData}
    (named : content.Named) (core : other.core = content.core) :
    other.Named := by
  rcases named with ⟨data, id, rfl, owner⟩ | passive
  · obtain ⟨mem, same⟩ := NodeData.core_eq_inst core
    exact Or.inl ⟨_, id, same, owner⟩
  · exact Or.inr (passive.of_core core)

/-- A node made by an information event, whose identifier is never set. -/
def NodeData.Unnamed (content : NodeData) : Prop :=
  (∃ data : InstData, content = .inst data ∧ data.id = none) ∨
    ∃ data : MemData, content = .mem data ∧ data.id = none

theorem NodeData.Unnamed.of_core {content other : NodeData}
    (unnamed : content.Unnamed) (core : other.core = content.core) :
    other.Unnamed := by
  rcases unnamed with ⟨data, rfl, owner⟩ | ⟨data, rfl, owner⟩
  · obtain ⟨mem, same⟩ := NodeData.core_eq_inst core
    exact Or.inl ⟨_, same, owner⟩
  · exact Or.inr ⟨data, NodeData.core_eq_mem core, owner⟩

/-- The cursor stands after `position` of `count` recorded events, wherever the
edges of the registers lead. -/
structure Track (base first count pos : Nat) (oracle : Oracle) :
    Prop where
  chain : Chain base first count oracle
  inside : pos ≤ count
  current : oracle.lastExec = some (nodeAt base first pos)
  unnamed : (oracle.nodes base).data.Unnamed

/-- The cursor stands on nodes that can be replayed. -/
structure Cursor (announced : DevId → Prop) (base first count pos : Nat)
    (oracle : Oracle) : Prop extends Track base first count pos oracle where
  named : ∀ event < count,
    (oracle.nodes (nodeAt base first (event + 1))).data.Named
  edges : ∀ node < oracle.fresh,
    (oracle.nodes node).data.EdgesBelow oracle.fresh
  cpus : ∀ id, announced id → ∀ cell,
    Edge oracle.fresh ((oracle.cpu id).lastWrite cell)

theorem getRegLastWrite_edge (heap : ∀ node < bound, (nodes node).data.EdgesBelow bound)
    (inside : node < bound) (oldEdge : Edge bound old.lastWrite) (id : BitVec 8) :
    Edge bound (getRegLastWrite nodes node old id).lastWrite := by
  unfold getRegLastWrite
  split
  · next entry found =>
      unfold entryAt? at found
      split at found
      · next data content =>
          exact heap node inside data content entry (mem_of_find?_eq_some found)
      · cases found
  · exact oldEdge

theorem foldlM_reverseReg_edges (heap : ∀ node < bound, (nodes node).data.EdgesBelow bound)
    {entries : List RegNode} (below : ∀ entry ∈ entries, Edge bound entry.lastWrite)
    (cells : ∀ cell, Edge bound (cpu.lastWrite cell))
    (reversed : entries.foldlM (reverseReg nodes) cpu = some later) :
    ∀ cell, Edge bound (later.lastWrite cell) := by
  refine Runs.foldlM_keeps (fun cpu => ∀ cell, Edge bound (cpu.lastWrite cell)) ?_ cells reversed
  intro entry before middle member kept step
  obtain ⟨edge, found, inside⟩ := below entry member
  unfold reverseReg at step
  split at step
  · next cell _ =>
      simp only [found, bind_eq_bind, bind_some, Option.pure_def, some.injEq] at step
      subst middle
      intro other
      by_cases same : other = cell
      · subst other
        simp only [Cpu.lastWrite, Cpu.setCell_cell, update_self]
        exact getRegLastWrite_edge heap inside (kept cell) entry.id
      · simpa [Cpu.lastWrite, same] using kept other
  · cases step
    exact kept

theorem foldl_forwardReg_edges (allocated : node < bound) (entries : List RegNode)
    (cells : ∀ cell, Edge bound (cpu.lastWrite cell)) :
    ∀ cell, Edge bound ((entries.foldl (forwardReg node) cpu).lastWrite cell) := by
  induction entries generalizing cpu with
  | nil => exact cells
  | cons entry entries ih =>
    apply ih
    intro cell
    rw [Cpu.lastWrite, forwardReg_cell]
    split
    · exact ⟨node, rfl, allocated⟩
    · exact cells cell

/-- What the debugger is shown of a node that a step has replayed. -/
def NodeData.Shown : NodeData → Seen → Prop
  | .inst _, .cpu _ _ => True
  | .mem data, .mem _ addr val => addr = data.addr ∧ val = data.value
  | .dev _, .periph => True
  | _, _ => False

theorem oracleReverseExec_shown (reversed : oracleReverseExec oracle = some (later, seen)) :
    ∃ last, oracle.lastExec = some last ∧
      ¬ (oracle.nodes last).data.Unnamed ∧
      (oracle.nodes last).data.Shown seen ∧
      later.nodes = oracle.nodes ∧ later.fresh = oracle.fresh ∧
      later.lastExec = (oracle.nodes last).lastExec := by
  obtain ⟨last, current, step⟩ := bind_eq_some_iff.mp reversed
  refine ⟨last, current, ?_⟩
  cases content : (oracle.nodes last).data with
  | inst data =>
    simp only [content, bind_eq_bind, bind_eq_some_iff] at step
    obtain ⟨id, owner, cpu, _, result⟩ := step
    cases result
    refine ⟨?_, trivial, rfl, rfl, rfl⟩
    simp [NodeData.Unnamed, owner]
  | mem data =>
    simp only [content, bind_eq_bind, bind_eq_some_iff] at step
    obtain ⟨id, owner, result⟩ := step
    cases result
    refine ⟨?_, ⟨rfl, rfl⟩, rfl, rfl, rfl⟩
    simp [NodeData.Unnamed, owner]
  | dev id =>
    simp only [content] at step
    cases step
    refine ⟨?_, trivial, rfl, rfl, rfl⟩
    simp [NodeData.Unnamed]

theorem oracleForwardExec_shown (forwarded : oracleForwardExec oracle = some (later, seen)) :
    ∃ last node, oracle.lastExec = some last ∧
      (oracle.nodes last).next = some node ∧
      (oracle.nodes node).data.Shown seen ∧
      later.nodes = oracle.nodes ∧ later.fresh = oracle.fresh ∧
      later.lastExec = some node := by
  obtain ⟨last, current, rest⟩ := bind_eq_some_iff.mp forwarded
  obtain ⟨node, follows, step⟩ := bind_eq_some_iff.mp rest
  refine ⟨last, node, current, follows, ?_⟩
  cases content : (oracle.nodes node).data with
  | inst data =>
    simp only [content, bind_eq_bind, bind_eq_some_iff] at step
    obtain ⟨id, owner, result⟩ := step
    cases result
    exact ⟨trivial, rfl, rfl, rfl⟩
  | mem data =>
    simp only [content, bind_eq_bind, bind_eq_some_iff] at step
    obtain ⟨id, owner, result⟩ := step
    cases result
    exact ⟨⟨rfl, rfl⟩, rfl, rfl, rfl⟩
  | dev id =>
    simp only [content] at step
    cases step
    exact ⟨trivial, rfl, rfl, rfl⟩

theorem oracleReverseExec_iff :
    (∃ seen, oracleReverseExec oracle = some (later, seen)) ↔ reverseStep oracle = some later := by
  simp [reverseStep]

theorem oracleForwardExec_iff :
    (∃ seen, oracleForwardExec oracle = some (later, seen)) ↔ forwardStep oracle = some later := by
  simp [forwardStep]

section Cursor

variable {announced : DevId → Prop} {base first count pos : Nat} {oracle next : Oracle}

theorem Track.of_heap (track : Track base first count pos oracle)
    (nodes : later.nodes = oracle.nodes) (fresh : later.fresh = oracle.fresh) (inside : other ≤ count)
    (current : later.lastExec = some (nodeAt base first other)) :
    Track base first count other later where
  chain :=
    { below := track.chain.below
      fresh := fresh.trans track.chain.fresh
      next := nodes ▸ track.chain.next
      back := nodes ▸ track.chain.back
      tip := nodes ▸ track.chain.tip }
  inside := inside
  current := current
  unnamed := nodes ▸ track.unnamed

theorem Cursor.of_heap (cursor : Cursor announced base first count pos oracle)
    (nodes : later.nodes = oracle.nodes) (fresh : later.fresh = oracle.fresh) (inside : other ≤ count)
    (current : later.lastExec = some (nodeAt base first other))
    (cpus : ∀ id, announced id → ∀ cell, Edge oracle.fresh ((later.cpu id).lastWrite cell)) :
    Cursor announced base first count other later where
  toTrack := cursor.toTrack.of_heap nodes fresh inside current
  named := nodes ▸ cursor.named
  edges := by
    rw [nodes, fresh]
    exact cursor.edges
  cpus := by
    rw [fresh]
    exact cpus

theorem Track.getTrace_iff (track : Track base first count pos oracle) :
    oracleGetTrace oracle = true ↔ pos = count := by
  simp only [oracleGetTrace, track.current]
  constructor
  · intro ended
    rcases Nat.lt_or_eq_of_le track.inside with before | same
    · simp [track.chain.next pos before] at ended
    · exact same
  · rintro rfl
    simp [track.chain.tip]

theorem Cursor.reverse (cursor : Cursor announced base first count (pos + 1) oracle) :
    ∃ next seen, oracleReverseExec oracle = some (next, seen) ∧
      Cursor announced base first count pos next := by
  have before := cursor.chain.back pos cursor.inside
  have inside : pos ≤ count := Nat.le_of_succ_le cursor.inside
  rcases cursor.named pos cursor.inside with
    ⟨data, id, content, owner⟩ | passive
  · have below := cursor.edges _ (cursor.chain.allocated cursor.inside) data content
    obtain ⟨cpu, reversed, _⟩ := foldlM_reverseReg_frame oracle.nodes
      (fun entry member => (below entry member).isSome)
      { oracle.cpu id with
        lastExec := some (nodeAt base first (pos + 1)) }
    obtain ⟨seen, result⟩ := oracleReverseExec_iff.mpr
      (reverseStep_inst cursor.current content owner reversed)
    refine ⟨_, seen, result, cursor.of_heap rfl rfl inside before ?_⟩
    intro other known cell
    by_cases same : other = id
    · subst other
      simp only [Oracle.setCpu, update_self]
      refine foldlM_reverseReg_edges cursor.edges below ?_ reversed cell
      exact cursor.cpus id known
    · simpa [Oracle.setCpu, same] using cursor.cpus other known cell
  · obtain ⟨next, reversed, cpu, nodes, fresh, lastExec⟩ := reverseStep_other cursor.current passive
    obtain ⟨seen, result⟩ := oracleReverseExec_iff.mpr reversed
    refine ⟨next, seen, result, cursor.of_heap nodes fresh inside (lastExec.trans before) ?_⟩
    rw [cpu]
    exact cursor.cpus

theorem Cursor.reverse_base (cursor : Cursor announced base first count 0 oracle) :
    oracleReverseExec oracle = none := by
  have current : oracle.lastExec = some base := cursor.current
  rcases cursor.unnamed with ⟨data, content, owner⟩ | ⟨data, content, owner⟩
  · simp [oracleReverseExec, current, content, owner]
  · simp [oracleReverseExec, current, content, owner]

theorem Cursor.forward (cursor : Cursor announced base first count pos oracle)
    (before : pos < count) :
    ∃ next seen, oracleForwardExec oracle = some (next, seen) ∧
      Cursor announced base first count (pos + 1) next := by
  have follows := cursor.chain.next pos before
  rcases cursor.named pos before with
    ⟨data, id, content, owner⟩ | passive
  · obtain ⟨seen, result⟩ := oracleForwardExec_iff.mpr
      (forwardStep_inst cursor.current follows content owner)
    refine ⟨_, seen, result, cursor.of_heap rfl rfl before rfl ?_⟩
    intro other known cell
    by_cases same : other = id
    · subst other
      simp only [Oracle.setCpu, update_self]
      refine foldl_forwardReg_edges (cursor.chain.allocated before) _ ?_ cell
      exact cursor.cpus id known
    · simpa [Oracle.setCpu, same] using cursor.cpus other known cell
  · obtain ⟨next, forwarded, cpu, nodes, fresh, lastExec⟩ :=
      forwardStep_other cursor.current follows passive
    obtain ⟨seen, result⟩ := oracleForwardExec_iff.mpr forwarded
    refine ⟨next, seen, result, cursor.of_heap nodes fresh before lastExec ?_⟩
    rw [cpu]
    exact cursor.cpus

theorem Cursor.move (cursor : Cursor announced base first count pos oracle) (gdb : Gdb)
    (seen : Seen) :
    (gdbMove oracle gdb seen = none ∧ pos = 0 ∧ gdbExecDirection gdb = true) ∨
      ∃ next nextSeen other, gdbMove oracle gdb seen = some (next, nextSeen) ∧
        Cursor announced base first count other next ∧
        ((gdbExecDirection gdb = true ∧ pos = other + 1) ∨
          (gdbExecDirection gdb = false ∧
            (other = pos + 1 ∨ (pos = count ∧ other = count)))) := by
  cases direction : gdbExecDirection gdb with
  | true =>
    cases pos with
    | zero =>
      left
      exact ⟨by simp [gdbMove, direction, cursor.reverse_base], rfl, rfl⟩
    | succ pos =>
      right
      obtain ⟨next, nextSeen, reversed, nextCursor⟩ := cursor.reverse
      exact ⟨next, nextSeen, pos,
        by simp [gdbMove, direction, reversed], nextCursor,
        Or.inl ⟨rfl, rfl⟩⟩
  | false =>
    right
    rcases Nat.lt_or_eq_of_le cursor.inside with before | same
    · have trace : oracleGetTrace oracle = false := by
        rw [← Bool.not_eq_true, cursor.getTrace_iff]
        exact Nat.ne_of_lt before
      obtain ⟨next, nextSeen, forwarded, nextCursor⟩ := cursor.forward before
      exact ⟨next, nextSeen, pos + 1,
        by simp [gdbMove, direction, trace, forwarded], nextCursor,
        Or.inr ⟨rfl, Or.inl rfl⟩⟩
    · have trace := cursor.getTrace_iff.mpr same
      exact ⟨oracle, seen, count, by simp [gdbMove, direction, trace],
        same ▸ cursor, Or.inr ⟨rfl, Or.inr ⟨same, rfl⟩⟩⟩

end Cursor

/-- A call returns at the tip, and gets stuck only by reversing at the node
before the first event. -/
def Verdict.Sound (announced : DevId → Prop) (base first count : Nat) : Verdict → Prop
  | .returned oracle _ _ => Cursor announced base first count count oracle
  | .stuck oracle gdb =>
    oracle.lastExec = some base ∧ gdbExecDirection gdb = true
  | .exited => True
  | .outOfFuel => True

theorem gdbVerify_sound (cursor : Cursor announced base first count pos oracle) (fuel : Nat)
    (gdb : Gdb) (script : Script) (seen : Seen) :
    (gdbVerify fuel oracle gdb script seen).Sound announced base first
      count := by
  induction fuel generalizing pos oracle gdb script seen with
  | zero => trivial
  | succ fuel ih =>
    unfold gdbVerify
    rcases cursor.move gdb seen with
      ⟨moved, rfl, direction⟩ |
      ⟨next, nextSeen, other, moved, nextCursor, _⟩
    · rw [moved]
      exact ⟨cursor.current, direction⟩
    · rw [moved]
      dsimp only
      split
      · trivial
      · next gdb script _ =>
          split
          · exact ih nextCursor gdb script nextSeen
          · next stop =>
              rw [not_or, Bool.not_eq_false, nextCursor.getTrace_iff] at stop
              exact stop.2 ▸ nextCursor

/-- What the debugger can still do: reads left, and whether it is there. -/
def patience (gdb : Gdb) (script : Script) : Nat :=
  script.length + if gdb.running = .detach then 0 else 1

theorem readLoop_patience (finished : readLoop gdb script = some (later, rest)) :
    patience later rest ≤ script.length := by
  induction script generalizing gdb with
  | nil =>
    cases finished
    simp [patience]
  | cons packets script ih =>
    simp only [readLoop, bind_eq_bind, bind_eq_some_iff] at finished
    obtain ⟨handled, _, finished⟩ := finished
    split at finished
    · exact Nat.le_succ_of_le (ih finished)
    · cases finished
      simp only [patience, length_cons]
      split <;> omega

/-- A stop either changes nothing that matters or costs the debugger. -/
theorem gdbStop_patience (stopped : gdbStop gdb script seen = some (later, rest)) :
    (later.running = gdb.running ∧ rest = script) ∨ patience later rest < patience gdb script := by
  have loop : ∀ watch, gdbLoop gdb watch script = some (later, rest) →
      (later.running = gdb.running ∧ rest = script) ∨ patience later rest < patience gdb script := by
    intro watch finished
    unfold gdbLoop at finished
    dsimp only at finished
    split at finished
    · cases finished
      exact Or.inl ⟨rfl, rfl⟩
    · next attached =>
        right
        have cost := readLoop_patience finished
        simp only [patience, attached, if_false] at cost ⊢
        omega
  cases seen with
  | cpu id pc =>
    simp only [gdbStop] at stopped
    split at stopped
    · exact loop false stopped
    · cases stopped
      exact Or.inl ⟨rfl, rfl⟩
  | mem id addr val =>
    simp only [gdbStop] at stopped
    split at stopped
    · exact loop true stopped
    · cases stopped
      exact Or.inl ⟨rfl, rfl⟩
  | periph =>
    cases stopped
    exact Or.inl ⟨rfl, rfl⟩

/-- Rounds that the cursor can still move in its direction. -/
def distance (gdb : Gdb) (count pos : Nat) : Nat :=
  if gdbExecDirection gdb then pos else count - pos

theorem distance_le (inside : pos ≤ count) : distance gdb count pos ≤ count := by
  unfold distance
  split <;> omega

/-- A round that is not the last one uses up reads or distance. -/
theorem round_decreases (inside : other ≤ count)
    (stop : (later.running = gdb.running ∧ rest = script) ∨ patience later rest < patience gdb script)
    (move : (gdbExecDirection gdb = true ∧ pos = other + 1) ∨
      (gdbExecDirection gdb = false ∧ (other = pos + 1 ∨ (pos = count ∧ other = count))))
    (again : gdbExecDirection later = true ∨ other ≠ count) :
    patience later rest * (count + 1) + distance later count other <
      patience gdb script * (count + 1) + distance gdb count pos := by
  rcases stop with ⟨running, rfl⟩ | fewer
  · have direction : gdbExecDirection later = gdbExecDirection gdb := by
      simp only [gdbExecDirection, running]
    have left : patience later rest = patience gdb rest := by
      simp only [patience, running]
    rw [direction] at again
    simp only [left, distance, direction, Nat.add_lt_add_iff_left]
    rcases move with ⟨backward, step⟩ | ⟨forward, step⟩
    · rw [backward, if_pos rfl, if_pos rfl]
      omega
    · rw [forward] at again ⊢
      simp only [Bool.false_eq_true, false_or, if_false] at again ⊢
      omega
  · have rounds : (patience later rest + 1) * (count + 1) ≤ patience gdb script * (count + 1) :=
      Nat.mul_le_mul_right _ fewer
    have bounded : distance later count other ≤ count := distance_le inside
    rw [Nat.add_mul, Nat.one_mul] at rounds
    omega

theorem gdbVerify_ends (cursor : Cursor announced base first count pos oracle) (gdb : Gdb)
    (script : Script) (seen : Seen) :
    ∃ fuel, gdbVerify fuel oracle gdb script seen ≠ .outOfFuel := by
  induction measure :
      patience gdb script * (count + 1) + distance gdb count pos
      using Nat.strong_induction_on
      generalizing pos oracle gdb script seen with
  | _ size ih =>
    rcases cursor.move gdb seen with
      ⟨moved, _, _⟩ | ⟨next, nextSeen, other, moved, nextCursor, moves⟩
    · exact ⟨1, by simp [gdbVerify, moved]⟩
    · cases stopped : gdbStop gdb script nextSeen with
      | none => exact ⟨1, by simp [gdbVerify, moved, stopped]⟩
      | some result =>
        obtain ⟨nextGdb, rest⟩ := result
        by_cases again : gdbExecDirection nextGdb ∨ oracleGetTrace next = false
        · have smaller :
              patience nextGdb rest * (count + 1) + distance nextGdb count other < size := by
            rw [← measure]
            apply round_decreases nextCursor.inside (gdbStop_patience stopped) moves
            rcases again with backward | before
            · exact Or.inl backward
            · right
              rw [← Bool.not_eq_true, nextCursor.getTrace_iff] at before
              exact before
          obtain ⟨fuel, ends⟩ := ih _ smaller nextCursor nextGdb rest nextSeen rfl
          exact ⟨fuel + 1, by simpa [gdbVerify, moved, stopped, again] using ends⟩
        · exact ⟨1, by simp [gdbVerify, moved, stopped, again]⟩

section Record

variable {announced : DevId → Prop} {base first count : Nat} {oracle next : Oracle}

theorem Track.append (track : Track base first count count oracle)
    (appended : Appended oracle (nodeAt base first count) content later) :
    Track base first (count + 1) (count + 1) later := by
  obtain ⟨chain, current⟩ := track.chain.append appended
  refine ⟨chain, Nat.le_refl _, current, track.unnamed.of_core ?_⟩
  exact appended.core base (track.chain.allocated (Nat.zero_le count))

theorem Cursor.append (cursor : Cursor announced base first count count oracle)
    (appended : Appended oracle (nodeAt base first count) content later) (named : content.Named)
    (below : content.EdgesBelow later.fresh)
    (cpus : ∀ id, announced id → ∀ cell, Edge later.fresh ((later.cpu id).lastWrite cell)) :
    Cursor announced base first (count + 1) (count + 1) later := by
  have node : oracle.fresh = nodeAt base first (count + 1) := cursor.chain.fresh
  have grows : oracle.fresh ≤ later.fresh := by
    rw [appended.fresh]
    exact Nat.le_succ _
  refine ⟨cursor.toTrack.append appended, ?_, ?_, cpus⟩
  · intro event inside
    rcases Nat.lt_or_eq_of_le (Nat.le_of_lt_succ inside) with before | same
    · exact (cursor.named event before).of_core (appended.core _ (cursor.chain.allocated before))
    · rw [same, ← node, appended.added]
      exact named
  · intro other old
    rcases Nat.lt_or_eq_of_le (Nat.le_of_lt_succ (appended.fresh ▸ old)) with
      before | same
    · exact (cursor.edges other before).of_core (appended.core other before) grows
    · rw [same, appended.added]
      exact below

theorem Cursor.append_other (cursor : Cursor announced base first count count oracle)
    (step : RecordedOther oracle (nodeAt base first count) later) :
    Cursor announced base first (count + 1) (count + 1) later := by
  obtain ⟨cpu, content, passive, appended⟩ := step
  refine cursor.append appended (Or.inr passive) ?_ ?_
  · rintro data rfl
    rcases passive with ⟨_, _, impossible, _⟩ | ⟨_, impossible⟩ <;> cases impossible
  · rw [cpu, appended.fresh]
    intro id known cell
    exact (cursor.cpus id known cell).mono (Nat.le_succ _)

theorem Cursor.record (cursor : Cursor announced base first count count oracle)
    (known : ∀ id inst, event = .inst id inst → announced id)
    (recorded : recordEvent oracle event = some later) :
    Cursor announced base first (count + 1) (count + 1) later := by
  have allocated := cursor.chain.allocated (Nat.le_refl count)
  cases event with
  | inst id inst =>
    simp only [recordEvent, cpuGoInst, execAndRecord, bind_eq_bind, bind_eq_some_iff] at recorded
    obtain ⟨regs, _, cpu, executed, recorded⟩ := recorded
    have current : (oracle.setCpu id cpu).lastExec =
        some (nodeAt base first count) := cursor.current
    have appended := deloreanPgExecCpu_appended recorded current allocated
    obtain ⟨_, steady⟩ := steady_of_deloreanPgExecCpu recorded
    obtain ⟨final, result, _, _, edges⟩ := deloreanPgExecCpu_steady current steady
    rw [result, some.injEq] at recorded
    have old : ∀ cell, Edge (oracle.fresh + 1) (cpu.lastWrite cell) := by
      intro cell
      obtain ⟨source, moved⟩ := cpuExec_movesEdges executed cell
      rw [moved]
      exact (cursor.cpus id (known id inst rfl) source).mono (Nat.le_succ _)
    have own : Edge (oracle.fresh + 1) (some oracle.fresh) :=
      ⟨oracle.fresh, rfl, Nat.lt_succ_self _⟩
    have fresh : later.fresh = oracle.fresh + 1 := appended.fresh
    refine cursor.append
      ⟨appended.fresh, appended.lastExec, appended.added, appended.linked,
        appended.core, appended.back, appended.forth⟩
      (Or.inl ⟨_, _, rfl, rfl⟩) ?_ ?_
    · rw [fresh]
      rintro data same entry member
      cases same
      rw [recordedData_entries steady] at member
      refine entriesOf_edges ?_ own regs.writes entry member
      simpa [Oracle.setCpu] using old
    · rw [fresh]
      intro other otherKnown cell
      subst later
      by_cases same : other = id
      · subst other
        simp only [Oracle.setCpu, update_self] at edges ⊢
        rw [edges, edgesAfter]
        split
        · exact own
        · exact old cell
      · have kept := cursor.cpus other otherKnown cell
        simpa [Oracle.setCpu, Oracle.append, Oracle.linkNext,
          Oracle.setNode, same] using kept.mono (Nat.le_succ _)
  | store store =>
    exact cursor.append_other (memRetAck_recorded cursor.current allocated recorded)
  | dev id =>
    exact cursor.append_other (deloreanPgExecDev_recorded cursor.current allocated recorded)

end Record

theorem resetRegs_edges (member : entry ∈ resetRegs node) : entry.lastWrite = some node := by
  have edges : (resetRegs node).map RegNode.lastWrite = List.replicate 38 (some node) := rfl
  apply eq_of_mem_replicate
  rw [← edges]
  exact mem_map_of_mem member

theorem boot_edges (table : HashTable) (comps : List Comp) :
    ∀ node < (boot table comps).fresh,
      ((boot table comps).nodes node).data.EdgesBelow (boot table comps).fresh := by
  induction comps using List.reverseRecOn with
  | nil =>
    intro node impossible
    cases impossible
  | append_singleton comps comp ih =>
    have fresh := (deloreanPgComp_fresh (boot table comps) comp).1
    rw [boot_append, fresh]
    intro node old
    rcases Nat.lt_or_eq_of_le (Nat.le_of_lt_succ old) with before | same
    · exact (ih node before).of_core (deloreanPgComp_core _ comp node before) (Nat.le_succ _)
    · subst same
      cases comp with
      | cpu id =>
        rw [deloreanPgComp_content_cpu]
        rintro data content entry member
        cases content
        rw [resetRegs_edges (mem_of_mem_take member)]
        exact ⟨_, rfl, Nat.lt_succ_self _⟩
      | mem id =>
        rw [deloreanPgComp_content_mem]
        rintro data content
        cases content

theorem boot_unnamed (current : (boot table comps).lastExec = some base) :
    ((boot table comps).nodes base).data.Unnamed := by
  rcases eq_nil_or_concat comps with rfl | ⟨earlier, comp, rfl⟩
  · cases current
  · rw [concat_eq_append, boot_append] at current ⊢
    rw [(deloreanPgComp_fresh _ comp).2, some.injEq] at current
    subst base
    cases comp with
    | cpu id =>
      rw [deloreanPgComp_content_cpu]
      exact Or.inl ⟨_, rfl, rfl⟩
    | mem id =>
      rw [deloreanPgComp_content_mem]
      exact Or.inr ⟨_, rfl, rfl⟩

theorem boot_cursor (table : HashTable) (announced : comps ≠ []) :
    ∃ base first, Cursor (Announced comps) base first 0 0 (boot table comps) := by
  obtain ⟨base, first, chain, current⟩ := boot_chain table announced
  exact ⟨base, first, ⟨chain, Nat.le_refl 0, current, boot_unnamed current⟩,
    by simp, boot_edges table comps,
    fun _ known cell => boot_anchored table known cell⟩

/-- The tool with a debugger attached; `log` are the nodes that recording has
created. -/
structure Session where
  oracle : Oracle
  gdb : Gdb
  script : Script
  log : List NodeId

inductive Action where
  | record (event : Event)
  | verify (seen : Seen)

/-- One completed action.  A call of `gdb_verify` runs to its return. -/
inductive Session.Step : Session → Action → Session → Prop where
  | record {session : Session} {oracle : Oracle} (event : Event)
      (recorded : recordEvent session.oracle event = some oracle) :
      Step session (.record event)
        { session with
          oracle := oracle
          log := session.log ++ [session.oracle.fresh] }
  | verify {session : Session} {oracle : Oracle} {gdb : Gdb}
      {script : Script} (seen : Seen) (fuel : Nat)
      (returned : gdbVerify fuel session.oracle session.gdb session.script
        seen = .returned oracle gdb script) :
      Step session (.verify seen)
        { session with oracle := oracle, gdb := gdb, script := script }

/-- Actions one after the other. -/
inductive Session.Run (start : Session) : List Action → Session → Prop where
  | nil : Run start [] start
  | snoc {actions : List Action} {action : Action} {middle last : Session}
      (run : Run start actions middle) (step : Step middle action last) :
      Run start (actions ++ [action]) last

/-- The tool before its first event, with any debugger state and any script. -/
def Session.start (table : HashTable) (comps : List Comp) (gdb : Gdb)
    (script : Script) : Session where
  oracle := boot table comps
  gdb := gdb
  script := script
  log := []

/-- Follow the `next` pointers from a node, for at most `fuel` nodes. -/
def nextNodes (nodes : NodeId → InstNode) : Nat → NodeId → List NodeId
  | 0, _ => []
  | fuel + 1, node => node ::
      match (nodes node).next with
      | none => []
      | some next => nextNodes nodes fuel next

/-- The `next` pointers from an event lead to all later ones and no further. -/
theorem Chain.nextNodes_eq (chain : Chain base first count oracle) (sum : pos + (gap + 1) = count) :
    nextNodes oracle.nodes (gap + 2) (first + pos) =
      List.range' (first + pos) (gap + 1) := by
  induction gap generalizing pos with
  | zero =>
    have ended : (oracle.nodes (first + pos)).next = none := by
      have tip := chain.tip
      rw [← sum] at tip
      exact tip
    simp [nextNodes, ended]
  | succ gap ih =>
    have follows : (oracle.nodes (first + pos)).next = some (first + (pos + 1)) :=
      chain.next (pos + 1) (by omega)
    rw [nextNodes, follows, List.range'_succ]
    dsimp only
    rw [ih (by omega), Nat.add_assoc]

/-- Each event of the chain points back to the one before it. -/
theorem Chain.back_isChain (chain : Chain base first count oracle) :
    (List.range' first count).IsChain fun earlier later =>
      (oracle.nodes later).lastExec = some earlier := by
  rw [isChain_iff_getElem]
  intro index inside
  rw [length_range'] at inside
  rw [getElem_range', getElem_range', Nat.one_mul, Nat.one_mul]
  exact chain.back (index + 1) inside

/-- Along every run the cursor returns to the tip of one growing chain. -/
theorem Session.Run.cursor {gdb : Gdb} {script : Script}
    (start : Cursor (Announced comps) base first 0 0 (boot table comps))
    (known : ∀ id inst, .record (.inst id inst) ∈ actions → .cpu id ∈ comps)
    (run : Run (Session.start table comps gdb script) actions session) :
    Cursor (Announced comps) base first session.log.length session.log.length session.oracle ∧
      session.log = List.range' first session.log.length := by
  induction run with
  | nil => exact ⟨start, rfl⟩
  | @snoc _ _ middle _ run step ih =>
    obtain ⟨cursor, log⟩ := ih fun id inst member =>
      known id inst (mem_append_left _ member)
    cases step with
    | record event recorded =>
      have announced : ∀ id inst, event = .inst id inst → Announced comps id := by
        rintro id inst rfl
        exact known id inst (by simp)
      have next := cursor.record announced recorded
      simp only [length_append, length_singleton]
      refine ⟨next, ?_⟩
      rw [List.range'_concat, ← log, cursor.chain.fresh, Nat.one_mul]
    | verify seen fuel returned =>
      have sound := gdbVerify_sound cursor fuel middle.gdb middle.script seen
      rw [returned] at sound
      exact ⟨sound, log⟩

/-- No recorded event is lost: the oracle stands on the last recorded node,
the `next` pointers from the first recorded node visit exactly the recorded
nodes in order, and `last_exec` leads back.  A call of `gdb_verify` comes to an
end, and it gets stuck only by reversing at the node before the first event. -/
structure Session.HistoryKept (beforeFirst : Option NodeId)
    (session : Session) : Prop where
  stands : ∀ last, session.log.getLast? = some last →
    session.oracle.lastExec = some last
  visits : ∀ node, session.log.head? = some node →
    nextNodes session.oracle.nodes (session.log.length + 1) node = session.log
  once : session.log.Nodup
  back : session.log.IsChain fun earlier later =>
    (session.oracle.nodes later).lastExec = some earlier
  ends : ∀ seen, ∃ fuel,
    match gdbVerify fuel session.oracle session.gdb session.script seen with
    | .outOfFuel => False
    | .stuck oracle gdb =>
      gdbExecDirection gdb = true ∧ oracle.lastExec = beforeFirst
    | .returned oracle _ _ => oracle.lastExec = session.oracle.lastExec
    | .exited => True

/-- Debugging never loses history, whatever is recorded between the calls of
`gdb_verify` and whatever the debugger sends. -/
theorem debugging_keeps_history (table : HashTable) (comps : List Comp)
    (announced : comps ≠ []) (gdb : Gdb) (script : Script) (actions : List Action)
    (known : ∀ id inst, .record (.inst id inst) ∈ actions → .cpu id ∈ comps) (session : Session)
    (run : (Session.start table comps gdb script).Run actions session) :
    session.HistoryKept (boot table comps).lastExec := by
  obtain ⟨base, first, start⟩ := boot_cursor table announced
  obtain ⟨cursor, log⟩ := run.cursor start known
  refine ⟨?_, ?_, ?_, ?_, ?_⟩
  · intro last found
    rw [log, List.getLast?_range'] at found
    split at found
    · cases found
    · next some_event =>
        obtain ⟨earlier, length⟩ := Nat.exists_eq_succ_of_ne_zero some_event
        rw [← found, cursor.current, length]
        rfl
  · intro node found
    rw [log, List.head?_range'] at found
    split at found
    · cases found
    · next some_event =>
        obtain ⟨gap, length⟩ := Nat.exists_eq_succ_of_ne_zero some_event
        cases found
        have visited := cursor.chain.nextNodes_eq ((Nat.zero_add (gap + 1)).trans length.symm)
        rw [log, length_range', length]
        exact visited
  · rw [log]
    exact nodup_range'
  · rw [log]
    exact cursor.chain.back_isChain
  · intro seen
    obtain ⟨fuel, ends⟩ := gdbVerify_ends cursor session.gdb session.script seen
    refine ⟨fuel, ?_⟩
    have sound := gdbVerify_sound cursor fuel session.gdb session.script seen
    cases verdict : gdbVerify fuel session.oracle session.gdb session.script seen with
    | outOfFuel => exact (ends verdict).elim
    | stuck oracle gdb =>
      rw [verdict] at sound
      exact ⟨sound.2, sound.1.trans start.current.symm⟩
    | returned oracle gdb script =>
      rw [verdict] at sound
      exact sound.current.trans cursor.current.symm
    | exited => trivial

/-- Two instructions; the debugger steps after the first one, and after the
second one it steps back and continues. -/
theorem debugging_keeps_history_step_back :
    ∃ session : Session,
      (Session.start ⟨fun _ _ => none⟩ [.cpu 0] gdbStartAndWait
        [[.step], [.reverseStep], [.continue_]]).Run
          [.record (.inst 0 (writingInst 0 [⟨0, 1⟩] (by decide))),
            .verify (.cpu 0 4),
            .record (.inst 0 (writingInst 4 [⟨0, 2⟩] (by decide))),
            .verify (.cpu 0 8)] session ∧
      session.script = [] ∧ session.log.length = 2 ∧
      session.HistoryKept (boot ⟨fun _ _ => none⟩ [.cpu 0]).lastExec := by
  have first : (Session.start ⟨fun _ _ => none⟩ [.cpu 0] gdbStartAndWait
      [[.step], [.reverseStep], [.continue_]]).Run _ _ :=
    .snoc .nil (.record (.inst 0 (writingInst 0 [⟨0, 1⟩] (by decide))) rfl)
  have second := first.snoc (.verify (.cpu 0 4) 4 rfl)
  have third := second.snoc (.record (.inst 0 (writingInst 4 [⟨0, 2⟩] (by decide))) rfl)
  have fourth := third.snoc (.verify (.cpu 0 8) 4 rfl)
  refine ⟨_, fourth, rfl, rfl, debugging_keeps_history _ _ (by simp) _ _ _ ?_ _ fourth⟩
  intro id inst member
  simp only [nil_append, cons_append, mem_cons,
    Action.record.injEq, Event.inst.injEq, reduceCtorEq, not_mem_nil,
    or_false, false_or] at member
  rcases member with ⟨rfl, _⟩ | ⟨rfl, _⟩ <;> simp

end Reverse.Delorean
