import Mathlib.Data.List.TakeWhile
import Mathlib.Tactic.FinCases
import Reverse.Library.Runs
import Reverse.Sherlock.Cpu

/-!
# What a mode switch moves

`switch_mode` only copies cells onto cells.  `switchSource` names the cell
each cell gets its data from, and `cpuExec_unnamed` describes the data of a
register that an executed list does not name.
-/

namespace Reverse.Sherlock

open List Option

/-- The cell whose data a cell holds after a switch between two modes. -/
def switchSource (old new : Word) (cell : Cell) : Cell :=
  if new = old then cell
  else
    match cell with
    | .reg index =>
      if index = 13 then
        if cpuBank new = cpuBank old then .reg 13
        else .bankedR13 ((cpuBank new).getD 0)
      else if index = 14 then
        if cpuBank new = cpuBank old then .reg 14
        else .bankedR14 ((cpuBank new).getD 0)
      else if 8 ≤ index.val ∧ index.val ≤ 12 then
        if old = armCpuModeFiq then .usr (Fin.ofNat 5 (index.val - 8))
        else if new = armCpuModeFiq then .fiq (Fin.ofNat 5 (index.val - 8))
        else .reg index
      else .reg index
    | .cpsr => .cpsr
    | .spsr =>
      if cpuBank new = cpuBank old then .spsr
      else .bankedSpsr ((cpuBank new).getD 0)
    | .bankedSpsr bank =>
      if some bank = cpuBank old then .spsr else .bankedSpsr bank
    | .bankedR13 bank =>
      if some bank = cpuBank old then .reg 13 else .bankedR13 bank
    | .bankedR14 bank =>
      if some bank = cpuBank old then .reg 14 else .bankedR14 bank
    | .usr index =>
      if old ≠ armCpuModeFiq ∧ new = armCpuModeFiq then
        .reg (Fin.ofNat 16 (8 + index.val))
      else .usr index
    | .fiq index =>
      if old = armCpuModeFiq then .reg (Fin.ofNat 16 (8 + index.val))
      else .fiq index

/-- The copies of `r8`-`r12` made when FIQ mode is left or entered. -/
def Cpu.moveHigh (cpu : Cpu) (old new : Word) : Cpu :=
  if old = armCpuModeFiq then (cpu.saveHigh .fiq).loadHigh .usr
  else if new = armCpuModeFiq then (cpu.saveHigh .usr).loadHigh .fiq
  else cpu

/-- The copies between the current registers and the banks. -/
def Cpu.moveBanks (cpu : Cpu) (old new : Fin 6) : Cpu :=
  let cpu := cpu.setData (.bankedR13 old) (cpu.data (.reg 13))
  let cpu := cpu.setData (.bankedR14 old) (cpu.data (.reg 14))
  let cpu := cpu.setData (.bankedSpsr old) (cpu.data .spsr)
  let cpu := cpu.setData (.reg 13) (cpu.data (.bankedR13 new))
  let cpu := cpu.setData (.reg 14) (cpu.data (.bankedR14 new))
  cpu.setCell .spsr (cpu.cell (.bankedSpsr new))

theorem switchMode_same (cpu : Cpu) : switchMode cpu cpu.mode = some cpu := by
  simp [switchMode]

theorem switchMode_of_ne (differ : mode ≠ cpu.mode) :
    switchMode cpu mode =
      (cpuBank cpu.mode).bind fun old =>
        (cpuBank mode).bind fun new =>
          some ((cpu.moveHigh cpu.mode mode).moveBanks old new) := by
  simp only [switchMode, differ, if_false]
  rfl

theorem moveHigh_data (cpu : Cpu) (old new : Word) (cell : Cell) :
    (cpu.moveHigh old new).data cell =
      cpu.data
        (match cell with
        | .reg index =>
          if 8 ≤ index.val ∧ index.val ≤ 12 then
            if old = armCpuModeFiq then .usr (Fin.ofNat 5 (index.val - 8))
            else if new = armCpuModeFiq then
              .fiq (Fin.ofNat 5 (index.val - 8))
            else .reg index
          else .reg index
        | .usr index =>
          if old ≠ armCpuModeFiq ∧ new = armCpuModeFiq then
            .reg (Fin.ofNat 16 (8 + index.val))
          else .usr index
        | .fiq index =>
          if old = armCpuModeFiq then .reg (Fin.ofNat 16 (8 + index.val))
          else .fiq index
        | other => other) := by
  by_cases leave : old = armCpuModeFiq
  · subst leave
    cases cell with
    | reg index => fin_cases index <;> rfl
    | usr index => fin_cases index <;> rfl
    | fiq index => fin_cases index <;> rfl
    | _ => rfl
  · by_cases enter : new = armCpuModeFiq
    · subst enter
      simp only [Cpu.moveHigh, leave, if_false, if_true, not_false_eq_true, ne_eq, and_self]
      cases cell with
      | reg index => fin_cases index <;> rfl
      | usr index => fin_cases index <;> rfl
      | fiq index => fin_cases index <;> rfl
      | _ => rfl
    · simp only [Cpu.moveHigh, leave, enter, if_false, and_false, ite_self]
      cases cell <;> rfl

theorem moveBanks_data (cpu : Cpu) (old new : Fin 6) (cell : Cell) :
    (cpu.moveBanks old new).data cell =
      cpu.data
        (match cell with
        | .reg index =>
          if index = 13 then
            if new = old then .reg 13 else .bankedR13 new
          else if index = 14 then
            if new = old then .reg 14 else .bankedR14 new
          else .reg index
        | .spsr => if new = old then .spsr else .bankedSpsr new
        | .bankedSpsr bank => if bank = old then .spsr else .bankedSpsr bank
        | .bankedR13 bank => if bank = old then .reg 13 else .bankedR13 bank
        | .bankedR14 bank => if bank = old then .reg 14 else .bankedR14 bank
        | other => other) := by
  have spsrData : ∀ (cpu : Cpu) (bank : Fin 6) (cell : Cell),
      (cpu.setCell .spsr (cpu.cell (.bankedSpsr bank))).data cell =
        if cell = .spsr then cpu.data (.bankedSpsr bank)
        else cpu.data cell := by
    intro cpu bank cell
    by_cases same : cell = .spsr
    · simp [Cpu.data, same]
    · simp [Cpu.data, same]
  simp only [Cpu.moveBanks, spsrData, Cpu.setData_data]
  cases cell <;> simp <;> split_ifs <;> simp_all

/-- A mode switch is a simultaneous copy along `switchSource`. -/
theorem switchMode_data (switched : switchMode cpu mode = some later) (cell : Cell) :
    later.data cell = cpu.data (switchSource cpu.mode mode cell) := by
  by_cases same : mode = cpu.mode
  · rw [same, switchMode_same, some.injEq] at switched
    subst later
    simp [switchSource, same]
  · rw [switchMode_of_ne same] at switched
    simp only [bind_eq_some_iff, some.injEq] at switched
    obtain ⟨old, oldBank, new, newBank, rfl⟩ := switched
    rw [moveBanks_data, moveHigh_data]
    simp only [switchSource, same, if_false, oldBank, newBank, getD_some, some.injEq]
    cases cell with
    | reg index =>
      by_cases thirteen : index = 13
      · subst thirteen
        by_cases sameBank : new = old <;> simp [sameBank]
      · by_cases fourteen : index = 14
        · subst fourteen
          by_cases sameBank : new = old <;> simp [sameBank]
        · simp [thirteen, fourteen]
    | spsr => by_cases sameBank : new = old <;> simp [sameBank]
    | bankedSpsr bank => by_cases sameBank : bank = old <;> simp [sameBank]
    | bankedR13 bank => by_cases sameBank : bank = old <;> simp [sameBank]
    | bankedR14 bank => by_cases sameBank : bank = old <;> simp [sameBank]
    | cpsr => rfl
    | usr index => rfl
    | fiq index => rfl

theorem switchMode_isSome_iff (differ : mode ≠ cpu.mode) :
    (switchMode cpu mode).isSome ↔ (cpuBank cpu.mode).isSome ∧ (cpuBank mode).isSome := by
  rw [switchMode_of_ne differ]
  cases cpuBank cpu.mode <;> cases cpuBank mode <;> simp

/-- Every edge of the second state stands in some cell of the first. -/
def MovesEdges (cpu next : Cpu) : Prop :=
  ∀ cell, ∃ source, next.lastWrite cell = cpu.lastWrite source

namespace MovesEdges

theorem refl (cpu : Cpu) : MovesEdges cpu cpu := fun cell => ⟨cell, rfl⟩

theorem trans (left : MovesEdges first second)
    (right : MovesEdges second third) : MovesEdges first third := by
  intro cell
  obtain ⟨middle, late⟩ := right cell
  obtain ⟨source, early⟩ := left middle
  exact ⟨source, late.trans early⟩

theorem setData (cpu : Cpu) (cell : Cell) (value : Word) :
    MovesEdges cpu (cpu.setData cell value) :=
  fun other => ⟨other, by rw [Cpu.setData_lastWrite]⟩

theorem copy (cpu : Cpu) (cell source : Cell) :
    MovesEdges cpu (cpu.setCell cell (cpu.cell source)) := by
  intro other
  by_cases same : other = cell
  · exact ⟨source, by simp [Cpu.lastWrite, same]⟩
  · exact ⟨other, by simp [Cpu.lastWrite, same]⟩

theorem saveHigh (cpu : Cpu) (saved : Fin 5 → Cell) : MovesEdges cpu (cpu.saveHigh saved) := by
  intro cell
  simp only [Cpu.saveHigh, Cpu.lastWrite]
  split_ifs <;> exact ⟨_, rfl⟩

theorem loadHigh (cpu : Cpu) (saved : Fin 5 → Cell) : MovesEdges cpu (cpu.loadHigh saved) := by
  intro cell
  simp only [Cpu.loadHigh, Cpu.lastWrite]
  split <;> exact ⟨_, rfl⟩

theorem moveHigh (cpu : Cpu) (old new : Word) : MovesEdges cpu (cpu.moveHigh old new) := by
  unfold Cpu.moveHigh
  split
  · exact (saveHigh cpu .fiq).trans (loadHigh _ .usr)
  · split
    · exact (saveHigh cpu .usr).trans (loadHigh _ .fiq)
    · exact refl cpu

theorem moveBanks (cpu : Cpu) (old new : Fin 6) : MovesEdges cpu (cpu.moveBanks old new) :=
  ((((setData _ _ _).trans (setData _ _ _)).trans (setData _ _ _)).trans
    ((setData _ _ _).trans (setData _ _ _))).trans (copy _ _ _)

end MovesEdges

/-- A mode switch moves edges only with the cells that carry them. -/
theorem switchMode_movesEdges (switched : switchMode cpu mode = some later) :
    MovesEdges cpu later := by
  by_cases same : mode = cpu.mode
  · rw [same, switchMode_same, some.injEq] at switched
    subst later
    exact .refl cpu
  · rw [switchMode_of_ne same] at switched
    simp only [bind_eq_some_iff, some.injEq] at switched
    obtain ⟨old, _, new, _, rfl⟩ := switched
    exact (MovesEdges.moveHigh _ _ _).trans (.moveBanks _ _ _)

theorem cpuExecReg_movesEdges (executed : cpuExecReg cpu write = some later) :
    MovesEdges cpu later := by
  unfold cpuExecReg at executed
  split at executed
  · simp only [bind_eq_bind, bind_eq_some_iff] at executed
    obtain ⟨middle, switched, finished⟩ := executed
    cases finished
    exact (switchMode_movesEdges switched).trans (.setData _ _ _)
  · cases executed
    exact .setData _ _ _
  · cases executed
    exact .refl cpu
  · cases executed

theorem cpuExec_movesEdges (executed : cpuExec cpu regs = some later) : MovesEdges cpu later :=
  Runs.foldlM_keeps (MovesEdges cpu)
    (fun _ moved step => moved.trans (cpuExecReg_movesEdges step)) (.refl _) executed

/-- The writes of a list that name a cell. -/
def Names (writes : List RegWrite) (cell : Cell) : Prop :=
  ∃ write ∈ writes, target write.id = .cell cell

instance (writes : List RegWrite) (cell : Cell) : Decidable (Names writes cell) :=
  inferInstanceAs (Decidable (∃ write ∈ writes, target write.id = .cell cell))

theorem names_cons :
    Names (write :: writes) cell ↔ target write.id = .cell cell ∨ Names writes cell := by
  simp [Names]

/-- The last value a list gives to a cell, or the given one. -/
def lastListed (writes : List RegWrite) (cell : Cell) (value : Word) : Word :=
  writes.foldl (fun value write =>
    if target write.id = .cell cell then write.data else value) value

theorem lastListed_of_not_names (unnamed : ¬ Names writes cell) (value : Word) :
    lastListed writes cell value = value := by
  induction writes generalizing value with
  | nil => rfl
  | cons write writes ih =>
    rw [names_cons, not_or] at unnamed
    obtain ⟨head, tail⟩ := unnamed
    simpa [lastListed, head] using ih tail value

theorem lastListed_of_names (named : Names writes cell) (left right : Word) :
    lastListed writes cell left = lastListed writes cell right := by
  induction writes generalizing left right with
  | nil => simp [Names] at named
  | cons write writes ih =>
    by_cases head : target write.id = .cell cell
    · simp [lastListed, head]
    · have tail := (names_cons.mp named).resolve_left head
      simpa [lastListed, head] using ih tail left right

/-- All status writes of a list ask for one mode, and every identifier of it
is a register. -/
def Steady (mode : Word) (writes : List RegWrite) : Prop :=
  ∀ write ∈ writes, ∃ cell, target write.id = .cell cell ∧
    (cell = .cpsr → write.data &&& cpsrModeMask = mode)

theorem Steady.tail (steady : Steady mode (write :: writes)) : Steady mode writes := by
  intro other member
  exact steady other (by simp [member])

theorem cpuExecReg_steady (named : target write.id = .cell cell)
    (keeps : cell = .cpsr → write.data &&& cpsrModeMask = cpu.mode) :
    cpuExecReg cpu write = some (cpu.setData cell write.data) := by
  cases cell with
  | cpsr => simp [cpuExecReg, named, keeps rfl, switchMode_same]
  | _ => simp [cpuExecReg, named]

theorem setData_mode {cpu : Cpu} (keeps : cell = .cpsr → value &&& cpsrModeMask = cpu.mode) :
    (cpu.setData cell value).mode = cpu.mode := by
  by_cases status : cell = .cpsr
  · subst status
    rw [Cpu.mode, Cpu.setData_data, if_pos rfl, keeps rfl]
  · rw [Cpu.mode, Cpu.setData_data, if_neg (Ne.symm status), Cpu.mode]

/-- A list that keeps the mode only writes what it names. -/
theorem foldlM_cpuExecReg_steady (steady : Steady cpu.mode writes) :
    ∃ later, writes.foldlM cpuExecReg cpu = some later ∧
      later.mode = cpu.mode ∧ later.id = cpu.id ∧
      later.lastWrite = cpu.lastWrite ∧
      ∀ cell, later.data cell = lastListed writes cell (cpu.data cell) := by
  induction writes generalizing cpu with
  | nil => exact ⟨cpu, rfl, rfl, rfl, rfl, fun _ => rfl⟩
  | cons write writes ih =>
    obtain ⟨cell, named, keeps⟩ := steady write (by simp)
    have sameMode := setData_mode keeps
    have rest : Steady (cpu.setData cell write.data).mode writes := by
      rw [sameMode]
      exact steady.tail
    obtain ⟨later, executed, mode, id, edges, contents⟩ := ih rest
    refine ⟨later, ?_, ?_, ?_, ?_, ?_⟩
    · simp [foldlM_cons, cpuExecReg_steady named keeps, executed]
    · rw [mode, sameMode]
    · rw [id, Cpu.setData_id]
    · rw [edges, Cpu.setData_lastWrite]
    · intro other
      rw [contents, Cpu.setData_data]
      by_cases same : other = cell
      · subst other
        simp [lastListed, named]
      · have differs : target write.id ≠ .cell other := by
          rw [named]
          intro equality
          cases equality
          exact same rfl
        simp [lastListed, differs, same]

def RegWrite.isStatus (write : RegWrite) : Bool :=
  target write.id = .cell .cpsr

/-- The writes before the first one of the status register. -/
def beforeSwitch (writes : List RegWrite) : List RegWrite :=
  writes.takeWhile (fun write => !write.isStatus)

/-- The mode the first write of the status register asks for. -/
def newMode (old : Word) (writes : List RegWrite) : Word :=
  match writes.dropWhile (fun write => !write.isStatus) with
  | [] => old
  | write :: _ => write.data &&& cpsrModeMask

theorem beforeSwitch_steady (steady : Steady mode writes) : Steady other (beforeSwitch writes) := by
  intro write member
  obtain ⟨cell, named, _⟩ := steady write ((takeWhile_sublist _).subset member)
  have early := mem_takeWhile_imp member
  refine ⟨cell, named, ?_⟩
  rintro rfl
  simp [RegWrite.isStatus, named] at early

/-- Either no write of the list is one of the status register, or the list is
split by the first such write. -/
theorem split_at_switch (old : Word) (writes : List RegWrite) :
    (writes = beforeSwitch writes ∧ newMode old writes = old) ∨
    ∃ status later, writes = beforeSwitch writes ++ status :: later ∧
      target status.id = .cell .cpsr ∧
      newMode old writes = status.data &&& cpsrModeMask := by
  have whole :=
    takeWhile_append_dropWhile (p := fun write => !write.isStatus)
      (l := writes)
  cases rest : writes.dropWhile (fun write => !write.isStatus) with
  | nil =>
    left
    rw [rest, append_nil] at whole
    exact ⟨whole.symm, by simp [newMode, rest]⟩
  | cons status later =>
    right
    have isStatus : status.isStatus = true := by
      have head := head_dropWhile_not
        (fun write : RegWrite => !write.isStatus) (l := writes)
        (by simp [rest])
      simpa [rest] using head
    refine ⟨status, later, ?_, by simpa [RegWrite.isStatus] using isStatus, by simp [newMode, rest]⟩
    rw [rest] at whole
    exact whole.symm

/-- Executing a list that switches the mode at most once: the data of a cell
that no write names comes from where the switch takes it. -/
theorem cpuExec_unnamed (steady : Steady (newMode cpu.mode writes) writes)
    (banks : newMode cpu.mode writes ≠ cpu.mode →
      (cpuBank cpu.mode).isSome ∧ (cpuBank (newMode cpu.mode writes)).isSome) :
    ∃ moved, writes.foldlM cpuExecReg cpu = some moved ∧
      moved.mode = newMode cpu.mode writes ∧
      ∀ cell, ¬ Names writes cell →
        moved.data cell =
          lastListed (beforeSwitch writes)
            (switchSource cpu.mode (newMode cpu.mode writes) cell)
            (cpu.data (switchSource cpu.mode (newMode cpu.mode writes) cell)) := by
  have early : Steady cpu.mode (beforeSwitch writes) := beforeSwitch_steady steady
  obtain ⟨first, executed, firstMode, _, _, firstData⟩ := foldlM_cpuExecReg_steady early
  rcases split_at_switch cpu.mode writes with
    ⟨whole, mode⟩ | ⟨status, later, whole, named, mode⟩
  · refine ⟨first, by rw [whole]; exact executed, by rw [mode, firstMode], ?_⟩
    intro cell _
    rw [mode, firstData]
    simp [switchSource]
  · have switched : ∃ second, switchMode first (status.data &&& cpsrModeMask) = some second := by
      by_cases same : status.data &&& cpsrModeMask = first.mode
      · exact ⟨first, by rw [same, switchMode_same]⟩
      · apply isSome_iff_exists.mp
        rw [switchMode_isSome_iff same, ← mode, firstMode]
        apply banks
        rw [mode, ← firstMode]
        exact same
    obtain ⟨second, switched⟩ := switched
    have thirdMode : (second.setData .cpsr status.data).mode = newMode cpu.mode writes := by
      rw [Cpu.mode, Cpu.setData_data, if_pos rfl, mode]
    have late : Steady (second.setData .cpsr status.data).mode later := by
      rw [thirdMode]
      intro write member
      exact steady write (by rw [whole]; simp [member])
    obtain ⟨last, finished, lastMode, _, _, lastData⟩ := foldlM_cpuExecReg_steady late
    refine ⟨last, ?_, by rw [lastMode, thirdMode], ?_⟩
    · rw [whole, foldlM_append, executed]
      simp [foldlM_cons, cpuExecReg, named, switched, finished]
    · intro cell unnamed
      have notStatus : cell ≠ .cpsr := by
        rintro rfl
        exact unnamed ⟨status, by rw [whole]; simp, named⟩
      have notLater : ¬ Names later cell := by
        rintro ⟨write, member, writeNamed⟩
        exact unnamed ⟨write, by rw [whole]; simp [member], writeNamed⟩
      rw [lastData, lastListed_of_not_names notLater, Cpu.setData_data,
        if_neg notStatus, switchMode_data switched, firstData, firstMode,
        ← mode]

/-- The converse reading: a run that ends in a mode all status writes ask for
has switched to it. -/
theorem cpuExec_newMode (executed : writes.foldlM cpuExecReg cpu = some moved)
    (steady : Steady moved.mode writes) :
    newMode cpu.mode writes = moved.mode ∧
      (moved.mode ≠ cpu.mode → (cpuBank cpu.mode).isSome ∧ (cpuBank moved.mode).isSome) := by
  have early : Steady cpu.mode (beforeSwitch writes) := beforeSwitch_steady steady
  obtain ⟨first, prefixRun, firstMode, _⟩ := foldlM_cpuExecReg_steady early
  rcases split_at_switch cpu.mode writes with
    ⟨whole, mode⟩ | ⟨status, later, whole, named, mode⟩
  · rw [whole, prefixRun, some.injEq] at executed
    subst moved
    exact ⟨by rw [mode, firstMode], fun differ => (differ firstMode).elim⟩
  · obtain ⟨cell, cellNamed, asks⟩ := steady status (by rw [whole]; simp)
    rw [named, Target.cell.injEq] at cellNamed
    have target := asks cellNamed.symm
    refine ⟨by rw [mode, target], ?_⟩
    intro differ
    rw [whole, foldlM_append, prefixRun] at executed
    have switched : (switchMode first moved.mode).isSome := by
      cases result : switchMode first moved.mode with
      | some second => rfl
      | none =>
        simp [foldlM_cons, cpuExecReg, named, target, result] at executed
    rw [← firstMode] at differ ⊢
    exact (switchMode_isSome_iff differ).mp switched

end Reverse.Sherlock
