import Reverse.Sherlock.ModeSwitch

/-!
# The logical register file

The architecture has the registers that all modes share, `r8`-`r12` once for
FIQ mode and once for the other modes, and `r13`, `r14` and the SPSR once for
each bank.  Which cell of a `cpu_t` holds such a register depends on the current
mode.  Mode switches keep the register file, and so do writes, but a write to a
register of the user bank goes to the cell that its identifier names whatever
the mode is.
-/

namespace Reverse.Sherlock

open Function List Option

inductive ArchReg where
  | shared (index : Fin 9)
  | high (fiq : Bool) (index : Fin 5)
  | r13 (bank : Fin 6)
  | r14 (bank : Fin 6)
  | spsr (bank : Fin 6)
deriving DecidableEq, Repr

/-- The mode is one of the architecture. -/
def ValidMode (mode : Word) : Prop := (cpuBank mode).isSome

def bankOf (mode : Word) : Fin 6 := (cpuBank mode).getD 0

/-- The register that `r0`-`r15` name in a mode. -/
def archReg (mode : Word) (index : Fin 16) : ArchReg :=
  if index = 13 then .r13 (bankOf mode)
  else if index = 14 then .r14 (bankOf mode)
  else if index = 15 then .shared 8
  else if 8 ≤ index.val then
    .high (mode = armCpuModeFiq) (Fin.ofNat 5 (index.val - 8))
  else .shared (Fin.ofNat 9 index.val)

/-- The status register and the contents of all registers. -/
@[ext]
structure LogicalCpu where
  cpsr : Word
  file : ArchReg → Word

namespace LogicalCpu

def mode (logical : LogicalCpu) : Word := logical.cpsr &&& cpsrModeMask

def set (logical : LogicalCpu) (reg : ArchReg) (value : Word) : LogicalCpu :=
  { logical with file := update logical.file reg value }

/-- What a write means: to a register of the current mode, to the status
register, or to a register of the user bank. -/
def write (logical : LogicalCpu) (write : RegWrite) : LogicalCpu :=
  if write.id.toNat < 16 then
    logical.set (archReg logical.mode (regIndex write.id)) write.data
  else if write.id = regidCpsr then { logical with cpsr := write.data }
  else if write.id = regidSpsr then
    logical.set (.spsr (bankOf logical.mode)) write.data
  else if write.id &&& userRegs ≠ 0 then
    logical.set (archReg armCpuModeUsr (regIndex write.id)) write.data
  else logical

end LogicalCpu

/-- The cell that holds a register in the given mode. -/
def holder (mode : Word) : ArchReg → Cell
  | .shared index => .reg (if index = 8 then 15 else Fin.ofNat 16 index.val)
  | .high fiq index =>
    if fiq = decide (mode = armCpuModeFiq) then
      .reg (Fin.ofNat 16 (8 + index.val))
    else if fiq then .fiq index
    else .usr index
  | .r13 bank => if bank = bankOf mode then .reg 13 else .bankedR13 bank
  | .r14 bank => if bank = bankOf mode then .reg 14 else .bankedR14 bank
  | .spsr bank => if bank = bankOf mode then .spsr else .bankedSpsr bank

/-- The register that a cell holds or would hold in another mode. -/
def owner (mode : Word) : Cell → Option ArchReg
  | .reg index => some (archReg mode index)
  | .cpsr => none
  | .spsr => some (.spsr (bankOf mode))
  | .bankedSpsr bank => some (.spsr bank)
  | .bankedR13 bank => some (.r13 bank)
  | .bankedR14 bank => some (.r14 bank)
  | .usr index => some (.high false index)
  | .fiq index => some (.high true index)

theorem owner_holder (mode : Word) (reg : ArchReg) : owner mode (holder mode reg) = some reg := by
  cases reg with
  | shared index => fin_cases index <;> rfl
  | high fiq index =>
    by_cases current : fiq = decide (mode = armCpuModeFiq)
    · rw [holder, if_pos current, current]
      fin_cases index <;> rfl
    · rw [holder, if_neg current]
      cases fiq <;> rfl
  | r13 bank | r14 bank | spsr bank =>
    by_cases current : bank = bankOf mode
    · rw [holder, if_pos current, current]
      rfl
    · rw [holder, if_neg current]
      rfl

theorem holder_injective (mode : Word) : Function.Injective (holder mode) := by
  intro left right same
  have owners := congrArg (owner mode) same
  rw [owner_holder, owner_holder] at owners
  exact some.inj owners

theorem holder_ne_cpsr (mode : Word) (reg : ArchReg) : holder mode reg ≠ .cpsr := by
  intro same
  have owners := congrArg (owner mode) same
  rw [owner_holder] at owners
  cases owners

/-- In the current mode the cells `regs` hold the registers of this mode. -/
theorem holder_archReg (mode : Word) (index : Fin 16) :
    holder mode (archReg mode index) = .reg index := by
  fin_cases index <;> first | rfl | exact if_pos rfl

theorem holder_spsr (mode : Word) : holder mode (.spsr (bankOf mode)) = .spsr :=
  if_pos rfl

theorem ValidMode.cpuBank (valid : ValidMode mode) : cpuBank mode = some (bankOf mode) := by
  obtain ⟨bank, found⟩ := isSome_iff_exists.mp valid
  rw [bankOf, found]
  rfl

theorem switchSource_high (differ : new ≠ old) (index : Fin 5) :
    switchSource old new (.reg (Fin.ofNat 16 (8 + index.val))) =
      if old = armCpuModeFiq then .usr index
      else if new = armCpuModeFiq then .fiq index
      else .reg (Fin.ofNat 16 (8 + index.val)) := by
  unfold switchSource
  rw [if_neg differ]
  fin_cases index <;> rfl

/-- A switch between modes brings each register to the cell that holds it in
the new mode. -/
theorem switchSource_holder (oldValid : ValidMode old) (newValid : ValidMode new) (reg : ArchReg) :
    switchSource old new (holder new reg) = holder old reg := by
  have banks : cpuBank new = cpuBank old ↔ bankOf new = bankOf old := by
    rw [newValid.cpuBank, oldValid.cpuBank, some.injEq]
  by_cases same : new = old
  · subst same
    unfold switchSource
    exact if_pos rfl
  · cases reg with
    | shared index =>
      unfold switchSource
      rw [if_neg same]
      fin_cases index <;> rfl
    | high fiq index =>
      have current := switchSource_high same index
      by_cases enter : new = armCpuModeFiq
      · have notFiq : old ≠ armCpuModeFiq := fun leave =>
          same (enter.trans leave.symm)
        rw [if_neg notFiq, if_pos enter] at current
        cases fiq with
        | true => simpa [holder, enter, notFiq] using current
        | false => simp [holder, enter, notFiq, switchSource, Ne.symm notFiq]
      · by_cases leave : old = armCpuModeFiq
        · rw [if_pos leave] at current
          cases fiq with
          | true => simp [holder, enter, leave, switchSource]
          | false => simpa [holder, enter, leave] using current
        · rw [if_neg leave, if_neg enter] at current
          cases fiq with
          | true => simp [holder, enter, leave, switchSource]
          | false => simpa [holder, enter, leave] using current
    | r13 bank | r14 bank | spsr bank =>
      unfold switchSource
      by_cases current : bank = bankOf new
      · simp [holder, current, same, banks, bankOf]
      · simp [holder, current, same, oldValid.cpuBank]

/-- The logical register file that a `cpu_t` represents. -/
def Cpu.logical (cpu : Cpu) : LogicalCpu where
  cpsr := cpu.data .cpsr
  file reg := cpu.data (holder cpu.mode reg)

theorem logical_current (cpu : Cpu) (index : Fin 16) :
    cpu.logical.file (archReg cpu.mode index) = cpu.data (.reg index) :=
  congrArg cpu.data (holder_archReg cpu.mode index)

theorem logical_spsr (cpu : Cpu) : cpu.logical.file (.spsr (bankOf cpu.mode)) = cpu.data .spsr :=
  congrArg cpu.data (holder_spsr cpu.mode)

theorem logical_setData_holder (cpu : Cpu) (reg : ArchReg) (value : Word) :
    (cpu.setData (holder cpu.mode reg) value).logical = cpu.logical.set reg value := by
  have status := holder_ne_cpsr cpu.mode reg
  have mode : (cpu.setData (holder cpu.mode reg) value).mode = cpu.mode :=
    setData_mode fun isStatus => (status isStatus).elim
  apply LogicalCpu.ext
  · rw [Cpu.logical, Cpu.setData_data, if_neg (Ne.symm status)]
    rfl
  · funext other
    simp only [Cpu.logical, mode, Cpu.setData_data, LogicalCpu.set,
      update_apply, (holder_injective cpu.mode).eq_iff]

theorem logical_setData_hidden {cpu : Cpu} (status : cell ≠ .cpsr)
    (hidden : ∀ reg, holder cpu.mode reg ≠ cell) (value : Word) :
    (cpu.setData cell value).logical = cpu.logical := by
  have mode : (cpu.setData cell value).mode = cpu.mode :=
    setData_mode fun isStatus => (status isStatus).elim
  apply LogicalCpu.ext
  · rw [Cpu.logical, Cpu.setData_data, if_neg (Ne.symm status)]
    rfl
  · funext other
    simp only [Cpu.logical, mode, Cpu.setData_data, if_neg (hidden other)]

theorem logical_switch (oldValid : ValidMode cpu.mode)
    (newValid : ValidMode (value &&& cpsrModeMask))
    (switched : switchMode cpu (value &&& cpsrModeMask) = some later) :
    (later.setData .cpsr value).logical = { cpu.logical with cpsr := value } := by
  have mode : (later.setData .cpsr value).mode = value &&& cpsrModeMask := by
    rw [Cpu.mode, Cpu.setData_data, if_pos rfl]
  apply LogicalCpu.ext
  · rw [Cpu.logical, Cpu.setData_data, if_pos rfl]
  · funext reg
    simp only [Cpu.logical, mode]
    rw [Cpu.setData_data, if_neg (holder_ne_cpsr _ reg),
      switchMode_data switched, switchSource_holder oldValid newValid]

/-- The identifier is one of a register of the user bank. -/
def IsUser (id : BitVec 8) : Prop :=
  16 ≤ id.toNat ∧ id ≠ regidCpsr ∧ id ≠ regidSpsr ∧ id &&& userRegs ≠ 0

instance (id : BitVec 8) : Decidable (IsUser id) :=
  inferInstanceAs (Decidable (_ ∧ _))

/-- A write to the user bank goes to the cell that holds the register, or it
makes no difference: the register has this value already, and so has the one in
the cell that is written, if there is one. -/
def Addressed (cpu : Cpu) (write : RegWrite) : Prop :=
  IsUser write.id →
    ∃ cell, target write.id = .cell cell ∧
      (cell = holder cpu.mode (archReg armCpuModeUsr (regIndex write.id)) ∨
        cpu.data (holder cpu.mode (archReg armCpuModeUsr (regIndex write.id))) = write.data ∧
        ((∀ reg, holder cpu.mode reg ≠ cell) ∨ cpu.data cell = write.data))

/-- A write of the status register asks for a mode of the architecture. -/
def AsksValid (write : RegWrite) : Prop :=
  write.id = regidCpsr → ValidMode (write.data &&& cpsrModeMask)

theorem LogicalCpu.set_eq_iff (logical : LogicalCpu) (reg : ArchReg)
    (value : Word) : logical = logical.set reg value ↔ logical.file reg = value := by
  constructor
  · intro same
    have files := congrArg (fun other => other.file reg) same
    simpa [LogicalCpu.set] using files
  · rintro rfl
    rw [LogicalCpu.set, Function.update_eq_self]

theorem LogicalCpu.set_eq_set_iff (logical : LogicalCpu) (differ : left ≠ right) (value : Word) :
    logical.set left value = logical.set right value ↔
      logical.file right = value ∧ logical.file left = value := by
  constructor
  · intro same
    have files := fun reg => congrArg (fun other => other.file reg) same
    have atRight := files right
    have atLeft := files left
    simp only [LogicalCpu.set, update_self, update_of_ne differ.symm] at atRight
    simp only [LogicalCpu.set, update_self, update_of_ne differ] at atLeft
    exact ⟨atRight, atLeft.symm⟩
  · rintro ⟨atRight, atLeft⟩
    rw [← (logical.set_eq_iff left value).mpr atLeft,
      ← (logical.set_eq_iff right value).mpr atRight]

theorem target_current {id : BitVec 8} (small : id.toNat < 16) :
    target id = .cell (.reg (regIndex id)) :=
  if_pos small

theorem target_user {id : BitVec 8} (user : IsUser id)
    (named : target id = .cell cell) : cell ≠ .cpsr := by
  rintro rfl
  exact user.2.1 (target_eq_cpsr named)

theorem cpuExecReg_cell (named : target write.id = .cell cell) (status : cell ≠ .cpsr) :
    cpuExecReg cpu write = some (cpu.setData cell write.data) :=
  cpuExecReg_steady named fun isStatus => (status isStatus).elim

theorem switchMode_valid (oldValid : ValidMode cpu.mode) (newValid : ValidMode mode) :
    ∃ next, switchMode cpu mode = some next := by
  by_cases same : mode = cpu.mode
  · exact ⟨cpu, by rw [same, switchMode_same]⟩
  · exact isSome_iff_exists.mp ((switchMode_isSome_iff same).mpr ⟨oldValid, newValid⟩)

theorem cpuExecReg_user_iff (user : IsUser write.id) :
    (∃ next, cpuExecReg cpu write = some next ∧
      next.logical = cpu.logical.write write) ↔ Addressed cpu write := by
  have meaning : cpu.logical.write write = cpu.logical.set
      (archReg armCpuModeUsr (regIndex write.id)) write.data := by
    rw [LogicalCpu.write, if_neg (Nat.not_lt.mpr user.1), if_neg user.2.1,
      if_neg user.2.2.1, if_pos user.2.2.2]
  unfold Addressed
  rw [meaning, forall_prop_of_true user]
  generalize archReg armCpuModeUsr (regIndex write.id) = wanted
  cases named : target write.id with
  | outside => simp [cpuExecReg, named]
  | unknown =>
    unfold target at named
    rw [if_neg (Nat.not_lt.mpr user.1), if_neg user.2.1,
      if_neg user.2.2.1, if_pos user.2.2.2] at named
    dsimp only at named
    split_ifs at named
  | cell cell =>
    have status := target_user user named
    rw [cpuExecReg_cell named status]
    simp only [some.injEq, exists_eq_left', Target.cell.injEq]
    by_cases held : ∃ reg, holder cpu.mode reg = cell
    · obtain ⟨reg, rfl⟩ := held
      rw [logical_setData_holder]
      by_cases same : reg = wanted
      · subst same
        simp
      · have apart : holder cpu.mode reg ≠ holder cpu.mode wanted :=
          fun equal => same (holder_injective _ equal)
        rw [LogicalCpu.set_eq_set_iff _ same]
        simp [apart, Cpu.logical]
    · rw [not_exists] at held
      have apart : cell ≠ holder cpu.mode wanted := fun same => held wanted same.symm
      rw [logical_setData_hidden status held, LogicalCpu.set_eq_iff]
      simp [apart, held, Cpu.logical]

theorem cpuExecReg_logical_iff (valid : ValidMode cpu.mode) (asks : AsksValid write) :
    (∃ next, cpuExecReg cpu write = some next ∧
      next.logical = cpu.logical.write write) ↔ Addressed cpu write := by
  by_cases user : IsUser write.id
  · exact cpuExecReg_user_iff user
  · have trivially : Addressed cpu write := fun isUser => (user isUser).elim
    refine iff_of_true ?_ trivially
    unfold LogicalCpu.write
    by_cases small : write.id.toNat < 16
    · rw [if_pos small, cpuExecReg_cell (target_current small) (by simp)]
      refine ⟨_, rfl, ?_⟩
      have written := logical_setData_holder cpu (archReg cpu.mode (regIndex write.id)) write.data
      rwa [holder_archReg] at written
    rw [if_neg small]
    by_cases status : write.id = regidCpsr
    · obtain ⟨next, switched⟩ := switchMode_valid valid (asks status)
      have executed : cpuExecReg cpu write = some (next.setData .cpsr write.data) := by
        have named : target write.id = .cell .cpsr := by
          rw [status]
          rfl
        simp only [cpuExecReg, named, switched, bind_eq_bind, bind_some, Option.pure_def]
      rw [if_pos status]
      exact ⟨_, executed, logical_switch valid (asks status) switched⟩
    rw [if_neg status]
    by_cases saved : write.id = regidSpsr
    · have named : target write.id = .cell .spsr := by
        rw [saved]
        rfl
      rw [if_pos saved, cpuExecReg_cell named (by simp)]
      refine ⟨_, rfl, ?_⟩
      have written := logical_setData_holder cpu (.spsr (bankOf cpu.mode)) write.data
      rwa [holder_spsr] at written
    rw [if_neg saved]
    have plain : ¬ write.id &&& userRegs ≠ 0 := fun bit =>
      user ⟨Nat.le_of_not_lt small, status, saved, bit⟩
    have named : target write.id = .unknown := by
      unfold target
      rw [if_neg small, if_neg status, if_neg saved, if_neg plain]
    rw [if_neg plain, cpuExecReg, named]
    exact ⟨cpu, rfl, rfl⟩

theorem LogicalCpu.write_mode {logical : LogicalCpu} {write : RegWrite}
    (valid : ValidMode logical.mode) (asks : AsksValid write) :
    ValidMode (logical.write write).mode := by
  unfold LogicalCpu.write
  split
  · exact valid
  · split
    · next status => exact asks status
    · split
      · exact valid
      · split
        · exact valid
        · exact valid

/-- While a list of writes is executed, the cells represent the register file
that the writes mean, and the current registers are those of the mode. -/
def Represents (cpu : Cpu) (logical : LogicalCpu) : Prop :=
  cpu.logical = logical ∧
    (∀ index, cpu.data (.reg index) = logical.file (archReg logical.mode index)) ∧
    cpu.data .spsr = logical.file (.spsr (bankOf logical.mode))

theorem represents_iff (cpu : Cpu) (logical : LogicalCpu) :
    Represents cpu logical ↔ cpu.logical = logical := by
  refine ⟨And.left, ?_⟩
  rintro rfl
  exact ⟨rfl, fun index => (logical_current cpu index).symm, (logical_spsr cpu).symm⟩

theorem foldlM_logical_iff (valid : ValidMode cpu.mode)
    {writes : List RegWrite} (asks : ∀ write ∈ writes, AsksValid write) :
    (∀ n, ∃ next, (writes.take n).foldlM cpuExecReg cpu = some next ∧
      next.logical = (writes.take n).foldl LogicalCpu.write cpu.logical) ↔
    ∀ n write before, writes[n]? = some write →
      (writes.take n).foldlM cpuExecReg cpu = some before →
      Addressed before write := by
  induction writes generalizing cpu with
  | nil => simp
  | cons write writes ih =>
    obtain ⟨asksFirst, asksRest⟩ := forall_mem_cons.mp asks
    have first := cpuExecReg_logical_iff valid asksFirst
    have follows : ∀ {next}, cpuExecReg cpu write = some next →
        ∀ n, ((write :: writes).take (n + 1)).foldlM cpuExecReg cpu =
          (writes.take n).foldlM cpuExecReg next := by
      intro next executed n
      rw [take_succ_cons, foldlM_cons, executed]
      rfl
    have rest : ∀ {next}, next.logical = cpu.logical.write write →
        ((∀ n, ∃ last,
          (writes.take n).foldlM cpuExecReg next = some last ∧
            last.logical = (writes.take n).foldl LogicalCpu.write (cpu.logical.write write)) ↔
          ∀ n later before, writes[n]? = some later →
            (writes.take n).foldlM cpuExecReg next = some before →
            Addressed before later) := by
      intro next represented
      have nextValid : ValidMode next.mode := by
        change ValidMode next.logical.mode
        rw [represented]
        exact LogicalCpu.write_mode valid asksFirst
      rw [← represented]
      exact ih nextValid asksRest
    constructor
    · intro always
      obtain ⟨next, executed, represented⟩ := always 1
      have stepped : cpuExecReg cpu write = some next := by
        simpa using executed
      have later : ∀ n, ∃ last,
          (writes.take n).foldlM cpuExecReg next = some last ∧
            last.logical = (writes.take n).foldl LogicalCpu.write (cpu.logical.write write) := by
        intro n
        rw [← follows stepped]
        exact always (n + 1)
      intro n other before found reached
      cases n with
      | zero =>
        cases found
        cases reached
        exact first.mp ⟨next, stepped, represented⟩
      | succ n =>
        rw [follows stepped] at reached
        exact (rest represented).mp later n other before found reached
    · intro addressed n
      obtain ⟨next, executed, represented⟩ := first.mpr (addressed 0 write cpu rfl rfl)
      cases n with
      | zero => exact ⟨cpu, rfl, rfl⟩
      | succ n =>
        rw [follows executed]
        refine (rest represented).mpr ?_ n
        intro m later before found reached
        exact addressed (m + 1) later before found (by rw [follows executed, reached])

theorem foldlM_cpuExec (lists : List ExecReg) (cpu : Cpu) :
    lists.foldlM cpuExec cpu = (lists.flatMap ExecReg.writes).foldlM cpuExecReg cpu := by
  induction lists generalizing cpu with
  | nil => rfl
  | cons regs lists ih =>
    rw [flatMap_cons, foldlM_append, foldlM_cons, cpuExec]
    exact congrArg _ (funext ih)

/-- For every sequence of register lists that asks for modes of the
architecture, the state represents the register file that the writes mean, from
each write to the next, exactly if every write to the user bank is addressed to
the cell that holds its register. -/
theorem register_file_iff (cpu : Cpu) (valid : ValidMode cpu.mode) (lists : List ExecReg)
    (asks : ∀ write ∈ lists.flatMap ExecReg.writes, AsksValid write) :
    (∀ n, ∃ next,
      ((lists.flatMap ExecReg.writes).take n).foldlM cpuExecReg cpu = some next ∧
        Represents next (((lists.flatMap ExecReg.writes).take n).foldl
          LogicalCpu.write cpu.logical)) ↔
    ∀ n write before, (lists.flatMap ExecReg.writes)[n]? = some write →
      ((lists.flatMap ExecReg.writes).take n).foldlM cpuExecReg cpu = some before →
      Addressed before write := by
  simp only [represents_iff]
  exact foldlM_logical_iff valid asks

/-- The stack pointer of the user bank is written. -/
def userStack (value : Word) : ExecReg where
  writes := [⟨0x1D, value⟩]
  fits := by simp

/-- The processor is brought into a mode. -/
def enterMode (mode : Word) : ExecReg where
  writes := [⟨regidCpsr, mode⟩]
  fits := by simp

/-- The register is written in supervisor mode and found in user mode. -/
theorem register_file_iff_supervisor :
    ∃ next, [userStack 5, enterMode armCpuModeUsr].foldlM cpuExec (cpuCreate 0) = some next ∧
      next.data (.reg 13) = 5 := by
  have asks : ∀ write ∈
      [userStack 5, enterMode armCpuModeUsr].flatMap ExecReg.writes,
      AsksValid write := by
    change ∀ write ∈ [⟨0x1D, 5⟩, ⟨regidCpsr, armCpuModeUsr⟩], AsksValid write
    rw [forall_mem_cons, forall_mem_singleton]
    exact ⟨fun status => absurd status (by decide), fun _ => rfl⟩
  obtain ⟨next, executed, represented⟩ :=
    (register_file_iff (cpuCreate 0) rfl
      [userStack 5, enterMode armCpuModeUsr] asks).mpr (by
        intro n write before found reached
        match n with
        | 0 =>
          cases found
          cases reached
          exact fun _ => ⟨.bankedR13 0, rfl, .inl rfl⟩
        | 1 =>
          cases found
          exact fun user => (user.2.1 rfl).elim
        | n + 2 => nomatch found) 2
  refine ⟨next, ?_, ?_⟩
  · rw [foldlM_cpuExec]
    exact executed
  · rw [represented.2.1]
    rfl

/-- In system mode the write does not reach the register. -/
theorem user_stack_lost :
    ∃ next, [enterMode armCpuModeSys, userStack 5].foldlM cpuExec (cpuCreate 0) = some next ∧
      next.data (.reg 13) = 0 ∧
      ((([enterMode armCpuModeSys, userStack 5].flatMap
        ExecReg.writes).foldl LogicalCpu.write (cpuCreate 0).logical).file
          (archReg armCpuModeSys 13)) = 5 :=
  ⟨_, rfl, rfl, rfl⟩

end Reverse.Sherlock
