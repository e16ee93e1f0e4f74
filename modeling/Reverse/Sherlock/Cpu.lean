import Mathlib.Data.Fintype.Basic

/-!
# The traced ARM processor

The register file of `core_cpu.c`: the current registers, the two status
registers and the bank copies, each one a `reg_t` that also carries the edge
to the history node of its last write.  A computation is `none` where the C
program leaves its arrays.
-/

namespace Reverse.Sherlock

abbrev Word := BitVec 32

/-- `hwe_id_dev_t`. -/
abbrev DevId := BitVec 8

/-- The address of an `inst_node_t`. -/
abbrev NodeId := Nat

/-- The cells of `cpu_t`, one for each `reg_t`. -/
inductive Cell where
  | reg (index : Fin 16)
  | cpsr
  | spsr
  | bankedSpsr (bank : Fin 6)
  | bankedR13 (bank : Fin 6)
  | bankedR14 (bank : Fin 6)
  | usr (index : Fin 5)
  | fiq (index : Fin 5)
deriving DecidableEq, Repr

-- Named, so that a register number has the same proof in every module.
instance registers_ne_zero : @NeZero Nat Zero.ofOfNat0 16 := ⟨by decide⟩

instance banks_ne_zero : @NeZero Nat Zero.ofOfNat0 6 := ⟨by decide⟩

instance saved_ne_zero : @NeZero Nat Zero.ofOfNat0 5 := ⟨by decide⟩

/-- `reg_t` with its `REG_METADATA`. -/
structure Reg where
  data : Word
  lastWrite : Option NodeId
deriving DecidableEq, Repr

/-- `cpu_t` with its `CPU_METADATA`.  The field `mode` is never used. -/
structure Cpu where
  id : DevId
  cell : Cell → Reg
  lastExec : Option NodeId
  nextExec : Option NodeId

namespace Cpu

def data (cpu : Cpu) (cell : Cell) : Word := (cpu.cell cell).data

def lastWrite (cpu : Cpu) (cell : Cell) : Option NodeId :=
  (cpu.cell cell).lastWrite

def setCell (cpu : Cpu) (cell : Cell) (content : Reg) : Cpu :=
  { cpu with cell := Function.update cpu.cell cell content }

def setData (cpu : Cpu) (cell : Cell) (value : Word) : Cpu :=
  cpu.setCell cell { cpu.cell cell with data := value }

def setLastWrite (cpu : Cpu) (cell : Cell) (node : NodeId) : Cpu :=
  cpu.setCell cell { cpu.cell cell with lastWrite := some node }

@[simp] theorem setCell_cell (cpu : Cpu) (cell : Cell) (content : Reg) :
    (cpu.setCell cell content).cell = Function.update cpu.cell cell content := rfl

@[simp] theorem setCell_id (cpu : Cpu) (cell : Cell) (content : Reg) :
    (cpu.setCell cell content).id = cpu.id := rfl

@[simp] theorem setData_id (cpu : Cpu) (cell : Cell) (value : Word) :
    (cpu.setData cell value).id = cpu.id := rfl

@[simp] theorem setLastWrite_id (cpu : Cpu) (cell : Cell) (node : NodeId) :
    (cpu.setLastWrite cell node).id = cpu.id := rfl

theorem setData_data (cpu : Cpu) (cell other : Cell) (value : Word) :
    (cpu.setData cell value).data other = if other = cell then value else cpu.data other := by
  by_cases same : other = cell
  · subst other
    simp [setData, data]
  · simp [setData, data, same]

@[simp] theorem setData_lastWrite (cpu : Cpu) (cell : Cell) (value : Word) :
    (cpu.setData cell value).lastWrite = cpu.lastWrite := by
  funext other
  by_cases same : other = cell
  · subst other
    simp [setData, lastWrite]
  · simp [setData, lastWrite, same]

@[simp] theorem setLastWrite_data (cpu : Cpu) (cell : Cell) (node : NodeId) :
    (cpu.setLastWrite cell node).data = cpu.data := by
  funext other
  by_cases same : other = cell
  · subst other
    simp [setLastWrite, data]
  · simp [setLastWrite, data, same]

theorem setLastWrite_lastWrite (cpu : Cpu) (cell other : Cell) (node : NodeId) :
    (cpu.setLastWrite cell node).lastWrite other =
      if other = cell then some node else cpu.lastWrite other := by
  by_cases same : other = cell
  · subst other
    simp [setLastWrite, lastWrite]
  · simp [setLastWrite, lastWrite, same]

theorem cell_eq {left right : Cpu} {cell : Cell} (sameData : left.data cell = right.data cell)
    (sameEdge : left.lastWrite cell = right.lastWrite cell) :
    left.cell cell = right.cell cell := by
  cases leftCell : left.cell cell
  cases rightCell : right.cell cell
  simp_all [data, lastWrite]

end Cpu

def regidCpsr : BitVec 8 := 0xFF
def regidSpsr : BitVec 8 := 0xFE
def userRegs : BitVec 8 := 0x10
def fiqModeBit : BitVec 8 := 0x20
def bankSpsr : BitVec 8 := 0x40
def cpsrModeMask : Word := 0x1f

def armCpuModeUsr : Word := 0x10
def armCpuModeFiq : Word := 0x11
def armCpuModeIrq : Word := 0x12
def armCpuModeSvc : Word := 0x13
def armCpuModeAbt : Word := 0x17
def armCpuModeUnd : Word := 0x1b
def armCpuModeSys : Word := 0x1f

/-- What a register identifier of an instruction stands for.  The identifier
tests are the same in `cpu_exec` and in `delorean_pg_exec_cpu`. -/
inductive Target where
  | cell (cell : Cell)
  /-- The index leaves `usr_regs`. -/
  | outside
  /-- "Not recognized register". -/
  | unknown
deriving DecidableEq, Repr

/-- `id & 0x0F`. -/
def regIndex (id : BitVec 8) : Fin 16 :=
  ⟨id.toNat % 16, Nat.mod_lt _ (by decide)⟩

def target (id : BitVec 8) : Target :=
  if id.toNat < 16 then .cell (.reg (regIndex id))
  else if id = regidCpsr then .cell .cpsr
  else if id = regidSpsr then .cell .spsr
  else if id &&& userRegs ≠ 0 then
    let index := regIndex id
    if index.val = 13 then .cell (.bankedR13 0)
    else if index.val = 14 then .cell (.bankedR14 0)
    else if 8 ≤ index.val ∧ id &&& fiqModeBit ≠ 0 then
      if inside : index.val - 8 < 5 then .cell (.usr ⟨index.val - 8, inside⟩)
      else .outside
    else .cell (.reg index)
  else .unknown

theorem target_eq_cpsr {id : BitVec 8} (named : target id = .cell .cpsr) : id = regidCpsr := by
  unfold target at named
  dsimp only at named
  split_ifs at named <;> first | assumption | cases named

/-- One pair of `exec_reg_t.id` and `exec_reg_t.data`. -/
structure RegWrite where
  id : BitVec 8
  data : Word
deriving DecidableEq, Repr

/-- `exec_reg_t`: at most eighteen pairs, the first `nreg` of them used. -/
structure ExecReg where
  writes : List RegWrite
  fits : writes.length ≤ 18

/-- `cpu_bank`; `none` stands for the answer `-1`, which every caller uses as
an array index. -/
def cpuBank (mode : Word) : Option (Fin 6) :=
  if mode = armCpuModeUsr then some 0
  else if mode = armCpuModeSys then some 0
  else if mode = armCpuModeSvc then some 1
  else if mode = armCpuModeAbt then some 2
  else if mode = armCpuModeUnd then some 3
  else if mode = armCpuModeIrq then some 4
  else if mode = armCpuModeFiq then some 5
  else none

/-- `memcpy` of `regs + 8` over five saved registers, edges included. -/
def Cpu.saveHigh (cpu : Cpu) (saved : Fin 5 → Cell) : Cpu :=
  { cpu with cell := fun cell =>
      if cell = saved 0 then cpu.cell (.reg 8)
      else if cell = saved 1 then cpu.cell (.reg 9)
      else if cell = saved 2 then cpu.cell (.reg 10)
      else if cell = saved 3 then cpu.cell (.reg 11)
      else if cell = saved 4 then cpu.cell (.reg 12)
      else cpu.cell cell }

/-- `memcpy` of five saved registers over `regs + 8`, edges included. -/
def Cpu.loadHigh (cpu : Cpu) (saved : Fin 5 → Cell) : Cpu :=
  { cpu with cell := fun cell =>
      match cell with
      | .reg 8 => cpu.cell (saved 0)
      | .reg 9 => cpu.cell (saved 1)
      | .reg 10 => cpu.cell (saved 2)
      | .reg 11 => cpu.cell (saved 3)
      | .reg 12 => cpu.cell (saved 4)
      | other => cpu.cell other }

def Cpu.mode (cpu : Cpu) : Word := cpu.data .cpsr &&& cpsrModeMask

def switchMode (cpu : Cpu) (mode : Word) : Option Cpu := do
  let oldMode := cpu.mode
  if mode = oldMode then
    return cpu
  let cpu :=
    if oldMode = armCpuModeFiq then (cpu.saveHigh .fiq).loadHigh .usr
    else if mode = armCpuModeFiq then (cpu.saveHigh .usr).loadHigh .fiq
    else cpu
  let bank ← cpuBank oldMode
  let cpu := cpu.setData (.bankedR13 bank) (cpu.data (.reg 13))
  let cpu := cpu.setData (.bankedR14 bank) (cpu.data (.reg 14))
  let cpu := cpu.setData (.bankedSpsr bank) (cpu.data .spsr)
  let bank ← cpuBank mode
  let cpu := cpu.setData (.reg 13) (cpu.data (.bankedR13 bank))
  let cpu := cpu.setData (.reg 14) (cpu.data (.bankedR14 bank))
  return cpu.setCell .spsr (cpu.cell (.bankedSpsr bank))

/-- One round of the loop of `cpu_exec`. -/
def cpuExecReg (cpu : Cpu) (write : RegWrite) : Option Cpu :=
  match target write.id with
  | .cell .cpsr => do
      let cpu ← switchMode cpu (write.data &&& cpsrModeMask)
      return cpu.setData .cpsr write.data
  | .cell cell => some (cpu.setData cell write.data)
  | .unknown => some cpu
  | .outside => none

def cpuExec (cpu : Cpu) (regs : ExecReg) : Option Cpu :=
  regs.writes.foldlM cpuExecReg cpu

def cpuCreate (id : DevId) : Cpu where
  id := id
  cell := fun cell =>
    { data := if cell = .cpsr then 0x400001C0 ||| armCpuModeSvc else 0
      lastWrite := none }
  lastExec := none
  nextExec := none

/-- The fields of an `HWE_INST32` event that `cpu_go_inst` reads. -/
structure InstEvent where
  pc : Word
  exec : Bool
  jump : Bool
  jumpPc : Word
  regs : List RegWrite
  bounded : regs.length ≤ 18

/-- The register list built by `cpu_go_inst`: the listed registers, then the
program counter.  `none` when the counter does not fit behind them. -/
def InstEvent.execReg (event : InstEvent) : Option ExecReg :=
  if event.exec then
    if fits : event.regs.length < 18 then
      some
        { writes := event.regs ++
            [{ id := 15
               data := if event.jump then event.jumpPc else event.pc + 4 }]
          fits := by simp only [List.length_append, List.length_singleton]
                     exact fits }
    else none
  else
    some { writes := [{ id := 15, data := event.pc + 4 }], fits := by simp }

end Reverse.Sherlock
