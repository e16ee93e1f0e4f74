import Reverse.Delorean.History

/-!
# Moving through the history

The replay half of `delorean_main.c`.  Reversing an instruction restores every
listed register from the node its edge names; going forward writes the listed
values again.  Both only look at `r0`-`r15`, `CPSR` and `SPSR`.
-/

namespace Reverse.Delorean

open Sherlock Function

/-- The cell that `cpu_reverse_exec` and `cpu_forward_exec` work on. -/
def archCell (id : BitVec 8) : Option Cell :=
  if id.toNat < 16 then some (.reg (regIndex id))
  else if id = regidCpsr then some .cpsr
  else if id = regidSpsr then some .spsr
  else none

/-- The first entry for a register among the first `n_reg` ones. -/
def InstData.entry? (data : InstData) (id : BitVec 8) : Option RegNode :=
  (data.reg.regs.take data.nReg).find? (fun entry => entry.id = id)

/-- The entry for a register in a node. -/
def entryAt? (nodes : NodeId → InstNode) (node : NodeId) (id : BitVec 8) : Option RegNode :=
  match (nodes node).data with
  | .inst data => data.entry? id
  | _ => none

/-- `get_reg_last_write`; without a matching entry the register is left as it
is. -/
def getRegLastWrite (nodes : NodeId → InstNode) (lastWrite : NodeId)
    (old : Reg) (id : BitVec 8) : Reg :=
  match entryAt? nodes lastWrite id with
  | some entry => { data := entry.value, lastWrite := entry.lastWrite }
  | none => old

/-- One round of the loop of `cpu_reverse_exec`. -/
def reverseReg (nodes : NodeId → InstNode) (cpu : Cpu) (entry : RegNode) : Option Cpu :=
  match archCell entry.id with
  | some cell => do
      let lastWrite ← entry.lastWrite
      return cpu.setCell cell (getRegLastWrite nodes lastWrite (cpu.cell cell) entry.id)
  | none => some cpu

def cpuReverseExec (nodes : NodeId → InstNode) (data : InstData) (cpu : Cpu) : Option Cpu :=
  (data.reg.regs.take data.nReg).foldlM (reverseReg nodes) cpu

/-- One round of the loop of `cpu_forward_exec`; `set_reg_next_write`. -/
def forwardReg (node : NodeId) (cpu : Cpu) (entry : RegNode) : Cpu :=
  match archCell entry.id with
  | some cell =>
    cpu.setCell cell { data := entry.value, lastWrite := some node }
  | none => cpu

def cpuForwardExec (node : NodeId) (data : InstData) (cpu : Cpu) : Cpu :=
  (data.reg.regs.take data.nReg).foldl (forwardReg node) cpu

def memReverseExec (table : HashTable) (data : MemData) : HashTable :=
  match data.lastWrite with
  | none => table.put data.addr { value := 0, lastWrite := none }
  | some edge =>
    table.put data.addr { value := data.value, lastWrite := some edge }

def memForwardExec (table : HashTable) (data : MemData) : HashTable :=
  table.put data.addr { value := data.value, lastWrite := data.lastWrite }

/-- What one replay step tells the debugger, `gdb_param_t` with its type. -/
inductive Seen where
  | cpu (id : DevId) (pc : Word)
  | mem (id : DevId) (addr val : Word)
  | periph
deriving DecidableEq, Repr

/-- `oracle_reverse_exec`. -/
def oracleReverseExec (oracle : Oracle) : Option (Oracle × Seen) := do
  let last ← oracle.lastExec
  match (oracle.nodes last).data with
  | .inst data => do
      let id ← data.id
      let cpu := { oracle.cpu id with lastExec := some last }
      let cpu ← cpuReverseExec oracle.nodes data cpu
      return ({ oracle.setCpu id cpu with
          lastExec := (oracle.nodes last).lastExec },
        .cpu cpu.id (cpu.data (.reg 15)))
  | .mem data => do
      let id ← data.id
      let device := { oracle.mem id with lastExec := some last }
      return ({ oracle with
          mem := update oracle.mem id device
          table := memReverseExec oracle.table data
          lastExec := (oracle.nodes last).lastExec },
        .mem device.id data.addr data.value)
  | .dev id => do
      let device := { oracle.mem id with lastExec := some last }
      return ({ oracle with
          mem := update oracle.mem id device
          lastExec := (oracle.nodes last).lastExec },
        .periph)

/-- `oracle_forward_exec`. -/
def oracleForwardExec (oracle : Oracle) : Option (Oracle × Seen) := do
  let last ← oracle.lastExec
  let next ← (oracle.nodes last).next
  match (oracle.nodes next).data with
  | .inst data => do
      let id ← data.id
      let cpu := { oracle.cpu id with nextExec := some next }
      let cpu := cpuForwardExec next data cpu
      return ({ oracle.setCpu id cpu with lastExec := some next }, .cpu cpu.id (cpu.data (.reg 15)))
  | .mem data => do
      let id ← data.id
      let device := { oracle.mem id with lastExec := some next }
      return ({ oracle with
          mem := update oracle.mem id device
          table := memForwardExec oracle.table data
          lastExec := some next },
        .mem device.id data.addr data.value)
  | .dev id => do
      let device := { oracle.mem id with nextExec := some next }
      return ({ oracle with
          mem := update oracle.mem id device
          lastExec := some next },
        .periph)

/-- `oracle_get_trace`: nothing recorded comes after the current node. -/
def oracleGetTrace (oracle : Oracle) : Bool :=
  match oracle.lastExec with
  | some last => (oracle.nodes last).next.isNone
  | none => false

/-- Reverse or forward execution without the answer to the debugger. -/
def reverseStep (oracle : Oracle) : Option Oracle :=
  (oracleReverseExec oracle).map Prod.fst

def forwardStep (oracle : Oracle) : Option Oracle :=
  (oracleForwardExec oracle).map Prod.fst

end Reverse.Delorean
