import Reverse.Sherlock.Memory

/-!
# Recording the history

Delorean keeps every executed instruction and every store as a node of one
doubly linked list.  A node lists what the event wrote; each entry carries the
edge to the node that wrote the same place before.  This file models the
recording half of `delorean_main.c`.
-/

namespace Reverse.Delorean

open Sherlock

/-- `reg_node_t`. -/
structure RegNode where
  id : BitVec 8
  value : Word
  lastWrite : Option NodeId
deriving DecidableEq, Repr

/-- An entry that `malloc` returned and nothing has written yet. -/
def RegNode.unset : RegNode := { id := 0, value := 0, lastWrite := none }

/-- The block `data->reg` points to.  `realloc` releases the block and returns
another one, counted here by `gen`. -/
structure RegBlock where
  gen : Nat
  regs : List RegNode
deriving DecidableEq, Repr

/-- A `reg_node_t*`: the block it was taken from and an offset. -/
structure RegPtr where
  gen : Nat
  index : Nat

def RegPtr.next (pointer : RegPtr) : RegPtr :=
  { pointer with index := pointer.index + 1 }

/-- `malloc(n_reg * sizeof(reg_node_t))`. -/
def RegBlock.alloc (size : Nat) : RegBlock :=
  { gen := 0, regs := List.replicate size .unset }

/-- Assign an entry through a pointer.  A pointer into a released block may
not be used. -/
def RegBlock.store (block : RegBlock) (pointer : RegPtr) (entry : RegNode) : Option RegBlock :=
  if pointer.gen = block.gen ∧ pointer.index < block.regs.length then
    some { block with regs := block.regs.set pointer.index entry }
  else none

/-- `increase_reg_node`. -/
def RegBlock.increase (block : RegBlock) (count : Nat) : RegBlock :=
  { gen := block.gen + 1
    regs := block.regs ++ List.replicate count .unset }

/-- `data_t`.  The identifier of a reset node is never assigned. -/
structure InstData where
  id : Option DevId
  nReg : Nat
  reg : RegBlock
  mem : List NodeId
deriving DecidableEq, Repr

/-- `mem_data_t`.  The first node of a memory is never filled in. -/
structure MemData where
  id : Option DevId
  addr : Word
  value : Word
  lastWrite : Option NodeId
  instr : Option NodeId
deriving DecidableEq, Repr

/-- The union `data` of `inst_node_t`, tagged by the leading type field. -/
inductive NodeData where
  | inst (data : InstData)
  | mem (data : MemData)
  | dev (id : DevId)
deriving DecidableEq, Repr

/-- `inst_node_t`. -/
structure InstNode where
  data : NodeData
  next : Option NodeId
  lastExec : Option NodeId
deriving DecidableEq, Repr

/-- `mem_t` with its `MEMDEV_METADATA`. -/
structure MemDev where
  id : DevId
  lastExec : Option NodeId
  nextExec : Option NodeId

/-- `oracle_t` together with the node heap and the word table it works on.
The arrays `cpu` and `mem` are indexed by device identifier. -/
structure Oracle where
  nCpu : Nat
  cpu : DevId → Cpu
  mem : DevId → MemDev
  lastExec : Option NodeId
  nodes : NodeId → InstNode
  fresh : NodeId
  table : HashTable

namespace Oracle

def setCpu (oracle : Oracle) (id : DevId) (cpu : Cpu) : Oracle :=
  { oracle with cpu := Function.update oracle.cpu id cpu }

def setNode (oracle : Oracle) (node : NodeId) (content : InstNode) : Oracle :=
  { oracle with nodes := Function.update oracle.nodes node content }

/-- Assign the `next` field of a node. -/
def linkNext (oracle : Oracle) (node next : NodeId) : Oracle :=
  oracle.setNode node { oracle.nodes node with next := some next }

/-- Create a node after `last` and make it the current one. -/
def append (oracle : Oracle) (last : NodeId) (data : NodeData) : Oracle :=
  let node := oracle.fresh
  let oracle := oracle.setNode node { data := data, next := none, lastExec := some last }
  let oracle := oracle.linkNext last node
  { oracle with lastExec := some node, fresh := node + 1 }

end Oracle

inductive Comp where
  | cpu (id : DevId)
  | mem (id : DevId)
deriving DecidableEq, Repr

def armRegs : Nat := 37

/-- The entries of a reset node, all pointing back to it. -/
def resetRegs (node : NodeId) : List RegNode :=
  let entry (id : BitVec 8) (value : Word) : RegNode :=
    { id := id, value := value, lastWrite := some node }
  let banks : List (BitVec 8) := [0x10, 0x20, 0x30, 0x40, 0x50]
  [entry regidCpsr (0x400001C0 ||| armCpuModeSvc), entry regidSpsr 0] ++
  (List.range 16).flatMap (fun index =>
    let id := BitVec.ofNat 8 index
    entry id 0 ::
      (if index = 15 then []
       else if 12 < index then banks.map (fun bank => entry (id ||| bank) 0)
       else if 7 < index then [entry (id ||| 0x10) 0]
       else [])) ++
  banks.map (fun bank => entry (bankSpsr ||| bank) 0)

/-- `delorean_pg_comp` on a CPU just made by `cpu_create`, or on a memory. -/
def deloreanPgComp (oracle : Oracle) : Comp → Oracle
  | .cpu id =>
    let node := oracle.fresh
    let reset : InstNode :=
      { data := .inst
          { id := none
            nReg := armRegs
            reg := { gen := 0, regs := resetRegs node }
            mem := [] }
        next := none
        lastExec := some node }
    let created := cpuCreate id
    let cpu : Cpu :=
      { created with
        cell := fun cell =>
          { created.cell cell with lastWrite := some node }
        lastExec := some node }
    let oracle := oracle.setNode node reset
    let oracle :=
      match oracle.lastExec with
      | none => oracle
      | some last => oracle.linkNext last node
    { oracle.setCpu id cpu with
      nCpu := oracle.nCpu + 1
      lastExec := some node
      fresh := node + 1 }
  | .mem id =>
    let node := oracle.fresh
    let first : InstNode :=
      { data := .mem
          { id := none, addr := 0, value := 0
            lastWrite := none, instr := none }
        next := none
        lastExec := none }
    let device : MemDev := { id := id, lastExec := some node, nextExec := none }
    { oracle.setNode node first with
      mem := Function.update oracle.mem id device
      lastExec := some node
      fresh := node + 1 }

/-- `delorean_pg_init`, over the words that `mem_create` loads. -/
def deloreanPgInit (table : HashTable) : Oracle where
  nCpu := 0
  cpu := cpuCreate
  mem := fun id => { id := id, lastExec := none, nextExec := none }
  lastExec := none
  nodes := fun _ => { data := .dev 0, next := none, lastExec := none }
  fresh := 0
  table := table

/-- The tool after all information events. -/
def boot (table : HashTable) (comps : List Comp) : Oracle :=
  comps.foldl deloreanPgComp (deloreanPgInit table)

/-- Store one entry and move the pointer on. -/
def recordEntry (state : RegBlock × RegPtr) (entry : RegNode) : Option (RegBlock × RegPtr) := do
  let block ← state.1.store state.2 entry
  return (block, state.2.next)

/-- `dl_switch_mode`.  `reg_node` is taken before `increase_reg_node`
reallocates the block, and `regs` is only set in the FIQ branches. -/
def dlSwitchMode (cpu : Cpu) (node : NodeId) (block : RegBlock)
    (mode : Word) : Option (Cpu × RegBlock) := do
  let oldMode := cpu.mode
  if oldMode = mode then
    return (cpu, block)
  let start : RegPtr := { gen := block.gen, index := block.regs.length }
  let fiq := decide (oldMode = armCpuModeFiq ∨ mode = armCpuModeFiq)
  let block := block.increase (if fiq then 16 else 6)
  let regs : Option Nat :=
    if fiq then some (if oldMode = armCpuModeFiq then 8 else 0) else none
  -- the loop over r8-r12 walks `regs` from where it points
  let high : List Nat := if fiq then [0, 1, 2, 3, 4] else []
  let bit : BitVec 8 := if oldMode = armCpuModeFiq then 0x00 else 0x10
  let saved : Fin 5 → Cell := if oldMode = armCpuModeFiq then .fiq else .usr
  let (cpu, state) ← high.foldlM (fun (cpu, state) offset => do
      let base ← regs
      let cell := Cell.reg (Fin.ofNat 16 (base + offset))
      let state ← recordEntry state
        { id := BitVec.ofNat 8 (8 + offset) ||| bit
          value := cpu.data cell
          lastWrite := cpu.lastWrite cell }
      let cpu := cpu.setLastWrite (saved (Fin.ofNat 5 offset)) node
      return (cpu.setLastWrite cell node, state))
    (cpu, (block, start))
  let regs := regs.map (· + high.length)
  let bankEntries (cpu : Cpu) (state : RegBlock × RegPtr) (bank : Fin 6)
      (second : Cell) : Option (Cpu × RegBlock × RegPtr) := do
    let at_ ← regs
    let value := cpu.data (.reg (Fin.ofNat 16 at_))
    let number := BitVec.ofNat 8 bank.val
    let state ← recordEntry state
      { id := 13 ||| number, value := value
        lastWrite := cpu.lastWrite (.bankedR13 bank) }
    let cpu := cpu.setLastWrite (.bankedR13 bank) node
    let state ← recordEntry state
      { id := 14 ||| number, value := value
        lastWrite := cpu.lastWrite second }
    let cpu := cpu.setLastWrite (.bankedR14 bank) node
    let state ← recordEntry state
      { id := bankSpsr ||| (number <<< 4), value := value
        lastWrite := cpu.lastWrite (.bankedSpsr bank) }
    return (cpu.setLastWrite (.bankedSpsr bank) node, state)
  let bank ← cpuBank oldMode
  let (cpu, state) ← bankEntries cpu state bank (.bankedR14 bank)
  let bank ← cpuBank mode
  -- the entry for r14 of the new mode takes the edge of r13
  let (cpu, state) ← bankEntries cpu state bank (.bankedR13 bank)
  return (cpu, state.1)

/-- One round of the loop of `delorean_pg_exec_cpu`.  An unknown register
destroys the node that the oracle already points to. -/
def recordReg (node : NodeId) (write : RegWrite)
    (state : Cpu × RegBlock × RegPtr) : Option (Cpu × RegBlock × RegPtr) :=
  let (cpu, block, pointer) := state
  match target write.id with
  | .cell .cpsr => do
      let block ← block.store pointer
        { id := regidCpsr, value := write.data
          lastWrite := cpu.lastWrite .cpsr }
      let cpu := cpu.setLastWrite .cpsr node
      let (cpu, block) ← dlSwitchMode cpu node block (write.data &&& cpsrModeMask)
      return (cpu, block, pointer.next)
  | .cell cell => do
      let block ← block.store pointer
        { id := write.id, value := write.data
          lastWrite := cpu.lastWrite cell }
      return (cpu.setLastWrite cell node, block, pointer.next)
  | .unknown => none
  | .outside => none

def recordRegs (node : NodeId) :
    List RegWrite → Cpu × RegBlock × RegPtr → Option (Cpu × RegBlock × RegPtr)
  | [], state => some state
  | write :: writes, state =>
    (recordReg node write state).bind (recordRegs node writes)

def deloreanPgExecCpu (oracle : Oracle) (id : DevId) (regs : ExecReg) : Option Oracle := do
  let last ← oracle.lastExec
  let node := oracle.fresh
  let (cpu, block, _) ← recordRegs node regs.writes
    (oracle.cpu id, RegBlock.alloc regs.writes.length, ⟨0, 0⟩)
  let data : InstData :=
    { id := some (oracle.cpu id).id
      nReg := block.regs.length
      reg := block
      mem := [] }
  return (oracle.append last (.inst data)).setCpu id cpu

/-- `cpu_exec`, then the plugin, as at the end of `cpu_go_inst`. -/
def execAndRecord (oracle : Oracle) (id : DevId) (regs : ExecReg) : Option Oracle := do
  let cpu ← cpuExec (oracle.cpu id) regs
  deloreanPgExecCpu (oracle.setCpu id cpu) id regs

def cpuGoInst (oracle : Oracle) (id : DevId) (event : InstEvent) : Option Oracle := do
  let regs ← event.execReg
  execAndRecord oracle id regs

/-- What `mem_ret_ack` takes from the acknowledged request; `width` is the
traced width plus one, and `inst` the node of the requesting instruction. -/
structure StoreEvent where
  mem : DevId
  addr : Word
  data : Nat → Byte
  width : Nat
  inst : Option NodeId

/-- The counting half of `add_mem_node`: the counter has eight bits and is
used, decremented, as an index. -/
def addMemNode (oracle : Oracle) (inst node : NodeId) : Option Oracle :=
  match (oracle.nodes inst).data with
  | .inst data =>
    if data.mem.length < 255 then
      some (oracle.setNode inst
        { oracle.nodes inst with
          data := .inst { data with mem := data.mem ++ [node] } })
    else none
  | _ => some oracle

def deloreanPgExecMem (oracle : Oracle) (mem : DevId) (key : Word)
    (inst : Option NodeId) (addr : Word) : Option Oracle := do
  let last ← oracle.lastExec
  let inst ← inst
  let node := oracle.fresh
  let oracle ← addMemNode oracle inst node
  let item := oracle.table.get key
  let isInst :=
    match (oracle.nodes inst).data with
    | .inst _ => true
    | _ => false
  let data : MemData :=
    { id := some (oracle.mem mem).id
      addr := addr
      value := item.value
      lastWrite := item.lastWrite
      instr := if isInst then some inst else none }
  return { oracle.append last (.mem data) with
    table := oracle.table.put key { item with lastWrite := some node } }

/-- `mem_ret_ack` on a write request: `mem_exec`, then the plugin. -/
def memRetAck (oracle : Oracle) (store : StoreEvent) : Option Oracle :=
  let table := memExec oracle.table store.addr store.data store.width
  deloreanPgExecMem { oracle with table := table } store.mem
    (memKey store.addr) store.inst store.addr

def deloreanPgExecDev (oracle : Oracle) (id : DevId) : Option Oracle := do
  let last ← oracle.lastExec
  return oracle.append last (.dev (oracle.mem id).id)

end Reverse.Delorean
