import Reverse.Library.Wire

/-!
# Events of a trace

The event containers of the `hwe_*` headers, with their packed structures, and
the three functions that have to agree on them: `hwe_sizeof`, `hwe_write` and
`hwe_read`.  Bits that a structure leaves unused are copied with it, so they
are fields here too.
-/

namespace Reverse.Decopus

open Wire

abbrev Word := BitVec 32

def hweVersion : BitVec 16 := 256 * 1 + 3

/-- The structure `hwe_id_t`. -/
structure HweId where
  devid : BitVec 8
  index : BitVec 64
  deriving DecidableEq

def HweId.layout : HweId ≃ BitVec (8 * 9) :=
  Equiv.trans
    { toFun := fun id => (id.devid, id.index)
      invFun := fun fields => ⟨fields.1, fields.2⟩
      left_inv := fun _ => rfl
      right_inv := fun _ => rfl }
    (packed (field 8) (field 64) :)

/-- The structure `hwe_head_t`. -/
structure Head where
  type : BitVec 4
  rid : BitVec 4
  ndates : BitVec 2
  nrefs : BitVec 6
  expected : BitVec 32
  nchild : BitVec 32
  comChild : BitVec 32
  deriving DecidableEq

def Head.layout : Head ≃ BitVec (8 * 14) :=
  Equiv.trans
    { toFun := fun head =>
        (head.type, head.rid, head.ndates, head.nrefs, head.expected, head.nchild, head.comChild)
      invFun := fun (type, rid, ndates, nrefs, expected, nchild, comChild) =>
        ⟨type, rid, ndates, nrefs, expected, nchild, comChild⟩
      left_inv := fun _ => rfl
      right_inv := fun _ => rfl }
    (packed (field 4) (packed (field 4) (packed (field 2) (packed (field 6)
      (packed (field 32) (packed (field 32) (field 32)))))) :)

/-- The structure `hwe_mem32_t`. -/
structure Mem32 where
  access : BitVec 4
  inst : BitVec 1
  condfailed : BitVec 1
  usedata : BitVec 1
  rcvack : BitVec 1
  width : BitVec 8
  addr : Word
  cpureqWidth : BitVec 8
  cpureqAddr : Word
  deriving DecidableEq

def Mem32.layout : Mem32 ≃ BitVec (8 * 11) :=
  Equiv.trans
    { toFun := fun body =>
        (body.access, body.inst, body.condfailed, body.usedata, body.rcvack,
          body.width, body.addr, body.cpureqWidth, body.cpureqAddr)
      invFun := fun (access, inst, condfailed, usedata, rcvack, width, addr,
          cpureqWidth, cpureqAddr) =>
        ⟨access, inst, condfailed, usedata, rcvack, width, addr, cpureqWidth, cpureqAddr⟩
      left_inv := fun _ => rfl
      right_inv := fun _ => rfl }
    (packed (field 4) (packed (field 1) (packed (field 1) (packed (field 1)
      (packed (field 1) (packed (field 8) (packed (field 32) (packed (field 8) (field 32)))))))) :)

def Mem32.dataSize (body : Mem32) : Nat :=
  (1 + body.width.toNat) * body.usedata.toNat

/-- The structure `hwe_ack_t`. -/
structure Ack where
  access : BitVec 4
  unused : BitVec 4
  width : BitVec 8
  addr : Word
  deriving DecidableEq

def Ack.layout : Ack ≃ BitVec (8 * 6) :=
  Equiv.trans
    { toFun := fun body => (body.access, body.unused, body.width, body.addr)
      invFun := fun (access, unused, width, addr) =>
        ⟨access, unused, width, addr⟩
      left_inv := fun _ => rfl
      right_inv := fun _ => rfl }
    (packed (field 4) (packed (field 4) (packed (field 8) (field 32))) :)

/-- The structure `hwe_memglobal_t`, which is not packed. -/
structure MemGlobal where
  access : BitVec 4
  unused : BitVec 28
  deriving DecidableEq

def MemGlobal.layout : MemGlobal ≃ BitVec (8 * 4) :=
  Equiv.trans
    { toFun := fun body => (body.access, body.unused)
      invFun := fun (access, unused) => ⟨access, unused⟩
      left_inv := fun _ => rfl
      right_inv := fun _ => rfl }
    (packed (field 4) (field 28) :)

/-- The structure `hwe_inst32_t`. -/
structure Inst32 where
  pc : Word
  width : BitVec 4
  abort : BitVec 1
  jump : BitVec 1
  regdata : BitVec 1
  exec : BitVec 1
  unalign : BitVec 1
  cycles : BitVec 8
  imem : BitVec 4
  dmem : BitVec 4
  excl : BitVec 2
  str : BitVec 1
  unused : BitVec 4
  nregs : Word
  regdst : Word
  instr : Word
  deriving DecidableEq

def Inst32.layout : Inst32 ≃ BitVec (8 * 20) :=
  Equiv.trans
    { toFun := fun body =>
        (body.pc, body.width, body.abort, body.jump, body.regdata, body.exec,
          body.unalign, body.cycles, body.imem, body.dmem, body.excl,
          body.str, body.unused, body.nregs, body.regdst, body.instr)
      invFun := fun (pc, width, abort, jump, regdata, exec, unalign, cycles,
          imem, dmem, excl, str, unused, nregs, regdst, instr) =>
        ⟨pc, width, abort, jump, regdata, exec, unalign, cycles, imem, dmem,
          excl, str, unused, nregs, regdst, instr⟩
      left_inv := fun _ => rfl
      right_inv := fun _ => rfl }
    (packed (field 32) (packed (field 4) (packed (field 1) (packed (field 1)
      (packed (field 1) (packed (field 1) (packed (field 1) (packed (field 8)
        (packed (field 4) (packed (field 4) (packed (field 2)
          (packed (field 1) (packed (field 4) (packed (field 32)
            (packed (field 32) (field 32))))))))))))))) :)

/-- The size of the register data, in the 32-bit arithmetic of the source. -/
def Inst32.regDataSize (body : Inst32) : Nat := (4 * body.nregs).toNat

theorem Inst32.four_mul_regDataSize (body : Inst32) :
    4 * (body.regDataSize / 4) = body.regDataSize := by
  have modulo : body.regDataSize = 4 * body.nregs.toNat % 2 ^ 32 := BitVec.toNat_mul 4 body.nregs
  omega

def Inst32.jumpSize (body : Inst32) : Nat :=
  if body.jump ≠ 0 then 4 else 0

/-- The structure `hwe_excep32_t`. -/
structure Excep32 where
  retpc : Word
  deriving DecidableEq

def Excep32.layout : Excep32 ≃ BitVec (8 * 4) :=
  { toFun := fun body => body.retpc
    invFun := fun retpc => ⟨retpc⟩
    left_inv := fun _ => rfl
    right_inv := fun _ => rfl }

/-- The structure `hwe_cpu32_t`. -/
structure Cpu32 where
  access : BitVec 2
  ioMem : BitVec 1
  inst : BitVec 1
  unused : BitVec 28
  deriving DecidableEq

def Cpu32.layout : Cpu32 ≃ BitVec (8 * 4) :=
  Equiv.trans
    { toFun := fun body => (body.access, body.ioMem, body.inst, body.unused)
      invFun := fun (access, ioMem, inst, unused) =>
        ⟨access, ioMem, inst, unused⟩
      left_inv := fun _ => rfl
      right_inv := fun _ => rfl }
    (packed (field 2) (packed (field 1) (packed (field 1) (field 28))) :)

/-- The type `hwe_device_t`. -/
inductive Device where
  | processor
  | memory
  | cache
  | writebuffer
  | peripheral
  deriving DecidableEq

def Device.code : Device → BitVec 8
  | .processor => 0
  | .memory => 1
  | .cache => 2
  | .writebuffer => 3
  | .peripheral => 4

def Device.ofCode (code : BitVec 8) : Option Device :=
  [Device.processor, .memory, .cache, .writebuffer, .peripheral].find? (·.code == code)

def hweDeviceSizeof : Device → Nat
  | .processor => 1
  | .memory => 9
  | .cache => 6
  | .writebuffer => 0
  | .peripheral => 0

/-- The structure `hwe_memory_t`. -/
structure Memory where
  baseaddr : Word
  endaddr : Word
  cached : BitVec 1
  unused : BitVec 7
  deriving DecidableEq

def Memory.layout : Memory ≃ BitVec (8 * 9) :=
  Equiv.trans
    { toFun := fun body =>
        (body.baseaddr, body.endaddr, body.cached, body.unused)
      invFun := fun (baseaddr, endaddr, cached, unused) =>
        ⟨baseaddr, endaddr, cached, unused⟩
      left_inv := fun _ => rfl
      right_inv := fun _ => rfl }
    (packed (field 32) (packed (field 32) (packed (field 1) (field 7))) :)

/-- The structure `hwe_cache_t`. -/
structure Cache where
  numset : BitVec 16
  numline : BitVec 16
  numbyte : BitVec 16
  deriving DecidableEq

def Cache.layout : Cache ≃ BitVec (8 * 6) :=
  Equiv.trans
    { toFun := fun body => (body.numset, body.numline, body.numbyte)
      invFun := fun (numset, numline, numbyte) => ⟨numset, numline, numbyte⟩
      left_inv := fun _ => rfl
      right_inv := fun _ => rfl }
    (packed (field 16) (packed (field 16) (field 16)) :)

/-- The union `hwe_devices_u`, with the device that says how to read it. -/
inductive Detail where
  | processor (cpuid : BitVec 8)
  | memory (body : Memory)
  | cache (body : Cache)
  | writebuffer
  | peripheral
  deriving DecidableEq

def Detail.device : Detail → Device
  | .processor _ => .processor
  | .memory _ => .memory
  | .cache _ => .cache
  | .writebuffer => .writebuffer
  | .peripheral => .peripheral

def Detail.bytes : Detail → List Byte
  | .processor cpuid => [cpuid]
  | .memory body => bytesOf Memory.layout body
  | .cache body => bytesOf Cache.layout body
  | .writebuffer => []
  | .peripheral => []

def Detail.ofBytes : Device → List Byte → Detail
  | .processor, bytes => .processor (bytes.headD 0)
  | .memory, bytes => .memory (structOf Memory.layout bytes)
  | .cache, bytes => .cache (structOf Cache.layout bytes)
  | .writebuffer, _ => .writebuffer
  | .peripheral, _ => .peripheral

/-- The structure `hwe_info_t`. -/
structure Info where
  version : BitVec 16
  device : BitVec 8
  nsize : BitVec 8
  deriving DecidableEq

def Info.layout : Info ≃ BitVec (8 * 4) :=
  Equiv.trans
    { toFun := fun body => (body.version, body.device, body.nsize)
      invFun := fun (version, device, nsize) => ⟨version, device, nsize⟩
      left_inv := fun _ => rfl
      right_inv := fun _ => rfl }
    (packed (field 16) (packed (field 8) (field 8)) :)

/-- The parts of a `hwe_info_cont` after its header. -/
@[ext]
structure InfoCont where
  version : BitVec 16
  nsize : BitVec 8
  name : List Byte
  detail : Detail
  nameSize : name.length = nsize.toNat
  deriving DecidableEq

def InfoCont.body (info : InfoCont) : Info :=
  ⟨info.version, info.detail.device.code, info.nsize⟩

/-- The parts of a `hwe_mem_cont` of type `HWE_MEM32` after its header. -/
@[ext]
structure MemCont where
  body : Mem32
  data : List Byte
  dataSize : data.length = body.dataSize
  deriving DecidableEq

/-- The parts of a `hwe_inst_cont` after its header.  The address `jump_pc` is
only there for jumps. -/
@[ext]
structure InstCont where
  body : Inst32
  jumpPc : Option Word
  regId : List Byte
  regData : List Word
  jumps : jumpPc.isSome = (body.jump != 0)
  regIdSize : regId.length = body.nregs.toNat
  regDataSize : 4 * regData.length = body.regDataSize
  deriving DecidableEq

/-- What follows the header, for each type of event that can be read. -/
inductive Body where
  | id
  | null
  | info (info : InfoCont)
  | spread
  | memgl (body : MemGlobal)
  | mem32 (mem : MemCont)
  | memack (body : Ack)
  | inst32 (inst : InstCont)
  | excep32 (body : Excep32)
  | cpuMem (body : Cpu32)
  | cpuIo (body : Cpu32)
  deriving DecidableEq

/-- The code of `hwe_type_t`. -/
def Body.type : Body → BitVec 4
  | .id => 0
  | .null => 1
  | .info _ => 2
  | .spread => 3
  | .memgl _ => 4
  | .mem32 _ => 5
  | .memack _ => 6
  | .inst32 _ => 8
  | .excep32 _ => 9
  | .cpuMem _ => 10
  | .cpuIo _ => 11

/-- The structure `hwe_head_cont` but for the type of the event, with the ids
of its references in place of the references. -/
@[ext]
structure HeadCont where
  id : HweId
  rid : BitVec 4
  expected : BitVec 32
  nchild : BitVec 32
  comChild : BitVec 32
  ndates : BitVec 2
  dates : List (BitVec 64)
  nrefs : BitVec 6
  refs : List HweId
  datesSize : dates.length = ndates.toNat
  refsSize : refs.length = nrefs.toNat
  deriving DecidableEq

theorem noName_size : ([] : List Byte).length = (0 : BitVec 8).toNat := rfl

theorem noDates_size : ([] : List (BitVec 64)).length = (0 : BitVec 2).toNat :=
  rfl

theorem noRefs_size : ([] : List HweId).length = (0 : BitVec 6).toNat := rfl

/-- The union `hwe_cont`. -/
structure Cont where
  common : HeadCont
  body : Body
  deriving DecidableEq

def Cont.head (cont : Cont) : Head :=
  ⟨cont.body.type, cont.common.rid, cont.common.ndates, cont.common.nrefs,
    cont.common.expected, cont.common.nchild, cont.common.comChild⟩

def hweHeadSizeof (cont : Cont) : Nat :=
  1 + 14 + 8 * cont.common.ndates.toNat + 9 * cont.common.nrefs.toNat

def hweIdSizeof : Nat := 1 + 14 + 8

def hweInfoSizeof (cont : Cont) (info : InfoCont) : Nat :=
  hweHeadSizeof cont + 4 + info.nsize.toNat + hweDeviceSizeof info.detail.device

def hweMemglobalSizeof (cont : Cont) : Nat := hweHeadSizeof cont + 4

def hweMem32Sizeof (cont : Cont) (mem : MemCont) : Nat :=
  hweHeadSizeof cont + 11 + if mem.body.usedata ≠ 0 then 1 + mem.body.width.toNat else 0

def hweAckSizeof (cont : Cont) : Nat := hweHeadSizeof cont + 6

def hweInst32Sizeof (cont : Cont) (inst : InstCont) : Nat :=
  hweHeadSizeof cont + 20 + inst.body.nregs.toNat +
    (if inst.body.jump ≠ 0 then 4 else 0) +
    (if inst.body.regdata ≠ 0 then inst.body.regDataSize else 0)

def hweExcep32Sizeof (cont : Cont) : Nat := hweHeadSizeof cont + 4

def hweCpu32Sizeof (cont : Cont) : Nat := hweHeadSizeof cont + 4

def hweSizeof (cont : Cont) : Nat :=
  match cont.body with
  | .id => hweIdSizeof
  | .null => hweHeadSizeof cont
  | .info info => hweInfoSizeof cont info
  | .spread => hweHeadSizeof cont
  | .memgl _ => hweMemglobalSizeof cont
  | .mem32 mem => hweMem32Sizeof cont mem
  | .memack _ => hweAckSizeof cont
  | .inst32 inst => hweInst32Sizeof cont inst
  | .excep32 _ => hweExcep32Sizeof cont
  | .cpuMem _ => hweCpu32Sizeof cont
  | .cpuIo _ => hweCpu32Sizeof cont

def hweHeadWrite (cont : Cont) : List Byte :=
  [cont.common.id.devid] ++ bytesOf Head.layout cont.head ++
    cont.common.dates.flatMap (leBytes 8) ++
    cont.common.refs.flatMap (bytesOf HweId.layout)

/-- The whole `HWE_ID` record of a container, with a header of its own. -/
def hweIdWrite (cont : Cont) : List Byte :=
  [cont.common.id.devid] ++ bytesOf Head.layout ⟨0, 0, 0, 0, 0, 0, 0⟩ ++
    leBytes 8 cont.common.id.index

def hweInfoWrite (info : InfoCont) : List Byte :=
  bytesOf Info.layout info.body ++ info.name ++ info.detail.bytes

def hweMemglobalWrite (body : MemGlobal) : List Byte :=
  bytesOf MemGlobal.layout body

def hweMem32Write (mem : MemCont) : List Byte :=
  bytesOf Mem32.layout mem.body ++ if mem.body.usedata ≠ 0 then mem.data else []

def hweAckWrite (body : Ack) : List Byte := bytesOf Ack.layout body

/-- The register data is written even if `regdata` says it is absent. -/
def hweInst32Write (inst : InstCont) : List Byte :=
  bytesOf Inst32.layout inst.body ++
    inst.jumpPc.toList.flatMap (leBytes 4) ++ inst.regId ++
    inst.regData.flatMap (leBytes 4)

def hweExcep32Write (body : Excep32) : List Byte :=
  bytesOf Excep32.layout body

def hweCpu32Write (body : Cpu32) : List Byte := bytesOf Cpu32.layout body

def hweWrite (cont : Cont) : List Byte :=
  hweHeadWrite cont ++
    match cont.body with
    | .id => hweIdWrite cont
    | .null => []
    | .info info => hweInfoWrite info
    | .spread => []
    | .memgl body => hweMemglobalWrite body
    | .mem32 mem => hweMem32Write mem
    | .memack body => hweAckWrite body
    | .inst32 inst => hweInst32Write inst
    | .excep32 body => hweExcep32Write body
    | .cpuMem body => hweCpu32Write body
    | .cpuIo body => hweCpu32Write body

open Reader (take exit)

/-- The dates and references that a header announces. -/
def hweHeadRest (devid : BitVec 8) (head : Head) : Reader Byte HeadCont := do
  let rest ← take (8 * head.ndates.toNat + 9 * head.nrefs.toNat)
  let dates := (pieces 8 head.ndates.toNat rest.val).map (leWord 8)
  let refs := (pieces 9 head.nrefs.toNat
    (rest.val.drop (8 * head.ndates.toNat))).map (structOf HweId.layout)
  pure
    { id := ⟨devid, 0⟩, rid := head.rid, expected := head.expected
      nchild := head.nchild, comChild := head.comChild
      ndates := head.ndates, dates := dates
      nrefs := head.nrefs, refs := refs
      datesSize := by simp [dates], refsSize := by simp [refs] }

/-- The type of the event and the rest of its header. -/
def hweHeadRead : Reader Byte (BitVec 4 × HeadCont) := do
  let front ← take (14 + 1)
  let head := structOf Head.layout (front.val.drop 1)
  let common ← hweHeadRest (front.val.headD 0) head
  pure (head.type, common)

def hweIdCompute (common : HeadCont) (prevId : BitVec 64) : HeadCont :=
  { common with
    id := ⟨common.id.devid, prevId + common.rid.signExtend 64⟩ }

def hweIdRead (common : HeadCont) : Reader Byte Cont := do
  let bytes ← take 8
  pure ⟨{ common with id := ⟨common.id.devid, leWord 8 bytes.val⟩ }, .id⟩

/-- The name and the details that an information event announces. -/
def hweInfoRest (body : Info) : Reader Byte InfoCont := do
  let name ← take body.nsize.toNat
  match Device.ofCode body.device with
  | none => exit
  | some device =>
    let detail ← take (hweDeviceSizeof device)
    pure ⟨body.version, body.nsize, name.val, Detail.ofBytes device detail.val, name.property⟩

def hweInfoRead : Reader Byte InfoCont := do
  let front ← take 4
  let body := structOf Info.layout front.val
  if body.version ≠ hweVersion then exit else hweInfoRest body

def hweMemglobalRead : Reader Byte MemGlobal := do
  let bytes ← take 4
  pure (structOf MemGlobal.layout bytes.val)

/-- The data that a memory access announces. -/
def hweMem32Rest (body : Mem32) : Reader Byte MemCont := do
  let data ← take body.dataSize
  pure ⟨body, data.val, data.property⟩

def hweMem32Read : Reader Byte MemCont := do
  let front ← take 11
  hweMem32Rest (structOf Mem32.layout front.val)

def hweAckRead : Reader Byte Ack := do
  let bytes ← take 6
  pure (structOf Ack.layout bytes.val)

/-- The parts that an instruction announces.  Without `regdata` the register
data `old` of the container stays. -/
def hweInst32Rest (old : Nat → Word) (body : Inst32) : Reader Byte InstCont := do
  let cur := body.nregs.toNat
  let cur2 := if body.regdata ≠ 0 then body.regDataSize else 0
  let rest ← take (cur + cur2 + body.jumpSize)
  let buf := rest.val.drop body.jumpSize
  pure
    { body := body
      jumpPc := if body.jump ≠ 0 then some (leWord 4 rest.val) else none
      regId := buf.take cur
      regData :=
        if body.regdata ≠ 0 then
          (pieces 4 (body.regDataSize / 4) (buf.drop cur)).map (leWord 4)
        else (List.range (body.regDataSize / 4)).map old
      jumps := by split <;> simp_all
      regIdSize := by
        simp only [buf, List.length_take, List.length_drop, rest.property]
        omega
      regDataSize := by
        rw [← body.four_mul_regDataSize]
        split <;> simp }

def hweInst32Read (old : Nat → Word) : Reader Byte InstCont := do
  let front ← take 20
  hweInst32Rest old (structOf Inst32.layout front.val)

def hweExcep32Read : Reader Byte Excep32 := do
  let bytes ← take 4
  pure (structOf Excep32.layout bytes.val)

def hweCpu32Read : Reader Byte Cpu32 := do
  let bytes ← take 4
  pure (structOf Cpu32.layout bytes.val)

/-- The body that follows a header of the given type. -/
def hweBodyRead (old : Nat → Word) (type : BitVec 4) (common : HeadCont) : Reader Byte Cont :=
  match type.toNat with
  | 0 => hweIdRead common
  | 1 => pure ⟨common, .null⟩
  | 2 => do
      let info ← hweInfoRead
      pure ⟨common, .info info⟩
  | 3 => pure ⟨common, .spread⟩
  | 4 => do
      let body ← hweMemglobalRead
      pure ⟨common, .memgl body⟩
  | 5 => do
      let mem ← hweMem32Read
      pure ⟨common, .mem32 mem⟩
  | 6 => do
      let body ← hweAckRead
      pure ⟨common, .memack body⟩
  | 8 => do
      let inst ← hweInst32Read old
      pure ⟨common, .inst32 inst⟩
  | 9 => do
      let body ← hweExcep32Read
      pure ⟨common, .excep32 body⟩
  | 10 => do
      let body ← hweCpu32Read
      pure ⟨common, .cpuMem body⟩
  | 11 => do
      let body ← hweCpu32Read
      pure ⟨common, .cpuIo body⟩
  | _ => exit

/-- The container is read over one whose register data is `old`; `previd` has
the last index of each known device. -/
def hweRead (old : Nat → Word) (previd : List (BitVec 64)) : Reader Byte Cont := do
  let (type, head) ← hweHeadRead
  hweBodyRead old type (hweIdCompute head (previd.getD head.id.devid.toNat 0))

end Reverse.Decopus
