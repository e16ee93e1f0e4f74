import Reverse.Decopus.Events

/-!
# The event codec

What `hwe_write` emits is framed for `hwe_read`: the reader returns after
exactly these bytes, and before them it asks for more.  Only the information
event has a check that a written event can fail, on its version.
-/

namespace Reverse.Decopus

open Wire
open List hiding count
open Reader (take Frames frames_take frames_pure)

theorem hweHeadRest_frames (cont : Cont) :
    Frames (hweHeadRest cont.common.id.devid cont.head)
      (cont.common.dates.flatMap (leBytes 8) ++ cont.common.refs.flatMap (bytesOf HweId.layout))
      { cont.common with id := ⟨cont.common.id.devid, 0⟩ } := by
  have datesLength := flatMap_length (leBytes_length 8) cont.common.dates
  have refsLength := flatMap_length (bytesOf_length HweId.layout) cont.common.refs
  have datesSize := cont.common.datesSize
  have refsSize := cont.common.refsSize
  have datesFound : (pieces 8 cont.common.ndates.toNat
      (cont.common.dates.flatMap (leBytes 8) ++
        cont.common.refs.flatMap (bytesOf HweId.layout))).map (leWord 8) =
      cont.common.dates := by
    rw [← datesSize]
    exact map_pieces_flatMap (leBytes_length 8) (leWord_leBytes 8) _ _
  have refsFound : (pieces 9 cont.common.nrefs.toNat
      ((cont.common.dates.flatMap (leBytes 8) ++
        cont.common.refs.flatMap (bytesOf HweId.layout)).drop
          (8 * cont.common.ndates.toNat))).map (structOf HweId.layout) =
      cont.common.refs := by
    rw [← datesSize, ← datesLength, drop_left, ← refsSize, ← append_nil (List.flatMap _ _)]
    exact map_pieces_flatMap (bytesOf_length HweId.layout) (structOf_bytesOf HweId.layout) _ _
  refine Reader.frames_build ?_ ?_
  · rw [length_append, datesLength, refsLength, datesSize, refsSize, Cont.head]
  · apply HeadCont.ext
    case dates => exact datesFound
    case refs => exact refsFound
    all_goals rfl

theorem hweHeadRead_frames (cont : Cont) :
    Frames hweHeadRead (hweHeadWrite cont)
      (cont.body.type, { cont.common with id := ⟨cont.common.id.devid, 0⟩ }) := by
  have shape : hweHeadWrite cont =
      ([cont.common.id.devid] ++ bytesOf Head.layout cont.head) ++
        ((cont.common.dates.flatMap (leBytes 8) ++
          cont.common.refs.flatMap (bytesOf HweId.layout)) ++ []) := by
    simp [hweHeadWrite]
  rw [shape]
  refine Frames.bind (frames_take (by simp)) ?_
  have parsed : structOf Head.layout
      (([cont.common.id.devid] ++ bytesOf Head.layout cont.head).drop 1) =
        cont.head := by
    simp
  dsimp only
  rw [parsed]
  exact Frames.bind (hweHeadRest_frames cont) (frames_pure _)

/-- What a reader finds in a structure of fixed size. -/
theorem struct_frames (layout : α ≃ BitVec (8 * count)) (value : α) :
    Frames (take count >>= fun bytes => pure (structOf layout bytes.val))
      (bytesOf layout value) value :=
  Reader.frames_build (bytesOf_length layout value) (structOf_bytesOf layout value)

theorem Mem32.dataSize_eq (body : Mem32) :
    body.dataSize = if body.usedata ≠ 0 then 1 + body.width.toNat else 0 := by
  rw [Mem32.dataSize]
  split
  · next used =>
      have positive : body.usedata.toNat ≠ 0 := by
        intro zero
        exact used (BitVec.eq_of_toNat_eq zero)
      have bit : body.usedata.toNat = 1 := by
        have below := body.usedata.isLt
        omega
      rw [bit, Nat.mul_one]
  · next unused =>
      rw [not_not.mp unused]
      rfl

theorem MemCont.data_written (mem : MemCont) :
    (if mem.body.usedata ≠ 0 then mem.data else []) = mem.data := by
  split
  · rfl
  · next unused =>
      have size := mem.dataSize
      rw [Mem32.dataSize_eq, if_neg unused] at size
      exact (eq_nil_of_length_eq_zero size).symm

theorem hweMem32Read_frames (mem : MemCont) : Frames hweMem32Read (hweMem32Write mem) mem := by
  rw [hweMem32Write, mem.data_written]
  refine Frames.bind (frames_take (bytesOf_length Mem32.layout mem.body)) ?_
  dsimp only
  rw [structOf_bytesOf]
  exact Reader.frames_build mem.dataSize rfl

theorem Device.ofCode_code (device : Device) : Device.ofCode device.code = some device := by
  cases device <;> rfl

theorem Detail.bytes_length (detail : Detail) :
    detail.bytes.length = hweDeviceSizeof detail.device := by
  cases detail <;> simp [Detail.bytes, hweDeviceSizeof, Detail.device]

theorem Detail.ofBytes_bytes (detail : Detail) :
    Detail.ofBytes detail.device detail.bytes = detail := by
  cases detail <;> simp [Detail.bytes, Detail.ofBytes, Detail.device]

theorem hweInfoRest_frames (info : InfoCont) :
    Frames (hweInfoRest info.body) (info.name ++ info.detail.bytes) info := by
  refine Frames.bind (frames_take info.nameSize) ?_
  dsimp only [InfoCont.body]
  rw [Device.ofCode_code]
  exact Reader.frames_build info.detail.bytes_length (by rw [Detail.ofBytes_bytes])

theorem hweInfoRead_frames (current : info.version = hweVersion) :
    Frames hweInfoRead (hweInfoWrite info) info := by
  rw [hweInfoWrite, append_assoc]
  refine Frames.bind (frames_take (bytesOf_length Info.layout info.body)) ?_
  dsimp only
  have same : ¬ info.body.version ≠ hweVersion := not_not.mpr current
  rw [structOf_bytesOf, if_neg same]
  exact hweInfoRest_frames info

/-- The bytes that the instruction announces: the register data only if
`regdata` says so. -/
def InstCont.announced (inst : InstCont) : List Byte :=
  bytesOf Inst32.layout inst.body ++
    (inst.jumpPc.toList.flatMap (leBytes 4) ++ (inst.regId ++
      if inst.body.regdata ≠ 0 then inst.regData.flatMap (leBytes 4) else []))

/-- The instruction read over a container whose register data is `old`. -/
def InstCont.reread (inst : InstCont) (old : Nat → Word) : InstCont :=
  { inst with
    regData :=
      if inst.body.regdata ≠ 0 then inst.regData
      else (List.range (inst.body.regDataSize / 4)).map old
    regDataSize := by
      split
      · exact inst.regDataSize
      · rw [length_map, length_range, Inst32.four_mul_regDataSize] }

theorem InstCont.jumpPc_length (inst : InstCont) :
    (inst.jumpPc.toList.flatMap (leBytes 4)).length = inst.body.jumpSize := by
  have jumps := inst.jumps
  rw [flatMap_length (leBytes_length 4), Inst32.jumpSize]
  cases found : inst.jumpPc with
  | none =>
    have absent : inst.body.jump = 0 := by simpa [found] using jumps
    simp [absent]
  | some target =>
    have present : inst.body.jump ≠ 0 := by simpa [found] using jumps
    rw [if_pos present]
    rfl

theorem InstCont.jumpPc_found (inst : InstCont) (rest : List Byte) :
    (if inst.body.jump ≠ 0 then
        some (leWord 4 (inst.jumpPc.toList.flatMap (leBytes 4) ++ rest))
      else none) = inst.jumpPc := by
  have jumps := inst.jumps
  cases found : inst.jumpPc with
  | none =>
    have absent : inst.body.jump = 0 := by simpa [found] using jumps
    simp [absent]
  | some target =>
    have present : inst.body.jump ≠ 0 := by simpa [found] using jumps
    simp only [if_pos present, Option.toList_some, flatMap_cons,
      flatMap_nil, append_nil, leWord_append]

theorem InstCont.regData_length (inst : InstCont) :
    (inst.regData.flatMap (leBytes 4)).length = inst.body.regDataSize := by
  rw [flatMap_length (leBytes_length 4), inst.regDataSize]

theorem hweInst32Rest_frames (old : Nat → Word) (inst : InstCont) :
    Frames (hweInst32Rest old inst.body)
      (inst.jumpPc.toList.flatMap (leBytes 4) ++ (inst.regId ++
        if inst.body.regdata ≠ 0 then inst.regData.flatMap (leBytes 4)
        else []))
      (inst.reread old) := by
  refine Reader.frames_build ?_ ?_
  · rw [length_append, length_append, inst.jumpPc_length, inst.regIdSize]
    split
    · rw [inst.regData_length]
      omega
    · simp only [length_nil]
      omega
  · apply InstCont.ext
    case body => rfl
    case jumpPc => exact inst.jumpPc_found _
    case regId =>
      simp only [← inst.jumpPc_length, drop_left, ← inst.regIdSize, take_left]
      rfl
    case regData =>
      simp only [← inst.jumpPc_length, drop_left, ← inst.regIdSize, InstCont.reread]
      split
      · rw [← inst.regDataSize, Nat.mul_div_cancel_left _ (by decide),
          ← append_nil (List.flatMap _ _)]
        exact map_pieces_flatMap (leBytes_length 4) (leWord_leBytes 4) _ _
      · rfl

theorem hweInst32Read_frames (old : Nat → Word) (inst : InstCont) :
    Frames (hweInst32Read old) inst.announced (inst.reread old) := by
  refine Frames.bind (frames_take (bytesOf_length Inst32.layout inst.body)) ?_
  dsimp only
  rw [structOf_bytesOf]
  exact hweInst32Rest_frames old inst

/-- The bytes of the body that the reader looks for. -/
def Body.announced (index : BitVec 64) : Body → List Byte
  | .id => leBytes 8 index
  | .null => []
  | .info cont => hweInfoWrite cont
  | .spread => []
  | .memgl body => hweMemglobalWrite body
  | .mem32 mem => hweMem32Write mem
  | .memack body => hweAckWrite body
  | .inst32 inst => inst.announced
  | .excep32 body => hweExcep32Write body
  | .cpuMem body => hweCpu32Write body
  | .cpuIo body => hweCpu32Write body

def Cont.announced (cont : Cont) : List Byte :=
  hweHeadWrite cont ++ cont.body.announced cont.common.id.index

/-- The body read over a container whose register data is `old`. -/
def Body.reread (old : Nat → Word) : Body → Body
  | .inst32 inst => .inst32 (inst.reread old)
  | body => body

/-- The container that `hwe_read` makes of a written one. -/
def Cont.received (cont : Cont) (old : Nat → Word) (prevId : BitVec 64) :
    Cont :=
  if cont.body = .id then cont
  else ⟨hweIdCompute cont.common prevId, cont.body.reread old⟩

/-- An information event carries the version that is looked for. -/
def Body.Current : Body → Prop
  | .info cont => cont.version = hweVersion
  | _ => True

theorem hweIdRead_frames (common : HeadCont) (index : BitVec 64) :
    Frames (hweIdRead common) (leBytes 8 index)
      ⟨{ common with id := ⟨common.id.devid, index⟩ }, .id⟩ :=
  Reader.frames_build (leBytes_length 8 index) (by rw [leWord_leBytes])

theorem hweBodyRead_frames (old : Nat → Word) (common : HeadCont)
    (index : BitVec 64) {body : Body} (real : body ≠ .id) (current : body.Current) :
    Frames (hweBodyRead old body.type common) (body.announced index) ⟨common, body.reread old⟩ := by
  have wrapped : ∀ {α : Type} {read : Reader Byte α} {word : List Byte}
      {value : α} (build : α → Body), Frames read word value →
      Frames (read >>= fun part => pure ⟨common, build part⟩) word
        (⟨common, build value⟩ : Cont) := by
    intro α read word value build framed
    have appended : Frames
        (read >>= fun part => pure (⟨common, build part⟩ : Cont))
        (word ++ []) ⟨common, build value⟩ := framed.bind (frames_pure _)
    rwa [append_nil] at appended
  cases body with
  | id => exact (real rfl).elim
  | null => exact frames_pure _
  | info info => exact wrapped Body.info (hweInfoRead_frames current)
  | spread => exact frames_pure _
  | memgl body => exact wrapped Body.memgl (struct_frames _ body)
  | mem32 mem => exact wrapped Body.mem32 (hweMem32Read_frames mem)
  | memack body => exact wrapped Body.memack (struct_frames _ body)
  | inst32 inst => exact wrapped Body.inst32 (hweInst32Read_frames old inst)
  | excep32 body => exact wrapped Body.excep32 (struct_frames _ body)
  | cpuMem body => exact wrapped Body.cpuMem (struct_frames _ body)
  | cpuIo body => exact wrapped Body.cpuIo (struct_frames _ body)

theorem hweRead_frames (old : Nat → Word) (previd : List (BitVec 64))
    {cont : Cont} (current : cont.body.Current) :
    Frames (hweRead old previd) cont.announced
      (cont.received old (previd.getD cont.common.id.devid.toNat 0)) := by
  refine Frames.bind (hweHeadRead_frames cont) ?_
  by_cases isId : cont.body = .id
  · obtain ⟨common, body⟩ := cont
    change body = .id at isId
    subst isId
    exact hweIdRead_frames _ common.id.index
  · rw [Cont.received, if_neg isId]
    exact hweBodyRead_frames old _ _ isId current

theorem hweHeadWrite_length (cont : Cont) : (hweHeadWrite cont).length = hweHeadSizeof cont := by
  simp only [hweHeadWrite, length_append, bytesOf_length,
    flatMap_length (leBytes_length 8),
    flatMap_length (bytesOf_length HweId.layout), cont.common.datesSize,
    cont.common.refsSize, length_singleton, hweHeadSizeof]

theorem InstCont.announced_length (inst : InstCont) :
    inst.announced.length =
      20 + inst.body.nregs.toNat + (if inst.body.jump ≠ 0 then 4 else 0) +
        (if inst.body.regdata ≠ 0 then inst.body.regDataSize else 0) := by
  have data : (if inst.body.regdata ≠ 0 then
      inst.regData.flatMap (leBytes 4) else []).length =
      if inst.body.regdata ≠ 0 then inst.body.regDataSize else 0 := by
    split
    · exact inst.regData_length
    · rfl
  rw [InstCont.announced, length_append, length_append,
    length_append, bytesOf_length, inst.jumpPc_length, inst.regIdSize,
    data, Inst32.jumpSize]
  omega

theorem Cont.announced_length (real : cont.body ≠ .id) :
    cont.announced.length = hweSizeof cont := by
  rw [Cont.announced, length_append, hweHeadWrite_length]
  obtain ⟨common, body⟩ := cont
  cases body with
  | id => exact (real rfl).elim
  | null => rfl
  | info info =>
    simp only [Body.announced, hweInfoWrite, length_append,
      bytesOf_length, info.nameSize, info.detail.bytes_length, hweSizeof,
      hweInfoSizeof]
    omega
  | spread => rfl
  | memgl body => simp [Body.announced, hweMemglobalWrite, hweSizeof,
      hweMemglobalSizeof]
  | mem32 mem =>
    simp only [Body.announced, hweMem32Write, mem.data_written,
      length_append, bytesOf_length, mem.dataSize, Mem32.dataSize_eq,
      hweSizeof, hweMem32Sizeof]
    omega
  | memack body => simp [Body.announced, hweAckWrite, hweSizeof, hweAckSizeof]
  | inst32 inst =>
    simp only [Body.announced, inst.announced_length, hweSizeof, hweInst32Sizeof]
    omega
  | excep32 body => simp [Body.announced, hweExcep32Write, hweSizeof,
      hweExcep32Sizeof]
  | cpuMem body | cpuIo body => simp [Body.announced, hweCpu32Write, hweSizeof,
      hweCpu32Sizeof]

/-- An instruction carries the data of its registers. -/
def Body.Complete : Body → Prop
  | .inst32 inst => inst.body.regdata ≠ 0
  | _ => True

/-- What is written starts with what is announced; an instruction without
`regdata` is followed by register data that no one looks for. -/
theorem hweWrite_eq_append (real : cont.body ≠ .id) :
    ∃ rest, hweWrite cont = cont.announced ++ rest ∧ (cont.body.Complete → rest = []) := by
  obtain ⟨common, body⟩ := cont
  cases body with
  | id => exact (real rfl).elim
  | inst32 inst =>
    by_cases complete : inst.body.regdata ≠ 0
    · refine ⟨[], ?_, fun _ => rfl⟩
      simp only [hweWrite, hweInst32Write, Cont.announced, Body.announced,
        InstCont.announced, if_pos complete, append_assoc,
        append_nil]
    · refine ⟨inst.regData.flatMap (leBytes 4), ?_, fun present => (complete present).elim⟩
      simp only [hweWrite, hweInst32Write, Cont.announced, Body.announced,
        InstCont.announced, if_neg complete, append_assoc,
        append_nil]
  | _ => exact ⟨[], (append_nil _).symm, fun _ => rfl⟩

theorem hweWrite_take (real : cont.body ≠ .id) :
    (hweWrite cont).take (hweSizeof cont) = cont.announced := by
  obtain ⟨rest, written, _⟩ := hweWrite_eq_append real
  rw [written, ← Cont.announced_length real, take_left]

theorem hweWrite_eq_announced (real : cont.body ≠ .id)
    (complete : cont.body.Complete) : hweWrite cont = cont.announced := by
  obtain ⟨rest, written, none⟩ := hweWrite_eq_append real
  rw [written, none complete, append_nil]

theorem Body.reread_of_complete {body : Body} (complete : body.Complete)
    (old : Nat → Word) : body.reread old = body := by
  cases body with
  | inst32 inst =>
    have present : inst.body.regdata ≠ 0 := complete
    have same : inst.reread old = inst := by
      apply InstCont.ext
      case regData => exact if_pos present
      all_goals rfl
    simp only [Body.reread, same]
  | _ => rfl

/-- `hwe_write` emits as many bytes as `hwe_sizeof` says, `hwe_read` finds in
them, whatever follows, the container with the index counted from the last one
of its device, and on fewer bytes `hwe_read` asks for more. -/
theorem event_codec (old : Nat → Word) (previd : List (BitVec 64))
    (cont : Cont) (real : cont.body ≠ .id) (complete : cont.body.Complete)
    (current : cont.body.Current) :
    (hweWrite cont).length = hweSizeof cont ∧
      (∀ rest, hweRead old previd (hweWrite cont ++ rest) =
        .done ⟨hweIdCompute cont.common
          (previd.getD cont.common.id.devid.toNat 0), cont.body⟩
          (hweSizeof cont)) ∧
      ∀ start, start <+: hweWrite cont → start ≠ hweWrite cont →
        hweRead old previd start = .short := by
  have framed := hweRead_frames old previd current
  rw [hweWrite_eq_announced real complete, Cont.announced_length real]
  refine ⟨rfl, ?_, framed.part⟩
  intro rest
  rw [framed.whole rest, Cont.announced_length real, Cont.received,
    if_neg real, Body.reread_of_complete complete]

/-- A jump that sets two registers, with a date and a reference. -/
def jumpEvent : Cont where
  common :=
    { id := ⟨3, 41⟩, rid := 2, expected := 1, nchild := 0, comChild := 0
      ndates := 1, dates := [1000], nrefs := 1, refs := [⟨2, 40⟩]
      datesSize := rfl, refsSize := rfl }
  body := .inst32
    { body :=
        { pc := 0x8000, width := 3, abort := 0, jump := 1, regdata := 1
          exec := 1, unalign := 0, cycles := 2, imem := 1, dmem := 0
          excl := 0, str := 0, unused := 0, nregs := 2, regdst := 3
          instr := 0xE12FFF1E }
      jumpPc := some 0x8100, regId := [14, 15], regData := [0x8004, 0x8100]
      jumps := by decide, regIdSize := by decide, regDataSize := by decide }

theorem event_codec_jump :
    hweSizeof jumpEvent = 66 ∧
      (hweWrite jumpEvent).length = hweSizeof jumpEvent ∧
      (∀ rest, hweRead (fun _ => 0) [0, 0, 0, 39] (hweWrite jumpEvent ++ rest) =
        .done ⟨hweIdCompute jumpEvent.common 39, jumpEvent.body⟩ (hweSizeof jumpEvent)) ∧
      ∀ start, start <+: hweWrite jumpEvent → start ≠ hweWrite jumpEvent →
        hweRead (fun _ => 0) [0, 0, 0, 39] start = .short :=
  ⟨by decide, event_codec (fun _ => 0) [0, 0, 0, 39] jumpEvent (by decide)
    (by change (1 : BitVec 1) ≠ 0; decide) trivial⟩

/-- An information event of an earlier version. -/
def oldInfo : Cont where
  common :=
    { id := ⟨0, 0⟩, rid := 0, expected := 0, nchild := 0, comChild := 0
      ndates := 0, dates := [], nrefs := 0, refs := [], datesSize := rfl
      refsSize := rfl }
  body := .info
    { version := 258, nsize := 0, name := [], detail := .processor 1
      nameSize := rfl }

/-- The reader does not return on an information event of another version. -/
theorem oldInfo_not_read : hweRead (fun _ => 0) [] (hweWrite oldInfo) = .exit := by
  decide

end Reverse.Decopus
