import Reverse.Decopus.Codec

/-!
# Accepted bytes

The converse of the codec: whatever bytes `hwe_read` accepts are the ones that
the container announces.  They are also the ones that `hwe_write` emits, unless
the container is an `HWE_ID` record, which is written with a header too many,
or an instruction with registers and without `regdata`.  The counts in the
headers are wider than the arrays of the containers, and no function checks
them.
-/

namespace Reverse.Decopus

open Wire
open List hiding count
open Reader (take exit Echoes echoes_pure echoes_take echoes_exit echoes_build)

/-- The bytes of a header whose event has the given type. -/
def headBytes (type : BitVec 4) (common : HeadCont) : List Byte :=
  [common.id.devid] ++
    bytesOf Head.layout ⟨type, common.rid, common.ndates, common.nrefs,
      common.expected, common.nchild, common.comChild⟩ ++
    common.dates.flatMap (leBytes 8) ++
    common.refs.flatMap (bytesOf HweId.layout)

theorem hweHeadWrite_eq (cont : Cont) :
    hweHeadWrite cont = headBytes cont.body.type cont.common := rfl

theorem leBytes_leWord_piece (count : Nat) (bytes : List Byte) (length : bytes.length = count) :
    leBytes count (leWord count bytes) = bytes := by
  rw [leBytes_leWord count (Nat.le_of_eq length.symm), take_of_length_le (Nat.le_of_eq length)]

theorem hweHeadRest_echoes (devid : BitVec 8) (head : Head) :
    Echoes ([devid] ++ bytesOf Head.layout head) (hweHeadRest devid head)
      (headBytes head.type) := by
  apply echoes_build
  rintro ⟨rest, length⟩
  have dates : ((pieces 8 head.ndates.toNat rest).map
      (leWord 8)).flatMap (leBytes 8) = rest.take (8 * head.ndates.toNat) :=
    flatMap_map_pieces (leBytes_leWord_piece 8) (by omega)
  have refs : ((pieces 9 head.nrefs.toNat
      (rest.drop (8 * head.ndates.toNat))).map
        (structOf HweId.layout)).flatMap (bytesOf HweId.layout) =
      (rest.drop (8 * head.ndates.toNat)).take (9 * head.nrefs.toNat) :=
    flatMap_map_pieces (fun _ => bytesOf_structOf HweId.layout)
      (by rw [length_drop]; omega)
  have refsLength : (rest.drop (8 * head.ndates.toNat)).length ≤ 9 * head.nrefs.toNat := by
    rw [length_drop]
    omega
  dsimp only [headBytes]
  rw [dates, refs, take_of_length_le refsLength, append_assoc, take_append_drop]

theorem hweHeadRead_echoes : Echoes [] hweHeadRead fun found => headBytes found.1 found.2 := by
  refine (echoes_take [] (14 + 1)).bind ?_
  rintro ⟨front, length⟩
  obtain ⟨devid, head, rfl⟩ : ∃ devid head, front = devid :: head :=
    exists_cons_of_length_pos (by omega)
  have parsed : bytesOf Head.layout (structOf Head.layout head) = head :=
    bytesOf_structOf Head.layout (Nat.succ.inj length)
  have rest := hweHeadRest_echoes devid (structOf Head.layout head)
  rw [parsed] at rest
  exact rest.bind fun common => echoes_pure rfl

theorem struct_echoes (front : List Byte) (layout : α ≃ BitVec (8 * count)) :
    Echoes front
      (take count >>= fun bytes => pure (structOf layout bytes.val))
      fun value => front ++ bytesOf layout value :=
  echoes_build fun word => by rw [bytesOf_structOf layout word.property]

theorem hweMem32Read_echoes (front : List Byte) :
    Echoes front hweMem32Read fun mem => front ++ hweMem32Write mem := by
  refine (echoes_take front 11).bind fun word => echoes_build fun data => ?_
  rw [hweMem32Write, MemCont.data_written,
    bytesOf_structOf Mem32.layout word.property, append_assoc]

theorem Device.code_of_ofCode {code : BitVec 8}
    (found : Device.ofCode code = some device) : device.code = code := by
  have matching := List.find?_some found
  exact eq_of_beq matching

theorem Detail.device_ofBytes (device : Device) (bytes : List Byte) :
    (Detail.ofBytes device bytes).device = device := by
  cases device <;> rfl

theorem Detail.bytes_ofBytes {device : Device} {bytes : List Byte}
    (length : bytes.length = hweDeviceSizeof device) :
    (Detail.ofBytes device bytes).bytes = bytes := by
  cases device with
  | processor =>
    obtain ⟨cpuid, rfl⟩ := length_eq_one_iff.mp length
    rfl
  | memory => exact bytesOf_structOf Memory.layout length
  | cache => exact bytesOf_structOf Cache.layout length
  | writebuffer => exact (eq_nil_of_length_eq_zero length).symm
  | peripheral => exact (eq_nil_of_length_eq_zero length).symm

theorem hweInfoRest_echoes (front : List Byte) (body : Info) :
    Echoes (front ++ bytesOf Info.layout body) (hweInfoRest body)
      fun info => front ++ hweInfoWrite info := by
  refine (echoes_take _ body.nsize.toNat).bind fun name => ?_
  cases found : Device.ofCode body.device with
  | none => exact echoes_exit _ _
  | some device =>
    refine echoes_build fun detail => ?_
    dsimp only [hweInfoWrite, InfoCont.body]
    rw [Detail.device_ofBytes, Device.code_of_ofCode found, Detail.bytes_ofBytes detail.property]
    simp only [append_assoc]

theorem hweInfoRead_echoes (front : List Byte) :
    Echoes front hweInfoRead fun info => front ++ hweInfoWrite info := by
  refine (echoes_take front 4).bind fun word => ?_
  dsimp only
  split
  · exact echoes_exit _ _
  · have rest := hweInfoRest_echoes front (structOf Info.layout word.val)
    rwa [bytesOf_structOf Info.layout word.property] at rest

theorem jumpPc_written (body : Inst32) (enough : body.jumpSize ≤ bytes.length) :
    (if body.jump ≠ 0 then some (leWord 4 bytes)
      else none : Option Word).toList.flatMap (leBytes 4) =
      bytes.take body.jumpSize := by
  unfold Inst32.jumpSize at enough ⊢
  split
  · next jumps =>
      rw [if_pos jumps] at enough
      rw [Option.toList_some, flatMap_cons, flatMap_nil, append_nil, leBytes_leWord 4 enough]
  · rfl

theorem hweInst32Rest_echoes (front : List Byte) (old : Nat → Word) (body : Inst32) :
    Echoes (front ++ bytesOf Inst32.layout body) (hweInst32Rest old body)
      fun inst => front ++ inst.announced := by
  apply echoes_build
  rintro ⟨rest, length⟩
  have jump := jumpPc_written body (show body.jumpSize ≤ rest.length by omega)
  have data : (if body.regdata ≠ 0 then
      ((if body.regdata ≠ 0 then
        (pieces 4 (body.regDataSize / 4)
          ((rest.drop body.jumpSize).drop body.nregs.toNat)).map (leWord 4)
      else (List.range (body.regDataSize / 4)).map old).flatMap (leBytes 4))
      else []) = (rest.drop body.jumpSize).drop body.nregs.toNat := by
    have whole := body.four_mul_regDataSize
    split
    · next present =>
        rw [if_pos present] at length
        rw [flatMap_map_pieces (leBytes_leWord_piece 4)]
        · apply take_of_length_le
          simp only [length_drop]
          omega
        · simp only [length_drop]
          omega
    · next absent =>
        rw [if_neg absent] at length
        refine (eq_nil_of_length_eq_zero ?_).symm
        simp only [length_drop]
        omega
  dsimp only [InstCont.announced]
  rw [jump, data, take_append_drop, take_append_drop, append_assoc]

theorem hweInst32Read_echoes (front : List Byte) (old : Nat → Word) :
    Echoes front (hweInst32Read old) fun inst => front ++ inst.announced := by
  refine (echoes_take front 20).bind fun word => ?_
  have rest := hweInst32Rest_echoes front old (structOf Inst32.layout word.val)
  rwa [bytesOf_structOf Inst32.layout word.property] at rest

theorem hweIdRead_echoes (common : HeadCont) :
    Echoes (headBytes 0 common) (hweIdRead common) Cont.announced :=
  echoes_build fun word => by
    dsimp only [Cont.announced, Body.announced]
    rw [leBytes_leWord_piece 8 _ word.property]
    rfl

theorem hweBodyRead_echoes (old : Nat → Word) (type : BitVec 4) (common : HeadCont) :
    Echoes (headBytes type common) (hweBodyRead old type common)
      Cont.announced := by
  have wrapped : ∀ {α : Type} {read : Reader Byte α} {build : α → Body}
      {write : α → List Byte},
      Echoes (headBytes type common) read (fun part => headBytes type common ++ write part) →
      (∀ part, type.toNat = (build part).type.toNat) →
      (∀ part, (build part).announced common.id.index = write part) →
      Echoes (headBytes type common)
        (read >>= fun part => pure (⟨common, build part⟩ : Cont))
        Cont.announced := by
    intro α read build write first types writes
    refine first.bind fun part => echoes_pure ?_
    rw [Cont.announced, hweHeadWrite_eq, writes, BitVec.eq_of_toNat_eq (types part)]
  have empty : ∀ {body : Body}, type.toNat = body.type.toNat →
      body.announced common.id.index = [] →
      Echoes (headBytes type common) (pure (⟨common, body⟩ : Cont)) Cont.announced := by
    intro body isCode none
    apply echoes_pure
    rw [Cont.announced, none, append_nil, hweHeadWrite_eq, BitVec.eq_of_toNat_eq isCode]
  unfold hweBodyRead
  split
  · next isCode =>
      rw [show type = 0 from BitVec.eq_of_toNat_eq isCode]
      exact hweIdRead_echoes common
  · next isCode => exact empty isCode rfl
  · next isCode =>
      exact wrapped (hweInfoRead_echoes _) (fun _ => isCode) fun _ => rfl
  · next isCode => exact empty isCode rfl
  · next isCode =>
      exact wrapped (struct_echoes _ _) (fun _ => isCode) fun _ => rfl
  · next isCode =>
      exact wrapped (hweMem32Read_echoes _) (fun _ => isCode) fun _ => rfl
  · next isCode =>
      exact wrapped (struct_echoes _ _) (fun _ => isCode) fun _ => rfl
  · next isCode =>
      exact wrapped (hweInst32Read_echoes _ old) (fun _ => isCode) fun _ => rfl
  · next isCode =>
      exact wrapped (struct_echoes _ _) (fun _ => isCode) fun _ => rfl
  · next isCode =>
      exact wrapped (struct_echoes _ _) (fun _ => isCode) fun _ => rfl
  · next isCode =>
      exact wrapped (struct_echoes _ _) (fun _ => isCode) fun _ => rfl
  · exact echoes_exit _ _

/-- What `hwe_read` accepts is what the container announces. -/
theorem hweRead_echoes (old : Nat → Word) (previd : List (BitVec 64)) :
    Echoes [] (hweRead old previd) Cont.announced :=
  hweHeadRead_echoes.bind fun found =>
    hweBodyRead_echoes old found.1 (hweIdCompute found.2 (previd.getD found.2.id.devid.toNat 0))

/-- The bodies that are written as they are announced. -/
def Body.Rewritten : Body → Prop
  | .id => False
  | .inst32 inst => inst.body.regdata = 0 → inst.body.regDataSize = 0
  | _ => True

theorem hweWrite_eq_announced_iff (cont : Cont) :
    hweWrite cont = cont.announced ↔ cont.body.Rewritten := by
  obtain ⟨common, body⟩ := cont
  cases body with
  | id =>
    refine ⟨fun same => ?_, False.elim⟩
    have lengths := congrArg List.length same
    simp only [hweWrite, Cont.announced, Body.announced, hweIdWrite,
      length_append, bytesOf_length, leBytes_length,
      length_singleton] at lengths
    omega
  | inst32 inst =>
    have lengths := inst.regData_length
    have shape : hweWrite ⟨common, .inst32 inst⟩ =
        hweHeadWrite ⟨common, .inst32 inst⟩ ++
          (bytesOf Inst32.layout inst.body ++
            (inst.jumpPc.toList.flatMap (leBytes 4) ++ (inst.regId ++
              inst.regData.flatMap (leBytes 4)))) := by
      simp only [hweWrite, hweInst32Write, append_assoc]
    rw [shape]
    simp only [Cont.announced, Body.announced, InstCont.announced,
      append_cancel_left_eq, Body.Rewritten]
    by_cases absent : inst.body.regdata = 0
    · rw [if_neg (not_not.mpr absent), ← lengths, length_eq_zero_iff]
      exact ⟨fun none _ => none, fun none => none absent⟩
    · rw [if_pos absent]
      exact ⟨fun _ present => (absent present).elim, fun _ => rfl⟩
  | _ => exact ⟨fun _ => trivial, fun _ => rfl⟩

/-- The counts of a container are those of its arrays at most. -/
structure Cont.Fits (cont : Cont) : Prop where
  dates : cont.common.dates.length ≤ 2
  refs : cont.common.refs.length ≤ 16
  regs : ∀ inst, cont.body = .inst32 inst →
    inst.regId.length ≤ 18 ∧ inst.regData.length ≤ 18
  data : ∀ mem, cont.body = .mem32 mem → mem.data.length ≤ 256
  name : ∀ info, cont.body = .info info → info.name.length ≤ 255

def headOf (bytes : List Byte) : Head := structOf Head.layout (bytes.drop 1)

def instOf (bytes : List Byte) : Inst32 :=
  structOf Inst32.layout (bytes.drop
    (1 + 14 + 8 * (headOf bytes).ndates.toNat + 9 * (headOf bytes).nrefs.toNat))

/-- The counts in the bytes are within the capacities, and they hold neither an
`HWE_ID` record nor an instruction with registers and without `regdata`. -/
structure Canonical (bytes : List Byte) : Prop where
  real : (headOf bytes).type ≠ 0
  dates : (headOf bytes).ndates.toNat ≤ 2
  refs : (headOf bytes).nrefs.toNat ≤ 16
  regs : (headOf bytes).type = 8 → (instOf bytes).nregs.toNat ≤ 18 ∧
    ((instOf bytes).regdata = 0 → (instOf bytes).nregs = 0)

theorem structOf_append (layout : α ≃ BitVec (8 * count)) (value : α) (rest : List Byte) :
    structOf layout (bytesOf layout value ++ rest) = value := by
  rw [structOf, bytesOf, leWord_append, Equiv.symm_apply_apply]

theorem headOf_announced (cont : Cont) (rest : List Byte) :
    headOf (cont.announced ++ rest) = cont.head := by
  simp only [headOf, Cont.announced, hweHeadWrite, append_assoc]
  exact structOf_append Head.layout cont.head _

theorem instOf_announced (common : HeadCont) (inst : InstCont) (rest : List Byte) :
    instOf ((⟨common, .inst32 inst⟩ : Cont).announced ++ rest) =
      inst.body := by
  have size := hweHeadWrite_length ⟨common, .inst32 inst⟩
  rw [hweHeadSizeof] at size
  unfold instOf
  rw [headOf_announced]
  simp only [Cont.head]
  rw [← size]
  simp only [Cont.announced, Body.announced, InstCont.announced,
    append_assoc, drop_left, structOf_append]

theorem Mem32.dataSize_le (body : Mem32) : body.dataSize ≤ 256 := by
  have below := body.width.isLt
  rw [Mem32.dataSize_eq]
  split <;> omega

theorem Inst32.regDataSize_eq {body : Inst32}
    (few : body.nregs.toNat ≤ 18) : body.regDataSize = 4 * body.nregs.toNat := by
  have modulo : body.regDataSize = 4 * body.nregs.toNat % 2 ^ 32 := BitVec.toNat_mul 4 body.nregs
  omega

/-- Bytes that `hwe_read` accepts fill no array beyond its end and are written
again as they were exactly if they are canonical. -/
theorem accepted_canonical_iff {old : Nat → Word} {previd : List (BitVec 64)}
    {bytes : List Byte} {cont : Cont} {used : Nat}
    (accepted : hweRead old previd bytes = .done cont used) :
    cont.Fits ∧ hweWrite cont = bytes.take used ↔ Canonical bytes := by
  obtain ⟨more, rest, announced, rfl, rfl⟩ := hweRead_echoes old previd _ _ _ accepted
  rw [nil_append] at announced
  subst announced
  rw [take_left, hweWrite_eq_announced_iff]
  have head := headOf_announced cont rest
  obtain ⟨common, body⟩ := cont
  constructor
  · rintro ⟨fits, rewritten⟩
    have dates := fits.dates
    have refs := fits.refs
    rw [common.datesSize] at dates
    rw [common.refsSize] at refs
    refine ⟨?_, ?_, ?_, ?_⟩
    · rw [head]
      rintro isId
      cases body with
      | id => exact rewritten
      | _ => cases isId
    · rw [head]
      exact dates
    · rw [head]
      exact refs
    · rw [head]
      intro isInst
      cases body with
      | inst32 inst =>
        obtain ⟨regs, -⟩ := fits.regs inst rfl
        rw [inst.regIdSize] at regs
        rw [instOf_announced]
        refine ⟨regs, fun absent => BitVec.eq_of_toNat_eq ?_⟩
        have none : inst.body.regDataSize = 0 := rewritten absent
        rw [Inst32.regDataSize_eq regs] at none
        change inst.body.nregs.toNat = 0
        omega
      | _ => cases isInst
  · intro canonical
    have dates := canonical.dates
    have refs := canonical.refs
    have real := canonical.real
    rw [head] at dates refs real
    refine ⟨⟨?_, ?_, ?_, ?_, ?_⟩, ?_⟩
    · rw [common.datesSize]
      exact dates
    · rw [common.refsSize]
      exact refs
    · rintro inst rfl
      obtain ⟨regs, -⟩ := canonical.regs (by rw [head]; rfl)
      rw [instOf_announced] at regs
      have size := inst.regDataSize
      rw [Inst32.regDataSize_eq regs] at size
      rw [inst.regIdSize]
      omega
    · rintro mem rfl
      rw [mem.dataSize]
      exact mem.body.dataSize_le
    · rintro info rfl
      rw [info.nameSize]
      have below := info.nsize.isLt
      omega
    · cases body with
      | id => exact real rfl
      | inst32 inst =>
        obtain ⟨regs, empty⟩ := canonical.regs (by rw [head]; rfl)
        rw [instOf_announced] at regs empty
        intro absent
        rw [Inst32.regDataSize_eq regs, empty absent]
        rfl
      | _ => exact trivial

/-- A header that announces three dates, followed by them. -/
def threeDates : List Byte :=
  [0, 0x01, 0x03] ++ List.replicate 36 0

theorem accepted_canonical_iff_jump :
    ∃ cont, hweRead (fun _ => 0) [0, 0, 0, 39] (hweWrite jumpEvent) = .done cont 66 ∧
      cont.Fits ∧ hweWrite cont = (hweWrite jumpEvent).take 66 := by
  have accepted : hweRead (fun _ => 0) [0, 0, 0, 39] (hweWrite jumpEvent) =
      .done ⟨hweIdCompute jumpEvent.common 39, jumpEvent.body⟩ 66 := by
    decide +kernel
  refine ⟨_, accepted, (accepted_canonical_iff accepted).mpr ?_⟩
  exact ⟨by decide +kernel, by decide +kernel, by decide +kernel, by decide +kernel⟩

/-- The third date is stored behind the array of dates. -/
theorem third_date_accepted :
    ∃ cont used, hweRead (fun _ => 0) [] threeDates = .done cont used ∧
      ¬ cont.Fits := by
  refine ⟨_, _, rfl, fun fits => ?_⟩
  exact absurd fits.dates (by decide)

end Reverse.Decopus
