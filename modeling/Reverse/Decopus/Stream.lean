import Reverse.Decopus.Codec
import Reverse.Decopus.TraceFile

/-!
# The stream of events

The written bytes are the announced bytes of a list of records, and the reader
finds these records one by one.  What is left is the identity of the events:
the reader counts from the same last index as the writer, so that it finds the
right index whenever the relative one is exact.  With indices that step by less
than `2 ^ 31` this can only fail for the first event of a device.
-/

namespace Reverse.Decopus

open Wire Function List

/-- A container as the constructors build it, within its capacities. -/
structure Cont.Built (cont : Cont) : Prop where
  real : cont.body ≠ .id
  current : cont.body.Current
  dates : cont.common.ndates.toNat ≤ 2
  refs : cont.common.nrefs.toNat ≤ 16
  regs : ∀ inst, cont.body = .inst32 inst → inst.body.nregs.toNat ≤ 18

/-- An event with its extensions, to which `hwe_extend` gives its id. -/
structure Event where
  main : Cont
  exts : List Cont
  sameId : ∀ ext ∈ exts, ext.common.id = main.common.id
  built : ∀ cont ∈ main :: exts, cont.Built

def Event.id (event : Event) : HweId := event.main.common.id

def Event.conts (event : Event) : List Cont := event.main :: event.exts

/-- The file that the writer leaves. -/
def writeTrace (events : List Event) : List Byte :=
  (bufferFlush (events.foldl
    (fun writer event => bufferEvent writer event.main event.exts)
    Writer.start)).file

/-- The record `HWE_ID` as a container. -/
def idCont (id : HweId) : Cont where
  common :=
    { id := id, rid := 0, expected := 0, nchild := 0, comChild := 0
      ndates := 0, dates := [], nrefs := 0, refs := []
      datesSize := noDates_size, refsSize := noRefs_size }
  body := .id

/-- The 32-bit difference to the last index fits the field `rid`. -/
def Near (index last : BitVec 64) : Prop :=
  -8 ≤ ((index - last).setWidth 32).toInt ∧ ((index - last).setWidth 32).toInt ≤ 7

instance (index last : BitVec 64) : Decidable (Near index last) :=
  inferInstanceAs (Decidable (_ ∧ _))

theorem hweHeadRidCompute_near (near : Near common.id.index last) :
    hweHeadRidCompute common last =
      ({ common with
          rid := ((common.id.index - last).setWidth 32).setWidth 4 },
        true) := by
  obtain ⟨low, high⟩ := near
  exact if_neg (by omega)

theorem hweHeadRidCompute_far (far : ¬ Near common.id.index last) :
    hweHeadRidCompute common last = ({ common with rid := 0 }, false) := by
  unfold Near at far
  exact if_pos (by omega)

def Cont.withRid (cont : Cont) (rid : BitVec 4) : Cont :=
  { cont with common := { cont.common with rid := rid } }

/-- The records of an event after one of the given index. -/
def Event.records (event : Event) (last : BitVec 64) : List Cont :=
  (if Near event.id.index last then
      [event.main.withRid (((event.id.index - last).setWidth 32).setWidth 4)]
    else [idCont event.id, event.main.withRid 0]) ++
    event.exts.map (·.withRid 0)

theorem hweIdWrite_eq (cont : Cont) : hweIdWrite cont = (idCont cont.common.id).announced := by
  simp [hweIdWrite, Cont.announced, hweHeadWrite, idCont, Cont.head, Body.announced, Body.type]

/-- The bytes that will be in the file. -/
def Writer.bytes (writer : Writer) : List Byte := writer.file ++ writer.buffer

section

variable (writer : Writer)

include writer

theorem reserve_bytes (size : Nat) : (writer.reserve size).bytes = writer.bytes := by
  unfold Writer.reserve
  split <;> simp [bufferFlush, Writer.bytes]

theorem reserve_lastid (size : Nat) : (writer.reserve size).lastid = writer.lastid := by
  unfold Writer.reserve
  split <;> rfl

theorem put_bytes (real : cont.body ≠ .id) :
    (writer.put cont).bytes = writer.bytes ++ cont.announced := by
  simp [Writer.put, Writer.bytes, hweWrite_take real]

theorem bufferExt_bytes (real : ext.body ≠ .id) :
    (bufferExt writer ext).bytes = writer.bytes ++ (ext.withRid 0).announced := by
  have written := put_bytes (writer.reserve (hweSizeof ext))
    (show (ext.withRid 0).body ≠ .id from real)
  rw [reserve_bytes] at written
  exact written

theorem bufferMain_bytes (real : main.body ≠ .id) :
    (bufferMain writer main).bytes =
      writer.bytes ++ (if Near main.common.id.index (writer.lastid main.common.id.devid) then
          [main.withRid (((main.common.id.index -
            writer.lastid main.common.id.devid).setWidth 32).setWidth 4)]
        else [idCont main.common.id, main.withRid 0]).flatMap
        Cont.announced := by
  have lastid := reserve_lastid writer (hweSizeof main + hweIdSizeof)
  have bytes := reserve_bytes writer (hweSizeof main + hweIdSizeof)
  have written : ∀ (before : Writer) (rid : BitVec 4),
      ((before.put (main.withRid rid)).note main.common.id).bytes =
        before.bytes ++ (main.withRid rid).announced :=
    fun before rid =>
      put_bytes before (show (main.withRid rid).body ≠ .id from real)
  by_cases near : Near main.common.id.index (writer.lastid main.common.id.devid)
  · simp only [bufferMain, lastid, hweHeadRidCompute_near near, if_pos near,
      if_true, flatMap_singleton]
    exact (written _ _).trans (by rw [bytes])
  · simp only [bufferMain, lastid, hweHeadRidCompute_far near, if_neg near,
      hweIdWrite_eq, flatMap_cons, flatMap_nil, append_nil,
      ← append_assoc]
    refine (written _ 0).trans (congrArg (· ++ _) ?_)
    rw [← bytes]
    exact (append_assoc _ _ _).symm

theorem bufferMain_lastid (main : Cont) :
    (bufferMain writer main).lastid = update writer.lastid
      main.common.id.devid main.common.id.index := by
  have lastid := reserve_lastid writer (hweSizeof main + hweIdSizeof)
  simp only [bufferMain, Writer.note, Writer.put]
  split
  · rw [lastid]
  · exact congrArg (update · _ _) lastid

theorem bufferExts_bytes {exts : List Cont} (real : ∀ ext ∈ exts, ext.body ≠ .id) :
    (exts.foldl bufferExt writer).bytes =
      writer.bytes ++ (exts.map (·.withRid 0)).flatMap Cont.announced := by
  induction exts generalizing writer with
  | nil => simp
  | cons ext exts ih =>
    rw [foldl_cons, ih _ fun later member =>
        real later (mem_cons_of_mem _ member),
      bufferExt_bytes _ (real ext (mem_cons_self ..))]
    simp

theorem bufferExts_lastid (exts : List Cont) :
    (exts.foldl bufferExt writer).lastid = writer.lastid := by
  induction exts generalizing writer with
  | nil => rfl
  | cons ext exts ih =>
    rw [foldl_cons, ih]
    exact reserve_lastid writer _

theorem bufferEvent_bytes (event : Event) :
    (bufferEvent writer event.main event.exts).bytes =
      writer.bytes ++ (event.records (writer.lastid event.id.devid)).flatMap Cont.announced := by
  have mainReal := (event.built event.main (mem_cons_self ..)).real
  have extsReal : ∀ ext ∈ event.exts, ext.body ≠ .id := fun ext member =>
    (event.built ext (mem_cons_of_mem _ member)).real
  rw [bufferEvent, bufferExts_bytes _ extsReal, bufferMain_bytes _ mainReal,
    Event.records, flatMap_append, append_assoc]
  rfl

theorem bufferEvent_lastid (event : Event) :
    (bufferEvent writer event.main event.exts).lastid =
      update writer.lastid event.id.devid event.id.index := by
  rw [bufferEvent, bufferExts_lastid, bufferMain_lastid]
  rfl

end

def allRecords (lastid : BitVec 8 → BitVec 64) : List Event → List Cont
  | [] => []
  | event :: events =>
    event.records (lastid event.id.devid) ++
      allRecords (update lastid event.id.devid event.id.index) events

theorem writeTrace_eq (events : List Event) :
    writeTrace events = (allRecords (fun _ => 0) events).flatMap Cont.announced := by
  suffices general : ∀ writer : Writer,
      (events.foldl (fun writer event =>
          bufferEvent writer event.main event.exts) writer).bytes =
        writer.bytes ++ (allRecords writer.lastid events).flatMap Cont.announced from
    general Writer.start
  induction events with
  | nil => simp [allRecords]
  | cons event events ih =>
    intro writer
    rw [foldl_cons, ih, bufferEvent_bytes, bufferEvent_lastid,
      allRecords, flatMap_append, append_assoc]

section

variable {deliver : Nat → List Byte → Nat}

namespace Source

variable (deliver) (source : Source) (size : Nat)

/-- The buffer when a container of the given size is decoded. -/
def ready : Source := if size ≤ source.buffered.length then source else source.refill deliver

/-- A container of the given size is in the buffer, or the refill brings the
rest of it and moves the part that is there no less than its length. -/
def Whole : Prop :=
  size ≤ source.buffered.length ∨
    source.buffered.length ≤ source.offset ∧ size ≤ (source.refill deliver).buffered.length

theorem ready_bytes : (source.ready deliver size).bytes = source.bytes := by
  unfold ready
  split
  · rfl
  · simp only [bytes, refill, append_assoc, take_append_drop]

end Source

variable {source : Source} {record : Cont} {rest : List Byte}

theorem Source.Whole.le_ready (whole : source.Whole deliver size) :
    size ≤ (source.ready deliver size).buffered.length := by
  unfold Source.ready
  split
  · assumption
  · next missing => exact (whole.resolve_left missing).2

/-- A start of the bytes that is long enough has the whole record. -/
theorem announced_buffered (bytes : source.bytes = record.announced ++ rest)
    (enough : record.announced.length ≤ source.buffered.length) :
    ∃ tail, source.buffered = record.announced ++ tail ∧ tail ++ source.file = rest := by
  have inBytes : record.announced <+: source.bytes := ⟨rest, bytes.symm⟩
  obtain ⟨tail, whole⟩ := prefix_of_prefix_length_le inBytes
    (prefix_append source.buffered source.file) enough
  refine ⟨tail, whole.symm, ?_⟩
  rw [Source.bytes, ← whole, append_assoc] at bytes
  exact append_cancel_left bytes

/-- A start of the bytes that is too short is a part of the record. -/
theorem announced_short (current : record.body.Current)
    (bytes : source.bytes = record.announced ++ rest)
    (missing : ¬ record.announced.length ≤ source.buffered.length)
    (old : Nat → Word) (previd : List (BitVec 64)) :
    hweRead old previd source.buffered = .short := by
  apply (hweRead_frames old previd current).part
  · exact prefix_of_prefix_length_le
      (prefix_append source.buffered source.file)
      ⟨rest, bytes.symm⟩ (by omega)
  · intro same
    rw [same] at missing
    exact missing (Nat.le_refl _)

theorem Source.Whole.behind (whole : source.Whole deliver record.announced.length)
    (bytes : source.bytes = record.announced ++ rest) :
    ((source.ready deliver record.announced.length).consume
      record.announced.length).bytes = rest := by
  obtain ⟨tail, buffered, isRest⟩ := announced_buffered
    ((source.ready_bytes deliver record.announced.length).trans bytes) whole.le_ready
  rw [Source.consume, Source.bytes, buffered, drop_left]
  exact isRest

section

variable (old : Nat → Nat → Word) (previd : List (BitVec 64)) (current : record.body.Current)
  (bytes : source.bytes = record.announced ++ rest)

include current bytes

theorem readContainer_whole (whole : source.Whole deliver record.announced.length) :
    readContainer deliver old previd source =
      .read (record.received (old source.bytes.length) (previd.getD record.common.id.devid.toNat 0))
        ((source.ready deliver record.announced.length).consume record.announced.length) := by
  have framed := hweRead_frames (old source.bytes.length) previd current
  obtain ⟨tail, buffered, -⟩ := announced_buffered
    ((source.ready_bytes deliver record.announced.length).trans bytes) whole.le_ready
  unfold Source.ready at buffered ⊢
  split at buffered
  · next enough =>
      rw [readContainer, if_pos enough, buffered, framed.whole]
  · next missing =>
      obtain ⟨apart, enough⟩ := whole.resolve_left missing
      have delivered : deliver (bufferSize - source.buffered.length) source.file ≠ 0 := by
        intro none
        simp only [Source.refill, none, take_zero, append_nil] at enough
        exact missing enough
      simp only [readContainer, announced_short current bytes missing, if_neg missing,
        if_neg (Nat.not_lt.mpr apart), if_neg delivered, buffered, framed.whole]

theorem readContainer_fails (missing : ¬ source.Whole deliver record.announced.length) :
    readContainer deliver old previd source ≠ .read cont later := by
  obtain ⟨short, refilled⟩ := not_or.mp missing
  simp only [readContainer, announced_short current bytes short]
  split
  · nofun
  · next apart =>
      split
      · nofun
      · have refillBytes : (source.refill deliver).bytes = record.announced ++ rest := by
          have same := source.ready_bytes deliver record.announced.length
          rwa [Source.ready, if_neg short, bytes] at same
        rw [announced_short current refillBytes fun enough =>
          refilled ⟨Nat.not_lt.mp apart, enough⟩]
        nofun

end

end

/-- A call of `read` on a file delivers all it can. -/
def fullRead (wanted : Nat) (file : List Byte) : Nat := min wanted file.length

theorem readContainer_end (old : Nat → Nat → Word) (previd : List (BitVec 64)) (offset : Nat) :
    readContainer fullRead old previd ⟨offset, [], []⟩ = .endOfFile := rfl

/-- As long as there is more in the file, the buffer was filled to its end. -/
def Source.Filled (source : Source) : Prop :=
  source.file = [] ∨ source.buffered = [] ∨ source.offset + source.buffered.length = bufferSize

theorem Source.Filled.whole {source : Source} (filled : source.Filled)
    (fits : 2 * size ≤ bufferSize) (enough : size ≤ source.bytes.length) :
    source.Whole fullRead size := by
  rw [Source.bytes, length_append] at enough
  by_cases whole : size ≤ source.buffered.length
  · exact .inl whole
  · refine .inr ⟨?_, ?_⟩
    · rcases filled with none | none | full
      · simp only [none, length_nil] at enough
        omega
      · simp [none]
      · omega
    · simp only [Source.refill, length_append, length_take, fullRead]
      omega

theorem Source.Filled.next {source : Source} (filled : source.Filled) (fits : 2 * size ≤ bufferSize)
    (whole : source.Whole fullRead size) : ((source.ready fullRead size).consume size).Filled := by
  have le := whole.le_ready
  unfold Source.ready at le ⊢
  split at le
  · next enough =>
      rw [if_pos enough]
      simp only [Source.Filled, Source.consume, length_drop]
      rcases filled with none | none | full
      · exact .inl none
      · simp [none]
      · omega
  · next missing =>
      rw [if_neg missing]
      simp only [Source.Filled, Source.consume, Source.refill, fullRead, length_drop,
        length_append, length_take, drop_eq_nil_iff]
      omega

/-- The array of the reader has the last index of each device. -/
structure Tracks (previd : List (BitVec 64))
    (lastid : BitVec 8 → BitVec 64) : Prop where
  size : previd.length = 16 ∨ previd.length = 32
  index : ∀ devid, previd.getD devid.toNat 0 = lastid devid

theorem tracks_start : Tracks (List.replicate 16 0) (fun _ => 0) where
  size := Or.inl length_replicate
  index devid := by
    rw [getD_eq_getElem?_getD, List.getElem?_replicate]
    split <;> rfl

theorem Tracks.update (tracks : Tracks previd lastid) {id : HweId} (known : id.devid.toNat < 32) :
    ∃ next, updatePrevid previd id = some next ∧ Tracks next (update lastid id.devid id.index) := by
  obtain ⟨size, index⟩ := tracks
  obtain ⟨grown, isGrown, grownSize, inside, grownIndex⟩ :
      ∃ grown : List (BitVec 64),
        (if previd.length ≤ id.devid.toNat then
          previd ++ List.replicate previd.length 0 else previd) = grown ∧
        (grown.length = 16 ∨ grown.length = 32) ∧
        id.devid.toNat < grown.length ∧
        ∀ devid : BitVec 8, grown.getD devid.toNat 0 = lastid devid := by
    split
    · next outside =>
        refine ⟨_, rfl, ?_, ?_, ?_⟩
        · rw [length_append, length_replicate]
          omega
        · rw [length_append, length_replicate]
          omega
        · intro devid
          rw [← index, getD_eq_getElem?_getD, List.getElem?_append, getD_eq_getElem?_getD]
          split
          · rfl
          · next above =>
              rw [List.getElem?_eq_none (Nat.le_of_not_lt above), List.getElem?_replicate]
              split <;> rfl
    · next inside => exact ⟨_, rfl, size, Nat.lt_of_not_le inside, index⟩
  refine ⟨grown.set id.devid.toNat id.index, ?_, ?_, ?_⟩
  · simp only [updatePrevid, isGrown, if_pos inside]
  · rwa [length_set]
  · intro devid
    rw [getD_eq_getElem?_getD]
    by_cases same : devid = id.devid
    · rw [same, List.getElem?_set_self inside, update_self]
      rfl
    · have apart : id.devid.toNat ≠ devid.toNat := fun equal =>
        same (BitVec.eq_of_toNat_eq equal.symm)
      rw [List.getElem?_set_ne apart, update_of_ne same, ← grownIndex, getD_eq_getElem?_getD]

/-- The containers that the reader finds in a list of records, counting from
the given last indices. -/
def receiveAll (old : Nat → Nat → Word) (lastid : BitVec 8 → BitVec 64) : List Cont → List Cont
  | [] => []
  | record :: records =>
    let cont := record.received
      (old ((record :: records).flatMap Cont.announced).length)
      (lastid record.common.id.devid)
    let rest := receiveAll old
      (update lastid cont.common.id.devid cont.common.id.index)
      records
    if cont.body = .id then rest else cont :: rest

/-- What the reader relies on in a record. -/
structure Cont.Readable (record : Cont) : Prop where
  current : record.body.Current
  fits : 2 * record.announced.length ≤ bufferSize
  known : record.common.id.devid.toNat < 32

theorem Cont.received_devid (cont : Cont) (old : Nat → Word) (prevId : BitVec 64) :
    (cont.received old prevId).common.id.devid = cont.common.id.devid := by
  unfold Cont.received
  split <;> rfl

theorem readLoop_eq (old : Nat → Nat → Word) (readable : ∀ record ∈ records, record.Readable)
    (tracks : Tracks previd lastid) (bytes : source.bytes = records.flatMap Cont.announced)
    (filled : source.Filled) (enough : records.length < fuel) (current : List Cont) :
    readLoop fullRead old fuel previd source current =
      some (group (·.common.id) current (receiveAll old lastid records)) := by
  induction records generalizing lastid previd source fuel current with
  | nil =>
    obtain ⟨fuel, rfl⟩ := Nat.exists_eq_add_of_lt enough
    obtain ⟨offset, buffered, file⟩ := source
    obtain ⟨rfl, rfl⟩ := append_eq_nil_iff.mp bytes
    cases current <;> simp [readLoop, readContainer_end, receiveAll, group]
  | cons record records ih =>
    obtain ⟨fuel, rfl⟩ := Nat.exists_eq_add_of_lt enough
    have whole := bytes
    rw [flatMap_cons] at whole
    obtain ⟨recordCurrent, fits, known⟩ := readable record (mem_cons_self ..)
    have inBuffer := filled.whole fits (by rw [whole, length_append]; omega)
    have nextBytes := inBuffer.behind whole
    have nextFilled := filled.next fits inBuffer
    have read := readContainer_whole old previd recordCurrent whole inBuffer
    rw [tracks.index] at read
    generalize isCont : record.received (old source.bytes.length)
      (lastid record.common.id.devid) = cont at read
    have knownCont : cont.common.id.devid.toNat < 32 := by
      rw [← isCont, Cont.received_devid]
      exact known
    obtain ⟨nextPrevid, updated, nextTracks⟩ := tracks.update knownCont
    have rest := fun current => ih (fun later member =>
      readable later (mem_cons_of_mem _ member)) nextTracks nextBytes nextFilled
      (show records.length < records.length + 1 + fuel by omega) current
    have received : receiveAll old lastid (record :: records) =
        if cont.body = .id then
          receiveAll old (update lastid cont.common.id.devid cont.common.id.index) records
        else cont :: receiveAll old (update lastid
          cont.common.id.devid cont.common.id.index) records := by
      rw [receiveAll, ← bytes, isCont]
    rw [received]
    simp only [length_cons, readLoop, read, updated, Option.bind_eq_bind, Option.bind_some]
    split
    · exact rest current
    · cases current with
      | nil =>
        rw [group.eq_def]
        exact rest [cont]
      | cons head tail =>
        rw [group.eq_def]
        simp only [rest, Option.bind_some]
        split <;> rfl

/-- What a container says: its relative id and register data that is not in
the trace are left out. -/
def Cont.content (cont : Cont) : Cont :=
  ⟨{ cont.common with rid := 0 }, cont.body.reread fun _ => 0⟩

def Cont.withIndex (cont : Cont) (index : BitVec 64) : Cont :=
  { cont with common := { cont.common with id := ⟨cont.common.id.devid, index⟩ } }

theorem Body.reread_reread (body : Body) (old new : Nat → Word) :
    (body.reread old).reread new = body.reread new := by
  cases body with
  | inst32 inst =>
    simp only [Body.reread, Body.inst32.injEq]
    apply InstCont.ext
    case regData =>
      simp only [InstCont.reread]
      split <;> rfl
    all_goals rfl
  | _ => rfl

theorem Body.reread_eq_id_iff (body : Body) (old : Nat → Word) :
    body.reread old = .id ↔ body = .id := by
  cases body <;> simp [Body.reread]

theorem receiveAll_id (old : Nat → Nat → Word)
    (lastid : BitVec 8 → BitVec 64) (id : HweId) (records : List Cont) :
    receiveAll old lastid (idCont id :: records) =
      receiveAll old (update lastid id.devid id.index) records :=
  rfl

theorem receiveAll_cont (old : Nat → Nat → Word)
    (lastid : BitVec 8 → BitVec 64) {cont : Cont} (real : cont.body ≠ .id)
    {id : HweId} (isId : cont.common.id = id) (rid : BitVec 4) (records : List Cont) :
    (receiveAll old lastid (cont.withRid rid :: records)).map Cont.content =
      cont.content.withIndex (lastid id.devid + rid.signExtend 64) ::
        (receiveAll old (update lastid id.devid
          (lastid id.devid + rid.signExtend 64)) records).map
            Cont.content := by
  subst isId
  rw [receiveAll]
  generalize old ((cont.withRid rid :: records).flatMap Cont.announced).length = data
  have received : (cont.withRid rid).received data
      (lastid (cont.withRid rid).common.id.devid) =
      ⟨hweIdCompute (cont.withRid rid).common (lastid cont.common.id.devid),
        cont.body.reread data⟩ := if_neg real
  have realRead : cont.body.reread data ≠ .id := (Body.reread_eq_id_iff _ _).not.mpr real
  rw [received]
  refine (congrArg (List.map Cont.content) (if_neg realRead)).trans ?_
  rw [map_cons]
  congr 1
  simp only [Cont.content, Cont.withIndex, Cont.withRid, hweIdCompute, Body.reread_reread]

theorem receiveAll_exts (old : Nat → Nat → Word) {lastid : BitVec 8 → BitVec 64} {exts : List Cont}
    (real : ∀ ext ∈ exts, ext.body ≠ .id) {id : HweId}
    (sameId : ∀ ext ∈ exts, ext.common.id = id) (records : List Cont) :
    (receiveAll old lastid (exts.map (·.withRid 0) ++ records)).map Cont.content =
      exts.map (fun ext => ext.content.withIndex (lastid id.devid)) ++
        (receiveAll old lastid records).map Cont.content := by
  induction exts with
  | nil => rfl
  | cons ext exts ih =>
    have zero : lastid id.devid + BitVec.signExtend 64 (0 : BitVec 4) = lastid id.devid := by
      simp
    rw [map_cons, cons_append,
      receiveAll_cont old lastid (real ext (mem_cons_self ..))
        (sameId ext (mem_cons_self ..)), zero,
      Function.update_eq_self, ih, map_cons, cons_append]
    · exact fun later member =>
        real later (mem_cons_of_mem _ member)
    · exact fun later member =>
        sameId later (mem_cons_of_mem _ member)

/-- The index that the reader finds for an event. -/
def readIndex (index last : BitVec 64) : BitVec 64 :=
  if Near index last then
    last + (((index - last).setWidth 32).setWidth 4).signExtend 64
  else index

theorem receiveAll_event (old : Nat → Nat → Word)
    (lastid : BitVec 8 → BitVec 64) (event : Event) (records : List Cont) :
    (receiveAll old lastid (event.records (lastid event.id.devid) ++ records)).map Cont.content =
      event.conts.map (fun cont => cont.content.withIndex
          (readIndex event.id.index (lastid event.id.devid))) ++
        (receiveAll old (update lastid event.id.devid
          (readIndex event.id.index (lastid event.id.devid))) records).map
          Cont.content := by
  have mainReal := (event.built event.main (mem_cons_self ..)).real
  have extsReal : ∀ ext ∈ event.exts, ext.body ≠ .id := fun ext member =>
    (event.built ext (mem_cons_of_mem _ member)).real
  have mainId : event.main.common.id = event.id := rfl
  have extsRead : ∀ index, (receiveAll old
      (update lastid event.id.devid index)
        (event.exts.map (·.withRid 0) ++ records)).map Cont.content =
      event.exts.map (fun ext => ext.content.withIndex index) ++
        (receiveAll old (update lastid event.id.devid index) records).map Cont.content := by
    intro index
    rw [receiveAll_exts old extsReal event.sameId, Event.id, update_self]
  by_cases near : Near event.id.index (lastid event.id.devid)
  · rw [Event.records, if_pos near, readIndex, if_pos near, append_assoc,
      singleton_append, receiveAll_cont old lastid mainReal mainId]
    exact congrArg _ (extsRead _)
  · rw [Event.records, if_neg near, readIndex, if_neg near,
      append_assoc, cons_append, receiveAll_id,
      singleton_append, receiveAll_cont old _ mainReal mainId]
    have zero : update lastid event.id.devid event.id.index
        event.id.devid + BitVec.signExtend 64 (0 : BitVec 4) =
        event.id.index := by
      simp
    rw [zero, Function.update_idem]
    exact congrArg _ (extsRead _)

/-- Every index is found, counting from the given last indices. -/
def AllExact (lastid : BitVec 8 → BitVec 64) : List Event → Prop
  | [] => True
  | event :: events =>
    readIndex event.id.index (lastid event.id.devid) = event.id.index ∧
      AllExact (update lastid event.id.devid event.id.index) events

theorem Event.conts_id (event : Event) : ∀ cont ∈ event.conts, cont.common.id = event.id := by
  intro cont member
  rcases mem_cons.mp member with isMain | isExt
  · rw [isMain]
    rfl
  · exact event.sameId cont isExt

theorem receiveAll_eq_iff (old : Nat → Nat → Word) (events : List Event)
    (lastid : BitVec 8 → BitVec 64) :
    (receiveAll old lastid (allRecords lastid events)).map Cont.content =
        events.flatMap (fun event => event.conts.map Cont.content) ↔
      AllExact lastid events := by
  induction events generalizing lastid with
  | nil => simp [allRecords, receiveAll, AllExact]
  | cons event events ih =>
    rw [allRecords, receiveAll_event, flatMap_cons, AllExact]
    by_cases found : readIndex event.id.index (lastid event.id.devid) = event.id.index
    · have same : event.conts.map (fun cont =>
          cont.content.withIndex event.id.index) =
          event.conts.map Cont.content := by
        apply map_congr_left
        intro cont member
        rw [← event.conts_id cont member]
        rfl
      rw [found, same, append_right_inj, ih]
      simp
    · refine iff_of_false ?_ (fun both => found both.1)
      intro same
      have heads := (List.cons.inj same).1
      exact found (congrArg (fun cont => cont.common.id.index) heads)

theorem Cont.Built.withRid {cont : Cont} (built : cont.Built)
    (rid : BitVec 4) : (cont.withRid rid).Built :=
  ⟨built.real, built.current, built.dates, built.refs, built.regs⟩

theorem Cont.Built.sizeof_le (built : cont.Built) : 2 * hweSizeof cont ≤ bufferSize := by
  obtain ⟨_, _, dates, refs, regs⟩ := built
  have head : hweHeadSizeof cont ≤ 175 := by
    unfold hweHeadSizeof
    omega
  unfold bufferSize
  obtain ⟨common, body⟩ := cont
  cases body with
  | id => simp [hweSizeof, hweIdSizeof]
  | info info =>
    have nsize := info.nsize.isLt
    have detail : hweDeviceSizeof info.detail.device ≤ 9 := by
      cases info.detail.device <;> decide
    simp only [hweSizeof, hweInfoSizeof]
    omega
  | mem32 mem =>
    have width := mem.body.width.isLt
    simp only [hweSizeof, hweMem32Sizeof]
    split <;> omega
  | inst32 inst =>
    have few := regs inst rfl
    have data : inst.body.regDataSize ≤ 4 * inst.body.nregs.toNat := by
      rw [Inst32.regDataSize, BitVec.toNat_mul]
      exact Nat.mod_le _ _
    simp only [hweSizeof, hweInst32Sizeof]
    split <;> split <;> omega
  | _ =>
    simp only [hweSizeof, hweMemglobalSizeof, hweAckSizeof, hweExcep32Sizeof, hweCpu32Sizeof]
    omega

theorem Cont.Built.readable {cont : Cont} (built : cont.Built)
    (known : cont.common.id.devid.toNat < 32) : cont.Readable :=
  ⟨built.current, Cont.announced_length built.real ▸ built.sizeof_le, known⟩

theorem idCont_readable {id : HweId} (known : id.devid.toNat < 32) : (idCont id).Readable := by
  refine ⟨trivial, ?_, known⟩
  simp [Cont.announced, hweHeadWrite, idCont, Body.announced, bufferSize]

theorem Event.records_readable {event : Event}
    (known : event.id.devid.toNat < 32) (last : BitVec 64) :
    ∀ record ∈ event.records last, record.Readable := by
  have built : ∀ cont ∈ event.conts, ∀ rid, (cont.withRid rid).Readable := by
    intro cont member rid
    refine ((event.built cont member).withRid rid).readable ?_
    change cont.common.id.devid.toNat < 32
    rwa [event.conts_id cont member]
  have main := built event.main (mem_cons_self ..)
  intro record member
  rcases mem_append.mp member with isMain | isExt
  · split at isMain
    · rw [mem_singleton.mp isMain]
      exact main _
    · rcases mem_cons.mp isMain with isId | isMain
      · rw [isId]
        exact idCont_readable known
      · rw [mem_singleton.mp isMain]
        exact main _
  · obtain ⟨ext, extMember, rfl⟩ := mem_map.mp isExt
    exact built ext (mem_cons_of_mem _ extMember) 0

theorem allRecords_readable {events : List Event}
    (known : ∀ event ∈ events, event.id.devid.toNat < 32) (lastid : BitVec 8 → BitVec 64) :
    ∀ record ∈ allRecords lastid events, record.Readable := by
  induction events generalizing lastid with
  | nil => simp [allRecords]
  | cons event events ih =>
    intro record member
    rcases mem_append.mp member with here | later
    · exact event.records_readable (known event (mem_cons_self ..)) _ record here
    · exact ih (fun other inside =>
        known other (mem_cons_of_mem _ inside)) _ record later

theorem signExtend_eq_iff (difference : BitVec 64) :
    (((difference.setWidth 32).setWidth 4).signExtend 64 = difference) ↔
      -8 ≤ difference.toInt ∧ difference.toInt ≤ 7 := by
  have below := difference.isLt
  rw [← BitVec.toInt_inj, BitVec.toInt_signExtend_of_le (by decide)]
  simp only [BitVec.toInt_eq_toNat_bmod, BitVec.toNat_setWidth, Int.bmod]
  omega

theorem readIndex_eq_iff (index last : BitVec 64) :
    readIndex index last = index ↔
      (Near index last → -8 ≤ (index - last).toInt ∧ (index - last).toInt ≤ 7) := by
  unfold readIndex
  split
  · next near =>
      rw [← signExtend_eq_iff, imp_iff_right near]
      generalize (((index - last).setWidth 32).setWidth 4).signExtend 64 = relative
      constructor
      · intro same
        bv_omega
      · intro same
        bv_omega
  · next far => simp [far]

theorem readIndex_of_close (close : ((index.toNat : Int) - last.toNat).natAbs < 2 ^ 31) :
    readIndex index last = index := by
  rw [readIndex_eq_iff]
  rintro ⟨low, high⟩
  have indexBelow := index.isLt
  have lastBelow := last.isLt
  simp only [BitVec.toInt_eq_toNat_bmod, BitVec.toNat_setWidth,
    BitVec.toNat_sub, Int.bmod] at low high ⊢
  omega

/-- The last indices after some events. -/
def lastAfter (lastid : BitVec 8 → BitVec 64) (events : List Event) : BitVec 8 → BitVec 64 :=
  events.foldl (fun lastid event =>
    update lastid event.id.devid event.id.index) lastid

theorem allExact_iff (events : List Event) (lastid : BitVec 8 → BitVec 64) :
    AllExact lastid events ↔
      ∀ before event after, events = before ++ event :: after →
        readIndex event.id.index (lastAfter lastid before event.id.devid) =
          event.id.index := by
  induction events generalizing lastid with
  | nil => simp [AllExact]
  | cons first events ih =>
    rw [AllExact, ih]
    constructor
    · rintro ⟨found, later⟩ before event after split
      cases before with
      | nil =>
        cases split
        exact found
      | cons head before =>
        cases split
        exact later before event after rfl
    · intro all
      refine ⟨all [] first events rfl, ?_⟩
      rintro before event after rfl
      exact all (first :: before) event after rfl

theorem lastAfter_cases (lastid : BitVec 8 → BitVec 64) (events : List Event) (devid : BitVec 8) :
    ((∀ event ∈ events, event.id.devid ≠ devid) ∧ lastAfter lastid events devid = lastid devid) ∨
      ∃ before event between, events = before ++ event :: between ∧
        event.id.devid = devid ∧
        (∀ other ∈ between, other.id.devid ≠ devid) ∧
        lastAfter lastid events devid = event.id.index := by
  induction events using List.reverseRecOn with
  | nil => exact Or.inl ⟨by simp, rfl⟩
  | append_singleton events last ih =>
    have step : lastAfter lastid (events ++ [last]) devid =
        update (lastAfter lastid events) last.id.devid last.id.index devid := by
      simp [lastAfter]
    by_cases same : last.id.devid = devid
    · refine Or.inr ⟨events, last, [], rfl, same, by simp, ?_⟩
      rw [step, same, update_self]
    · rw [update_of_ne (Ne.symm same)] at step
      rcases ih with ⟨none, unchanged⟩ | ⟨before, event, between, rfl, isDevice, others, found⟩
      · refine Or.inl ⟨?_, step.trans unchanged⟩
        intro event member
        rcases mem_append.mp member with old | new
        · exact none event old
        · rwa [mem_singleton.mp new]
      · refine Or.inr ⟨before, event, between ++ [last], by simp, isDevice, ?_, step.trans found⟩
        intro other member
        rcases mem_append.mp member with old | new
        · exact others other old
        · rwa [mem_singleton.mp new]

/-- Consecutive events of a device have different indices less than `2 ^ 31`
apart. -/
def Stepping (events : List Event) : Prop :=
  ∀ before event between next after,
    events = before ++ event :: (between ++ next :: after) →
    next.id.devid = event.id.devid →
    (∀ other ∈ between, other.id.devid ≠ event.id.devid) →
    next.id.index ≠ event.id.index ∧
      ((next.id.index.toNat : Int) - event.id.index.toNat).natAbs < 2 ^ 31

/-- The first index of each device has small low 32 bits only if it is small
itself, both read as signed numbers. -/
def FirstIndicesPlain (events : List Event) : Prop :=
  ∀ before event after, events = before ++ event :: after →
    (∀ other ∈ before, other.id.devid ≠ event.id.devid) →
    -8 ≤ (event.id.index.setWidth 32).toInt →
    (event.id.index.setWidth 32).toInt ≤ 7 →
    -8 ≤ event.id.index.toInt ∧ event.id.index.toInt ≤ 7

theorem Stepping.allExact_iff (stepping : Stepping events) :
    AllExact (fun _ => 0) events ↔ FirstIndicesPlain events := by
  rw [Decopus.allExact_iff]
  constructor
  · intro all before event after isSplit first low high
    have found := all before event after isSplit
    rcases lastAfter_cases (fun _ => 0) before event.id.devid with
      ⟨_, zero⟩ | ⟨_, other, _, rfl, isDevice, _⟩
    · rw [zero, readIndex_eq_iff] at found
      simpa using found ⟨by simpa using low, by simpa using high⟩
    · exact (first other (by simp) isDevice).elim
  · intro plain before event after isSplit
    rcases lastAfter_cases (fun _ => 0) before event.id.devid with
      ⟨first, zero⟩ | ⟨start, last, between, rfl, isDevice, others, found⟩
    · rw [zero, readIndex_eq_iff]
      rintro ⟨low, high⟩
      have bounds := plain before event after isSplit first
        (by simpa using low) (by simpa using high)
      simpa using bounds
    · rw [found]
      refine readIndex_of_close (stepping start last between event after ?_ isDevice.symm ?_).2
      · rw [isSplit]
        simp
      · rwa [isDevice]

theorem Stepping.apart (stepping : Stepping events) :
    events.IsChain fun event next => event.id ≠ next.id := by
  apply isChain_iff_forall_rel_of_append_cons_cons.mpr
  intro event next before after isSplit same
  have differs := (stepping before event [] next after isSplit
    (congrArg HweId.devid same).symm (by simp)).1
  exact differs (congrArg HweId.index same).symm

theorem records_length_le (records : List Cont) :
    records.length ≤ (records.flatMap Cont.announced).length := by
  induction records with
  | nil => simp
  | cons record records ih =>
    have positive : 1 ≤ record.announced.length := by
      simp [Cont.announced, hweHeadWrite]
    rw [flatMap_cons, length_append, length_cons]
    omega

theorem readTrace_writeTrace (old : Nat → Nat → Word)
    (known : ∀ event ∈ events, event.id.devid.toNat < 32) :
    readTrace fullRead old (writeTrace events) =
      some (group (·.common.id) []
        (receiveAll old (fun _ => 0) (allRecords (fun _ => 0) events))) := by
  have written := writeTrace_eq events
  have bytes : Source.bytes ⟨0, [], writeTrace events⟩ =
      (allRecords (fun _ => 0) events).flatMap Cont.announced := written
  refine readLoop_eq old (allRecords_readable known _) tracks_start bytes (.inr (.inl rfl)) ?_ []
  rw [written]
  exact Nat.lt_succ_of_le (records_length_le _)

/-- Reading the written trace gives the same events, with the same containers
in each, exactly when the first index of each device is plain. -/
theorem stream_identity_iff (old : Nat → Nat → Word) (events : List Event)
    (known : ∀ event ∈ events, event.id.devid.toNat < 32) (stepping : Stepping events) :
    (∃ groups, readTrace fullRead old (writeTrace events) = some groups ∧
        groups.map (List.map Cont.content) = events.map fun event => event.conts.map Cont.content) ↔
      FirstIndicesPlain events := by
  rw [← stepping.allExact_iff, ← receiveAll_eq_iff old, readTrace_writeTrace old known]
  have contents : (group (fun cont : Cont => cont.common.id) []
      (receiveAll old (fun _ => 0) (allRecords (fun _ => 0) events))).map
        (List.map Cont.content) =
      group (fun cont : Cont => cont.common.id) []
        ((receiveAll old (fun _ => 0) (allRecords (fun _ => 0) events)).map
          Cont.content) :=
    @group_map _ _ _ _ (fun cont => cont.common.id)
      (fun cont => cont.common.id) Cont.content (fun _ => rfl) [] _
  constructor
  · rintro ⟨groups, isGroups, same⟩
    cases isGroups
    rw [contents] at same
    have flat := congrArg List.flatten same
    rwa [group_flatten, nil_append, ← flatMap_def] at flat
  · intro flat
    have filled : ∀ event : Event, event.conts.map Cont.content ≠ [] := by
      intro event
      simp [Event.conts]
    have named : ∀ event : Event, ∀ item ∈ event.conts.map Cont.content,
        item.common.id = event.id := by
      intro event item member
      obtain ⟨cont, inside, rfl⟩ := mem_map.mp member
      exact event.conts_id cont inside
    refine ⟨_, rfl, ?_⟩
    rw [contents, flat]
    exact group_blocks filled named stepping.apart

/-- An event of one empty container. -/
def nullEvent (id : HweId) : Event where
  main :=
    { common := (idCont id).common, body := .null }
  exts := []
  sameId := by simp
  built := by
    intro cont member
    rw [mem_singleton.mp member]
    exact ⟨nofun, trivial, show (0 : BitVec 2).toNat ≤ 2 by decide,
      show (0 : BitVec 6).toNat ≤ 16 by decide, nofun⟩

/-- A device that starts at 5 and goes on at 1005, too far for `rid`. -/
theorem stream_identity_iff_jump :
    (∃ groups, readTrace fullRead (fun _ _ => 0)
          (writeTrace [nullEvent ⟨1, 5⟩, nullEvent ⟨1, 1005⟩]) = some groups ∧
        groups.map (List.map Cont.content) =
          [nullEvent ⟨1, 5⟩, nullEvent ⟨1, 1005⟩].map fun event => event.conts.map Cont.content) ↔
      FirstIndicesPlain [nullEvent ⟨1, 5⟩, nullEvent ⟨1, 1005⟩] := by
  refine stream_identity_iff _ _ (by decide) ?_
  intro before event between next after isSplit _ _
  have lengths := congrArg List.length isSplit
  simp only [length_cons, length_append, length_nil] at lengths
  obtain rfl := eq_nil_of_length_eq_zero (show before.length = 0 by omega)
  obtain rfl := eq_nil_of_length_eq_zero (show between.length = 0 by omega)
  simp only [nil_append, List.cons.injEq] at isSplit
  obtain ⟨rfl, rfl, _⟩ := isSplit
  decide

/-- The first index `2 ^ 32` of a device is written as 0 and read as such. -/
theorem first_index_lost :
    (nullEvent ⟨0, 1 <<< 32⟩).id = ⟨0, 0x100000000⟩ ∧
      (readTrace fullRead (fun _ _ => 0)
        (writeTrace [nullEvent ⟨0, 1 <<< 32⟩])).map
          (List.map (List.map fun cont => cont.common.id)) =
        some [[⟨0, 0⟩]] := by
  decide

end Reverse.Decopus
