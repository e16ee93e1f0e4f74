import Reverse.Decopus.Canonical
import Reverse.Decopus.Stream

/-!
# The buffer of the trace writer

`buffer_event` puts a container at the end of the used part of the buffer and
then moves this end by what `hwe_sizeof` says.  If `hwe_write` has emitted more,
the next container is written over the surplus.  Here the buffer is the memory
that it is in the source, and a record of the writes since the last flush says
where each one started and how many bytes it emitted.
-/

namespace Reverse.Decopus

open Wire List

/-- A container of any type that a constructor sets.  Two of the types have no
case in `hwe_sizeof` and `hwe_write`. -/
inductive AnyCont where
  | known (cont : Cont)
  | commit (common : HeadCont)
  | spare (common : HeadCont)

namespace AnyCont

def common : AnyCont → HeadCont
  | .known cont => cont.common
  | .commit common => common
  | .spare common => common

def withCommon (common : HeadCont) : AnyCont → AnyCont
  | .known cont => .known ⟨common, cont.body⟩
  | .commit _ => .commit common
  | .spare _ => .spare common

/-- The value of `hwe_sizeof`. -/
def size : AnyCont → Nat
  | .known cont => hweSizeof cont
  | .commit _ => 0
  | .spare _ => 0

/-- The bytes that `hwe_write` emits. -/
def written : AnyCont → List Byte
  | .known cont => hweWrite cont
  | .commit common => headBytes 12 common
  | .spare common => headBytes 13 common

/-- The type has cases in both functions, and an instruction without `regdata`
has no registers. -/
def Sized : AnyCont → Prop
  | .known cont => cont.body.Rewritten
  | .commit _ => False
  | .spare _ => False

end AnyCont

theorem headBytes_length (type : BitVec 4) (common : HeadCont) :
    (headBytes type common).length = 15 + 8 * common.ndates.toNat + 9 * common.nrefs.toNat := by
  simp only [headBytes, length_append, bytesOf_length,
    flatMap_length (leBytes_length 8),
    flatMap_length (bytesOf_length HweId.layout), common.datesSize,
    common.refsSize, length_singleton]

theorem hweSizeof_le (cont : Cont) : hweSizeof cont ≤ (hweWrite cont).length := by
  by_cases isId : cont.body = .id
  · obtain ⟨common, body⟩ := cont
    subst isId
    simp only [hweWrite, hweSizeof, hweIdSizeof, hweIdWrite,
      length_append, bytesOf_length, leBytes_length,
      length_singleton]
    omega
  · obtain ⟨rest, written, -⟩ := hweWrite_eq_append isId
    rw [written, length_append, Cont.announced_length isId]
    omega

theorem AnyCont.size_eq_iff (cont : AnyCont) : cont.size = cont.written.length ↔ cont.Sized := by
  cases cont with
  | known cont =>
    change hweSizeof cont = (hweWrite cont).length ↔ cont.body.Rewritten
    rw [← hweWrite_eq_announced_iff]
    by_cases isId : cont.body = .id
    · obtain ⟨common, body⟩ := cont
      subst isId
      simp only [hweWrite_eq_announced_iff, Body.Rewritten, iff_false]
      simp only [hweWrite, hweSizeof, hweIdSizeof, hweIdWrite,
        hweHeadWrite_length, hweHeadSizeof, length_append,
        bytesOf_length, leBytes_length, length_singleton]
      omega
    · obtain ⟨rest, written, -⟩ := hweWrite_eq_append isId
      rw [written, length_append, Cont.announced_length isId,
        append_right_eq_self, ← length_eq_zero_iff]
      omega
  | commit common | spare common =>
    simp only [size, AnyCont.written, Sized, headBytes_length, iff_false]
    omega

theorem hweHeadRidCompute_size (cont : Cont) (last : BitVec 64) :
    hweSizeof ⟨(hweHeadRidCompute cont.common last).1, cont.body⟩ = hweSizeof cont := by
  by_cases near : Near cont.common.id.index last
  · rw [hweHeadRidCompute_near near]
    rfl
  · rw [hweHeadRidCompute_far near]
    rfl

theorem hweHeadRidCompute_sizes (cont : AnyCont) (last : BitVec 64) :
    let common := (hweHeadRidCompute cont.common last).1
    (cont.withCommon common).size = cont.size ∧ ((cont.withCommon common).Sized ↔ cont.Sized) := by
  cases cont with
  | known cont => exact ⟨hweHeadRidCompute_size cont last, Iff.rfl⟩
  | commit common => exact ⟨rfl, Iff.rfl⟩
  | spare common => exact ⟨rfl, Iff.rfl⟩

/-- The variables of the writer.  The last field has the start and the length
of each write since the last flush. -/
structure Buffer where
  memory : Nat → Byte
  bufsize : Nat
  file : List Byte
  lastid : BitVec 8 → BitVec 64
  writes : List (Nat × Nat)

namespace Buffer

/-- The state after `process_init`, with what `malloc` returned. -/
def start (memory : Nat → Byte) : Buffer := ⟨memory, 0, [], fun _ => 0, []⟩

/-- The used part of the buffer. -/
def contents (buffer : Buffer) : List Byte :=
  (List.range buffer.bufsize).map buffer.memory

def flush (buffer : Buffer) : Buffer :=
  { buffer with
    file := buffer.file ++ buffer.contents, bufsize := 0, writes := [] }

/-- The bytes are written at the end of the used part, which then grows by the
given size. -/
def emit (buffer : Buffer) (bytes : List Byte) (size : Nat) : Buffer :=
  { buffer with
    memory := fun place =>
      if place < buffer.bufsize then buffer.memory place
      else bytes.getD (place - buffer.bufsize) (buffer.memory place)
    bufsize := buffer.bufsize + size
    writes := buffer.writes ++ [(buffer.bufsize, bytes.length)] }

def reserve (buffer : Buffer) (size : Nat) : Buffer :=
  if buffer.bufsize + size > bufferSize then buffer.flush else buffer

/-- If the index is not near the last one, an `HWE_ID` record is written. -/
def identify (buffer : Buffer) (common : HeadCont) (near : Bool) : Buffer :=
  if near then buffer
  else buffer.emit (hweIdWrite ⟨common, .id⟩) hweIdSizeof

def note (buffer : Buffer) (id : HweId) : Buffer :=
  { buffer with lastid := Function.update buffer.lastid id.devid id.index }

def main (buffer : Buffer) (cont : AnyCont) : Buffer :=
  let reserved := buffer.reserve (cont.size + hweIdSizeof)
  let (common, near) := hweHeadRidCompute cont.common (reserved.lastid cont.common.id.devid)
  ((reserved.identify common near).emit (cont.withCommon common).written
    cont.size).note cont.common.id

def ext (buffer : Buffer) (cont : AnyCont) : Buffer :=
  (buffer.reserve cont.size).emit (cont.withCommon (hweHeadRidZero cont.common)).written cont.size

/-- The function `buffer_event`. -/
def event (buffer : Buffer) (main : AnyCont) (exts : List AnyCont) : Buffer :=
  exts.foldl ext (buffer.main main)

/-- What the writer is about: the file and the used part of the buffer. -/
def writer (buffer : Buffer) : Writer :=
  ⟨buffer.file, buffer.contents, buffer.lastid⟩

section

variable (buffer : Buffer)

include buffer

theorem contents_length : buffer.contents.length = buffer.bufsize := by
  rw [contents, length_map, length_range]

theorem contents_emit (counted : size ≤ bytes.length) :
    (buffer.emit bytes size).contents = buffer.contents ++ bytes.take size := by
  apply ext_getElem
  · simp only [contents_length, length_append, length_take]
    change buffer.bufsize + size = _
    omega
  · intro place inside _
    rw [contents_length] at inside
    change place < buffer.bufsize + size at inside
    rw [getElem_append]
    simp only [contents, emit, getElem_map, getElem_range, length_map, length_range, getElem_take]
    split
    · rfl
    · next beyond =>
        rw [getD_eq_getElem?_getD, List.getElem?_eq_getElem (by omega), Option.getD_some]

theorem writer_reserve (size : Nat) :
    (buffer.reserve size).writer = buffer.writer.reserve size := by
  have length : buffer.writer.buffer.length = buffer.bufsize := buffer.contents_length
  rw [reserve, Writer.reserve, length]
  split <;> rfl

theorem writer_emit_cont (cont : Cont) :
    (buffer.emit (hweWrite cont) (hweSizeof cont)).writer = buffer.writer.put cont := by
  simp only [writer, contents_emit buffer (hweSizeof_le cont), Writer.put]
  rfl

theorem writer_identify (common : HeadCont) (body : Body) (near : Bool) :
    (buffer.identify common near).writer =
      if near then buffer.writer
      else
        { buffer.writer with
          buffer := buffer.writer.buffer ++ hweIdWrite ⟨common, body⟩ } := by
  have length : (hweIdWrite ⟨common, .id⟩).length = hweIdSizeof := by
    simp [hweIdWrite, hweIdSizeof]
  have contents := contents_emit buffer (Nat.le_of_eq length.symm)
  rw [← length, take_length] at contents
  unfold identify
  split
  · rfl
  · rw [← length]
    exact congrArg (Writer.mk buffer.file · buffer.lastid) contents

theorem writer_main (main : Cont) :
    (buffer.main (.known main)).writer = bufferMain buffer.writer main := by
  unfold Buffer.main bufferMain
  rw [← writer_reserve]
  simp only [AnyCont.common, AnyCont.size]
  generalize buffer.reserve (hweSizeof main + hweIdSizeof) = reserved
  have size := hweHeadRidCompute_size main (reserved.lastid main.common.id.devid)
  have lastid : reserved.writer.lastid = reserved.lastid := rfl
  rw [lastid]
  generalize hweHeadRidCompute main.common
    (reserved.lastid main.common.id.devid) = computed at size ⊢
  obtain ⟨common, near⟩ := computed
  dsimp only at size ⊢
  have emitted := writer_emit_cont (reserved.identify common near) ⟨common, main.body⟩
  rw [size, writer_identify reserved common main.body] at emitted
  exact congrArg (Writer.note · main.common.id) emitted

theorem writer_ext (cont : Cont) :
    (buffer.ext (.known cont)).writer = bufferExt buffer.writer cont := by
  rw [bufferExt, ← writer_reserve, ← writer_emit_cont]
  rfl

/-- The model of the writer by lists is what the memory of the buffer shows. -/
theorem writer_event (main : Cont) (exts : List Cont) :
    (buffer.event (.known main) (exts.map .known)).writer =
      bufferEvent buffer.writer main exts := by
  rw [event, bufferEvent, ← writer_main]
  generalize buffer.main (.known main) = before
  induction exts generalizing before with
  | nil => rfl
  | cons cont exts ih =>
    rw [map_cons, foldl_cons, foldl_cons, ih, writer_ext]

end

/-- Whatever `malloc` has returned and wherever the buffer was flushed, the file
has the records of the events one behind the other. -/
theorem file_records (memory : Nat → Byte) (events : List Event) :
    (events.foldl (fun buffer event => buffer.event (.known event.main) (event.exts.map .known))
        (start memory)).flush.file =
      (allRecords (fun _ => 0) events).flatMap Cont.announced := by
  have run (buffer : Buffer) :
      (events.foldl (fun buffer event =>
        buffer.event (.known event.main) (event.exts.map .known)) buffer).writer =
        events.foldl (fun writer event => bufferEvent writer event.main event.exts)
          buffer.writer := by
    induction events generalizing buffer with
    | nil => rfl
    | cons event events ih =>
      rw [foldl_cons, foldl_cons, ih, writer_event]
  rw [← writeTrace_eq, writeTrace]
  exact congrArg (fun writer => (bufferFlush writer).file) (run (start memory))

/-- The used part is as long as what was emitted since the last flush, and each
write starts where those before it end. -/
structure Exact (buffer : Buffer) : Prop where
  size : buffer.bufsize = (buffer.writes.map Prod.snd).sum
  starts : ∀ n place count, buffer.writes[n]? = some (place, count) →
    place = ((buffer.writes.take n).map Prod.snd).sum

variable {buffer : Buffer}

theorem exact_start (memory : Nat → Byte) : (start memory).Exact :=
  ⟨rfl, by simp [start]⟩

theorem Exact.emit_iff (exact : buffer.Exact) (bytes : List Byte)
    (size : Nat) : (buffer.emit bytes size).Exact ↔ size = bytes.length := by
  have total : ((buffer.emit bytes size).writes.map Prod.snd).sum =
      buffer.bufsize + bytes.length := by
    simp [emit, exact.size]
  constructor
  · intro emitted
    have sizes : buffer.bufsize + size = _ := emitted.size
    rw [total] at sizes
    omega
  · rintro rfl
    refine ⟨total.symm, fun n place count found => ?_⟩
    change (buffer.writes ++ [(buffer.bufsize, bytes.length)])[n]? = _ at found
    change place = (((buffer.writes ++ [_]).take n).map Prod.snd).sum
    by_cases old : n < buffer.writes.length
    · rw [List.getElem?_append_left old] at found
      rw [take_append_of_le_length (Nat.le_of_lt old)]
      exact exact.starts n place count found
    · have inside := (List.getElem?_eq_some_iff.mp found).1
      rw [length_append, length_singleton] at inside
      have last : n = buffer.writes.length := by omega
      subst last
      rw [List.getElem?_concat_length] at found
      cases found
      rw [take_left]
      exact exact.size

theorem Exact.reserve (exact : buffer.Exact) (size : Nat) : (buffer.reserve size).Exact := by
  unfold Buffer.reserve
  split
  · exact ⟨rfl, by simp [flush]⟩
  · exact exact

theorem Exact.identify (exact : buffer.Exact) (common : HeadCont)
    (near : Bool) : (buffer.identify common near).Exact := by
  unfold Buffer.identify
  split
  · exact exact
  · apply (exact.emit_iff _ _).mpr
    simp [hweIdWrite, hweIdSizeof]

theorem exact_note_iff (id : HweId) : (buffer.note id).Exact ↔ buffer.Exact :=
  ⟨fun exact => ⟨exact.size, exact.starts⟩,
    fun exact => ⟨exact.size, exact.starts⟩⟩

theorem Exact.main_iff (exact : buffer.Exact) (cont : AnyCont) :
    (buffer.main cont).Exact ↔ cont.Sized := by
  have reserved := exact.reserve (cont.size + hweIdSizeof)
  unfold Buffer.main
  dsimp only
  generalize buffer.reserve (cont.size + hweIdSizeof) = before at reserved
  have size := hweHeadRidCompute_sizes cont (before.lastid cont.common.id.devid)
  generalize hweHeadRidCompute cont.common (before.lastid cont.common.id.devid) = computed at size
  obtain ⟨common, near⟩ := computed
  obtain ⟨size, sized⟩ := size
  rw [exact_note_iff, (reserved.identify common near).emit_iff, ← size,
    ← sized, AnyCont.size_eq_iff]

theorem Exact.ext_iff (exact : buffer.Exact) (cont : AnyCont) :
    (buffer.ext cont).Exact ↔ cont.Sized := by
  have same := AnyCont.size_eq_iff (cont.withCommon (hweHeadRidZero cont.common))
  unfold Buffer.ext
  rw [(exact.reserve cont.size).emit_iff]
  cases cont <;> exact same

/-- A main or an additional container is written. -/
inductive Step where
  | main (cont : AnyCont)
  | ext (cont : AnyCont)

def Step.cont : Step → AnyCont
  | .main cont => cont
  | .ext cont => cont

def step (buffer : Buffer) : Step → Buffer
  | .main cont => buffer.main cont
  | .ext cont => buffer.ext cont

/-- The steps in which a sequence of events is written. -/
def steps (events : List (AnyCont × List AnyCont)) : List Step :=
  events.flatMap fun event => .main event.1 :: event.2.map .ext

theorem foldl_steps (events : List (AnyCont × List AnyCont)) (buffer : Buffer) :
    (steps events).foldl step buffer =
      events.foldl (fun buffer event => buffer.event event.1 event.2)
        buffer := by
  induction events generalizing buffer with
  | nil => rfl
  | cons event events ih =>
    rw [foldl_cons, ← ih, steps, flatMap_cons, foldl_append, foldl_cons, foldl_map]
    rfl

theorem Exact.step_iff (exact : buffer.Exact) (next : Step) :
    (buffer.step next).Exact ↔ next.cont.Sized := by
  cases next with
  | main cont => exact exact.main_iff cont
  | ext cont => exact exact.ext_iff cont

/-- The buffer is exact all the time exactly if every container is sized. -/
theorem Exact.run_iff (exact : buffer.Exact) (steps : List Step) :
    (∀ n, ((steps.take n).foldl step buffer).Exact) ↔ ∀ next ∈ steps, next.cont.Sized := by
  induction steps generalizing buffer with
  | nil => simp [exact]
  | cons next steps ih =>
    rw [forall_mem_cons]
    constructor
    · intro always
      have sized := (exact.step_iff next).mp (always 1)
      exact ⟨sized, (ih (always 1)).mp fun n => always (n + 1)⟩
    · rintro ⟨sized, rest⟩ n
      have stepped := (exact.step_iff next).mpr sized
      cases n with
      | zero => exact exact
      | succ n => exact (ih stepped).mpr rest n

/-- The sizes of all containers agree with what is written of them, and while
the events are written the buffer is always exact, if and only if every
container is sized. -/
theorem buffered_sizes_iff (memory : Nat → Byte) (events : List (AnyCont × List AnyCont)) :
    ((∀ event ∈ events, ∀ cont ∈ event.1 :: event.2, cont.size = cont.written.length) ∧
      ∀ n, (((steps events).take n).foldl step (start memory)).Exact) ↔
      ∀ event ∈ events, ∀ cont ∈ event.1 :: event.2, cont.Sized := by
  rw [(exact_start memory).run_iff]
  simp only [AnyCont.size_eq_iff]
  refine and_iff_left_of_imp fun sized next member => ?_
  obtain ⟨event, inEvents, inEvent⟩ := mem_flatMap.mp member
  rcases mem_cons.mp inEvent with rfl | later
  · exact sized event inEvents _ mem_cons_self
  · obtain ⟨cont, isExt, rfl⟩ := mem_map.mp later
    exact sized event inEvents cont (mem_cons_of_mem _ isExt)

end Buffer

/-- An instruction with one register and without its data. -/
def dataless : Cont where
  common :=
    { id := ⟨0, 1⟩, rid := 0, expected := 0, nchild := 0, comChild := 0
      ndates := 0, dates := [], nrefs := 0, refs := []
      datesSize := noDates_size, refsSize := noRefs_size }
  body := .inst32
    { body :=
        { pc := 0x8000, width := 3, abort := 0, jump := 0, regdata := 0
          exec := 1, unalign := 0, cycles := 2, imem := 1, dmem := 0
          excl := 0, str := 0, unused := 0, nregs := 1, regdst := 1
          instr := 0xE1A00001 }
      jumpPc := none, regId := [0], regData := [7]
      jumps := by decide, regIdSize := by decide, regDataSize := by decide }

/-- Four bytes more are written than the buffer grows by. -/
theorem dataless_size :
    hweSizeof dataless = 36 ∧ (hweWrite dataless).length = 40 ∧
      ((Buffer.start fun _ => 0).event (.known dataless) []).bufsize = 36 := by
  decide

end Reverse.Decopus
