import Reverse.Decopus.Stream

/-!
# Reading a trace file in chunks

A call of `read` may deliver fewer bytes than it was asked for.
`read_container` refills its buffer once for a container and stops the program
if the container is still not whole.  Before the refill it copies the part of
the container that it has to the start of the buffer by `memcpy`, which may not
overlap.  So it finds the containers of the file exactly if each refill brings
the rest of the container that is being read, and finds the part at least its
length behind the start.
-/

namespace Reverse.Decopus

open Wire List

/-- A call of `read` delivers some bytes until the file is at its end, and never
more than requested. -/
structure Delivers (deliver : Nat → List Byte → Nat) : Prop where
  some : ∀ wanted file, wanted ≠ 0 → file ≠ [] → deliver wanted file ≠ 0
  requested : ∀ wanted file, deliver wanted file ≤ wanted
  available : ∀ wanted file, deliver wanted file ≤ file.length

section

-- What the loop around `read_container` does to the last indices.
variable (deliver : Nat → List Byte → Nat) (old : Nat → Nat → Word)
  (update : List (BitVec 64) → HweId → List (BitVec 64))

/-- The containers that the calls of `read_container` return until the file is
at its end. -/
def readContainers : Nat → List (BitVec 64) → Source → Option (List Cont)
  | 0, _, _ => none
  | fuel + 1, previd, source =>
    match readContainer deliver old previd source with
    | .exit | .overlap => none
    | .endOfFile => some []
    | .read cont source =>
      (readContainers fuel (update previd cont.common.id) source).map (cont :: ·)

def readFile (previd : List (BitVec 64)) (file : List Byte) : Option (List Cont) :=
  readContainers deliver old update (file.length + 1) previd ⟨0, [], file⟩

/-- The containers that the records of a file stand for. -/
def decodeAll : List (BitVec 64) → List Cont → List Cont
  | _, [] => []
  | previd, record :: records =>
    let cont := record.received
      (old ((record :: records).flatMap Cont.announced).length)
      (previd.getD record.common.id.devid.toNat 0)
    cont :: decodeAll (update previd cont.common.id) records

/-- Each refill brings the rest of the container that is being read, and copies
the part that is there without overlap. -/
def Suffices : List Cont → Source → Prop
  | [], _ => True
  | record :: records, source =>
    source.Whole deliver record.announced.length ∧
      Suffices records
        ((source.ready deliver record.announced.length).consume record.announced.length)

variable {deliver} {source : Source}

theorem readContainers_iff (delivers : Delivers deliver)
    (current : ∀ record ∈ records, record.body.Current)
    (bytes : source.bytes = records.flatMap Cont.announced) (enough : records.length < fuel) :
    readContainers deliver old update fuel previd source =
        some (decodeAll old update previd records) ↔
      Suffices deliver records source := by
  induction records generalizing source previd fuel with
  | nil =>
    obtain ⟨fuel, rfl⟩ := Nat.exists_eq_add_of_lt enough
    obtain ⟨offset, buffered, file⟩ := source
    obtain ⟨rfl, rfl⟩ := append_eq_nil_iff.mp bytes
    have none := Nat.le_zero.mp (delivers.available (bufferSize - 0) [])
    have ended : readContainer deliver old previd ⟨offset, [], []⟩ = .endOfFile := if_pos none
    simp only [readContainers, ended, decodeAll, Suffices]
  | cons record records ih =>
    obtain ⟨fuel, rfl⟩ := Nat.exists_eq_add_of_lt enough
    have isCurrent := current record mem_cons_self
    have whole := bytes
    rw [flatMap_cons] at whole
    by_cases inBuffer : source.Whole deliver record.announced.length
    · have remaining : Suffices deliver (record :: records) source ↔
          Suffices deliver records ((source.ready deliver record.announced.length).consume
            record.announced.length) := and_iff_right inBuffer
      rw [remaining, length_cons, readContainers,
        readContainer_whole old previd isCurrent whole inBuffer]
      simp only [decodeAll, ← bytes, Option.map_eq_some_iff,
        List.cons.injEq, true_and, exists_eq_right]
      exact ih (fun next member =>
        current next (mem_cons_of_mem _ member)) (inBuffer.behind whole) (by omega)
    · have fails : ¬ Suffices deliver (record :: records) source :=
        fun suffices_ => inBuffer suffices_.1
      refine iff_of_false ?_ fails
      rw [readContainers]
      cases result : readContainer deliver old previd source with
      | exit => simp
      | overlap => simp
      | endOfFile => simp [decodeAll]
      | read cont next =>
        exact absurd result (readContainer_fails old previd isCurrent whole inBuffer)

end

/-- For every way of delivering the file, the containers that are read are the
ones encoded in it exactly if each refill brings the rest of the container that
is being read and copies the part that is there without overlap. -/
theorem chunks_read_iff (deliver : Nat → List Byte → Nat)
    (delivers : Delivers deliver) (old : Nat → Nat → Word)
    (update : List (BitVec 64) → HweId → List (BitVec 64))
    (previd : List (BitVec 64)) (records : List Cont)
    (current : ∀ record ∈ records, record.body.Current) :
    readFile deliver old update previd (records.flatMap Cont.announced) =
        some (decodeAll old update previd records) ↔
      Suffices deliver records ⟨0, [], records.flatMap Cont.announced⟩ :=
  readContainers_iff old update delivers current rfl (Nat.lt_succ_of_le (records_length_le records))

theorem fullRead_delivers : Delivers fullRead where
  some wanted file asked left := by
    have positive := length_pos_iff.mpr left
    unfold fullRead
    omega
  requested wanted file := Nat.min_le_left _ _
  available wanted file := Nat.min_le_right _ _

/-- A file that is delivered as requested is read, if its records are not longer
than half of the buffer. -/
theorem fullRead_suffices (fit : ∀ record ∈ records, 2 * record.announced.length ≤ bufferSize)
    (bytes : source.bytes = records.flatMap Cont.announced) (filled : source.Filled) :
    Suffices fullRead records source := by
  induction records generalizing source with
  | nil => trivial
  | cons record records ih =>
    have fits := fit record mem_cons_self
    rw [flatMap_cons] at bytes
    have inBuffer := filled.whole fits (by rw [bytes, length_append]; omega)
    exact ⟨inBuffer, ih (fun later member =>
      fit later (mem_cons_of_mem _ member)) (inBuffer.behind bytes) (filled.next fits inBuffer)⟩

/-- An `HWE_ID` record and a jump, delivered as requested. -/
theorem chunks_read_iff_full :
    readFile fullRead (fun _ _ => 0) (fun previd _ => previd) []
        ([idCont ⟨3, 41⟩, jumpEvent].flatMap Cont.announced) =
      some (decodeAll (fun _ _ => 0) (fun previd _ => previd) []
        [idCont ⟨3, 41⟩, jumpEvent]) := by
  apply (chunks_read_iff fullRead fullRead_delivers (fun _ _ => 0)
    (fun previd _ => previd) [] [idCont ⟨3, 41⟩, jumpEvent] ?_).mpr
  · apply fullRead_suffices _ rfl (.inr (.inl rfl))
    rw [forall_mem_cons, forall_mem_singleton]
    exact ⟨by decide, by decide⟩
  · rw [forall_mem_cons, forall_mem_singleton]
    exact ⟨trivial, trivial⟩

/-- A call of `read` delivers a single byte. -/
def byteRead (wanted : Nat) (file : List Byte) : Nat :=
  min (min wanted 1) file.length

theorem byteRead_delivers : Delivers byteRead where
  some wanted file asked left := by
    have positive := length_pos_iff.mpr left
    unfold byteRead
    omega
  requested wanted file := by
    unfold byteRead
    omega
  available wanted file := Nat.min_le_right _ _

/-- A record that arrives byte by byte stops the program. -/
theorem byte_read_stops :
    Delivers byteRead ∧
      readFile byteRead (fun _ _ => 0) (fun previd _ => previd) []
        ([jumpEvent].flatMap Cont.announced) = none := by
  refine ⟨byteRead_delivers, ?_⟩
  decide

end Reverse.Decopus
