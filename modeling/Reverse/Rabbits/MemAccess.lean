import Reverse.Library.ByteMemory
import Reverse.Rabbits.MemInit

/-!
# Single accesses to the memory device

The functions `write` and `read` of `mem_device.cpp` on one byte enable.  A
write never reports an error: it clears the error flag and prints a message
where it should set the flag, and for byte enables outside its table it writes
the first run of lanes before that.  A read knows a smaller table, and answers
a burst with the offset instead of the data.
-/

namespace Reverse.Rabbits

open Sherlock

/-- `write` with the flag `bErr` that it returns. -/
def memWriteErr (device : MemDevice) (rqst : MemRqst) : Option (MemDevice × Bool) :=
  (memWrite device rqst).map fun later => (later, false)

/-- The byte enables of the `switch` in `read`, with `loffs` and `lwid`: those
of `write` but for the access to all the lanes. -/
def readAccessOf (be : Byte) : Option (Nat × Nat) :=
  if be = 0xFF then none else accessOf be

def getAddrWidth (ofs : Word) (be : Byte) : Option (Word × Nat) :=
  (readAccessOf be).map fun (loffs, lwid) =>
    (ofs + BitVec.ofNat 32 (loffs * lwid), lwid)

/-- The answer to a burst. -/
def burstRead (ofs : Word) (be : Byte) (data : Nat → Byte) : Nat → Byte :=
  let beOff := if be = 0xF0 then 4 else 0
  ByteMemory.store data beOff 4 (ofs + BitVec.ofNat 32 beOff).toNat

/-- `read` into the buffer `data`, for a request of `plen` packets, with the
flag `bErr`; a read beyond the end of the memory has no defined result. -/
def memRead (device : MemDevice) (plen : Nat) (ofs : Word) (be : Byte)
    (data : Nat → Byte) : Option ((Nat → Byte) × Bool) :=
  if 1 < plen then some (burstRead ofs be data, false)
  else if device.size ≤ ofs.toNat ∨ be = 0 then some (data, true)
  else
    match readAccessOf be with
    | none => some (data, true)
    | some (loffs, lwid) =>
      if device.size < ofs.toNat + loffs * lwid + lwid then none
      else some (ByteMemory.copy data (loffs * lwid) lwid
        fun index => device.mem (ofs.toNat + loffs * lwid + index), false)

/-- The byte lanes that a byte enable selects. -/
def Enabled (be : Byte) (lane : Nat) : Prop :=
  lane < 8 ∧ be.getLsbD lane = true

/-- Exactly the enabled lanes of the memory hold the data of the request. -/
structure LanesWritten (device : MemDevice) (rqst : MemRqst)
    (later : MemDevice) : Prop where
  lanes : ∀ lane, Enabled rqst.be lane →
    rqst.ofs.toNat + lane < device.size ∧
      later.mem (rqst.ofs.toNat + lane) = rqst.data lane
  others : ∀ addr,
    (∀ lane, Enabled rqst.be lane → addr ≠ rqst.ofs.toNat + lane) →
    later.mem addr = device.mem addr

/-- A write reports an error and changes nothing, or it writes the enabled
lanes and a read of them into any buffer gives the data back. -/
def WriteReadLaw (device : MemDevice) (plen : Nat) (rqst : MemRqst) (buffer : Nat → Byte) : Prop :=
  ∃ later bErr, memWriteErr device rqst = some (later, bErr) ∧
    (bErr = true ∧ later.mem = device.mem ∨
      bErr = false ∧ LanesWritten device rqst later ∧
        ∃ returned,
          memRead later plen rqst.ofs rqst.be buffer = some (returned, false) ∧
          ∀ lane, Enabled rqst.be lane → returned lane = rqst.data lane)

/-- The lane is in the run of lanes that a write changes. -/
def InRun (be : Byte) (lane : Nat) : Prop :=
  (lanesOf be).start ≤ lane ∧ lane < (lanesOf be).start + (lanesOf be).count

instance (be : Byte) (lane : Nat) : Decidable (Enabled be lane) :=
  inferInstanceAs (Decidable (_ ∧ _))

instance (be : Byte) (lane : Nat) : Decidable (InRun be lane) :=
  inferInstanceAs (Decidable (_ ∧ _))

theorem lanes_of_run : ∀ be : Byte,
    (lanesOf be).start + (lanesOf be).count ≤ 8 ∧ ∀ lane < 8, InRun be lane → Enabled be lane := by
  decide +kernel

/-- A byte enable that a read accepts selects the lanes of one aligned access,
and a write changes these lanes. -/
theorem lanes_of_readAccess : ∀ be : Byte, ∀ access ∈ readAccessOf be,
    be ≠ 0 ∧ (lanesOf be).start = access.1 * access.2 ∧
      (lanesOf be).count = access.2 ∧ 0 < access.2 ∧
      ∀ lane < 8, Enabled be lane → InRun be lane := by
  decide +kernel

section Inside

variable {device : MemDevice} {rqst : MemRqst}

/-- The enabled lanes of the request are all inside the memory. -/
def MemRqst.Inside (rqst : MemRqst) (size : Nat) : Prop :=
  ∀ lane, Enabled rqst.be lane → rqst.ofs.toNat + lane < size

theorem MemRqst.Inside.run (inside : rqst.Inside device.size) (inRun : InRun rqst.be lane) :
    Enabled rqst.be lane ∧ rqst.ofs.toNat + lane < device.size := by
  obtain ⟨bound, enabled⟩ := lanes_of_run rqst.be
  have last := inRun.2
  have isEnabled := enabled lane (by omega) inRun
  exact ⟨isEnabled, inside lane isEnabled⟩

theorem MemRqst.Inside.writes_iff (inside : rqst.Inside device.size) (addr : Nat) :
    rqst.Writes device.size addr ↔ ∃ lane, InRun rqst.be lane ∧ addr = rqst.ofs.toNat + lane := by
  unfold MemRqst.Writes MemRqst.lanes
  split
  · rename_i beyond
    refine iff_of_false (fun writes => ?_) fun ⟨lane, inRun, _⟩ => ?_
    · dsimp only at writes
      omega
    · have below := (inside.run inRun).2
      omega
  · constructor
    · rintro ⟨first, last⟩
      refine ⟨addr - rqst.ofs.toNat, ⟨?_, ?_⟩, ?_⟩ <;> omega
    · rintro ⟨lane, ⟨first, last⟩, isAddr⟩
      omega

theorem memWrite_inside (inside : rqst.Inside device.size) :
    ∃ later, memWrite device rqst = some later ∧
      later.size = device.size ∧
      (∀ lane, InRun rqst.be lane → later.mem (rqst.ofs.toNat + lane) = rqst.data lane) ∧
      ∀ addr, (∀ lane, InRun rqst.be lane →
        addr ≠ rqst.ofs.toNat + lane) →
        later.mem addr = device.mem addr := by
  have fits : ¬((rqst.lanes device.size).count ≠ 0 ∧ device.size <
      rqst.ofs.toNat + (rqst.lanes device.size).start + (rqst.lanes device.size).count) := by
    unfold MemRqst.lanes
    split
    · exact fun both => both.1 rfl
    · rintro ⟨some, beyond⟩
      have last : InRun rqst.be ((lanesOf rqst.be).start + (lanesOf rqst.be).count - 1) := by
        constructor <;> omega
      have below := (inside.run last).2
      omega
  refine ⟨_, if_neg fits, rfl, ?_, ?_⟩
  · intro lane inRun
    dsimp only
    rw [if_pos ((inside.writes_iff _).mpr ⟨lane, inRun, rfl⟩), Nat.add_sub_cancel_left]
  · intro addr apart
    dsimp only
    rw [if_neg fun writes => ?_]
    obtain ⟨lane, inRun, isAddr⟩ := (inside.writes_iff _).mp writes
    exact apart lane inRun isAddr

theorem memRead_inside (inside : rqst.Inside device.size) (single : plen ≤ 1)
    (known : (getAddrWidth rqst.ofs rqst.be).isSome = true) (buffer : Nat → Byte) :
    (∀ lane, Enabled rqst.be lane → InRun rqst.be lane) ∧
    ∃ returned,
      memRead device plen rqst.ofs rqst.be buffer = some (returned, false) ∧
      ∀ lane, Enabled rqst.be lane → returned lane = device.mem (rqst.ofs.toNat + lane) := by
  cases access : readAccessOf rqst.be with
  | none =>
    rw [getAddrWidth, access] at known
    cases known
  | some pair =>
    obtain ⟨loffs, lwid⟩ := pair
    obtain ⟨nonzero, isStart, isCount, positive, inRun⟩ :=
      lanes_of_readAccess rqst.be (loffs, lwid) access
    dsimp only at isStart isCount positive
    have last : InRun rqst.be ((lanesOf rqst.be).start + (lanesOf rqst.be).count - 1) := by
      constructor <;> omega
    have below := (inside.run last).2
    refine ⟨fun lane enabled => inRun lane enabled.1 enabled,
      ByteMemory.copy buffer (loffs * lwid) lwid
        fun index => device.mem (rqst.ofs.toNat + loffs * lwid + index),
      ?_, ?_⟩
    · unfold memRead
      rw [if_neg (by omega), if_neg (not_or.mpr ⟨by omega, nonzero⟩), access]
      dsimp only
      rw [if_neg (by omega)]
    · intro lane enabled
      obtain ⟨first, behind⟩ := inRun lane enabled.1 enabled
      rw [ByteMemory.copy, if_pos (by omega)]
      congr 1
      omega

end Inside

/-- The enabled lanes have the bytes of `ofs + be_off`, and those behind them the
bytes of the buffer. -/
def BurstData (rqst : MemRqst) (buffer : Nat → Byte) : Prop :=
  if rqst.be = 0xF0 then
    ∀ lane, 4 ≤ lane → lane < 8 →
      ByteMemory.byteAt (rqst.ofs + 4).toNat (lane - 4) = rqst.data lane
  else
    ∀ lane, Enabled rqst.be lane →
      (if lane < 4 then ByteMemory.byteAt rqst.ofs.toNat lane else buffer lane) = rqst.data lane

theorem burstData_iff (rqst : MemRqst) (buffer : Nat → Byte) : BurstData rqst buffer ↔
    ∀ lane, Enabled rqst.be lane → burstRead rqst.ofs rqst.be buffer lane = rqst.data lane := by
  unfold BurstData burstRead ByteMemory.store ByteMemory.copy
  by_cases upper : rqst.be = 0xF0
  · have enabled : ∀ lane < 8, Enabled 0xF0 lane ↔ 4 ≤ lane := by decide
    simp only [upper, if_true]
    constructor
    · intro bytes lane isEnabled
      have low := (enabled lane isEnabled.1).mp isEnabled
      rw [if_pos ⟨low, isEnabled.1⟩]
      exact bytes lane low isEnabled.1
    · intro answers lane low high
      have answer := answers lane ((enabled lane high).mpr low)
      rwa [if_pos ⟨low, high⟩] at answer
  · simp only [upper, if_false]
    simp

/-- The law holds for a single access exactly if the enabled lanes are inside
the memory and are those of an access that a read knows.  It holds for a burst
only where the answer happens to be the data. -/
theorem write_read_law_iff (device : MemDevice) (plen : Nat) (rqst : MemRqst)
    (buffer : Nat → Byte) :
    WriteReadLaw device plen rqst buffer ↔
      rqst.Inside device.size ∧
      (plen ≤ 1 → (getAddrWidth rqst.ofs rqst.be).isSome = true) ∧
      (1 < plen → BurstData rqst buffer ∧ ∀ lane, Enabled rqst.be lane →
        InRun rqst.be lane ∨ device.mem (rqst.ofs.toNat + lane) = rqst.data lane) := by
  constructor
  · rintro ⟨later, bErr, write, law⟩
    obtain ⟨written, isWrite, isResult⟩ := Option.map_eq_some_iff.mp write
    obtain ⟨sameLater, noError⟩ := Prod.mk.inj isResult
    subst sameLater noError
    rcases law with ⟨error, _⟩ | ⟨_, lanes, returned, read, same⟩
    · cases error
    have inside : rqst.Inside device.size := fun lane enabled => (lanes.lanes lane enabled).1
    refine ⟨inside, fun single => ?_, fun burst => ?_⟩
    · unfold memRead at read
      rw [if_neg (by omega)] at read
      split at read
      · cases read
      · cases access : readAccessOf rqst.be with
        | none =>
          rw [access] at read
          cases read
        | some pair =>
          unfold getAddrWidth
          rw [access]
          rfl
    · unfold memRead at read
      rw [if_pos burst, Option.some_inj] at read
      have isBurst := congrArg Prod.fst read
      refine ⟨(burstData_iff rqst buffer).mpr fun lane enabled =>
        (congrFun isBurst lane).trans (same lane enabled), fun lane enabled => ?_⟩
      by_cases inRun : InRun rqst.be lane
      · exact Or.inl inRun
      · right
        obtain ⟨other, isOther, _, _, kept⟩ := memWrite_inside inside
        rw [isWrite, Option.some_inj] at isOther
        subst isOther
        rw [← (lanes.lanes lane enabled).2]
        apply Eq.symm
        apply kept
        intro otherLane otherRun sameAddr
        have sameLane : lane = otherLane := by omega
        exact inRun (sameLane ▸ otherRun)
  · rintro ⟨inside, known, answered⟩
    obtain ⟨later, isWrite, sameSize, written, kept⟩ := memWrite_inside inside
    refine ⟨later, false, by rw [memWriteErr, isWrite]; rfl, Or.inr ⟨rfl, ?_⟩⟩
    have others : ∀ addr,
        (∀ lane, Enabled rqst.be lane → addr ≠ rqst.ofs.toNat + lane) →
        later.mem addr = device.mem addr := fun addr apart =>
      kept addr fun lane inRun => apart lane (inside.run inRun).1
    rcases Nat.lt_or_ge 1 plen with burst | single
    · obtain ⟨bytes, reached⟩ := answered burst
      refine ⟨⟨fun lane enabled => ⟨inside lane enabled, ?_⟩, others⟩,
        burstRead rqst.ofs rqst.be buffer, if_pos burst, (burstData_iff rqst buffer).mp bytes⟩
      by_cases inRun : InRun rqst.be lane
      · exact written lane inRun
      · rw [kept]
        · exact (reached lane enabled).resolve_left inRun
        · intro otherLane otherRun sameAddr
          have sameLane : lane = otherLane := by omega
          exact inRun (sameLane ▸ otherRun)
    · have laterInside : rqst.Inside later.size := sameSize.symm ▸ inside
      obtain ⟨inRun, returned, read, same⟩ :=
        memRead_inside laterInside single (known single) buffer
      have lanes : ∀ lane, Enabled rqst.be lane →
          later.mem (rqst.ofs.toNat + lane) = rqst.data lane :=
        fun lane enabled => written lane (inRun lane enabled)
      exact ⟨⟨fun lane enabled => ⟨inside lane enabled, lanes lane enabled⟩,
        others⟩, returned, read, fun lane enabled =>
          (same lane enabled).trans (lanes lane enabled)⟩

/-- Byte enables of `master_device` in a memory of eight bytes.  With `0xDE` the
last two lanes are not written, and no error is reported.  With `0x06` both
lanes are written, and the read reports an error. -/
theorem lane_lost_without_error :
    let device : MemDevice := ⟨8, fun _ => 0, fun _ => none, by decide⟩
    let rqst (be : Byte) : MemRqst := ⟨0, be, fun _ => 7⟩
    Enabled 0xDE 6 ∧
      (memWriteErr device (rqst 0xDE)).map (fun result =>
        (result.1.mem 1, result.1.mem 6, result.2)) = some (7, 0, false) ∧
      (memWriteErr device (rqst 0x06)).bind (fun result =>
        (memRead result.1 1 0 0x06 fun _ => 0).map fun read =>
          (result.1.mem 1, result.1.mem 2, read.2)) = some (7, 7, true) := by
  decide

end Reverse.Rabbits
