import Mathlib
import Reverse.Delorean.Gdbstub

/-!
# The memory as bytes

A store goes to the word under `addr >> 2`, a read looks under the address
itself, and the packet `m` prints more of its buffer than it has filled.  The
two sides agree exactly as long as nothing but zeros is written.
-/

namespace Reverse.Delorean

open Sherlock List Option

structure MemWrite where
  addr : Word
  data : Nat → Byte
  width : Nat
  positive : 1 ≤ width
  bounded : width ≤ 256

def writeAll (writes : List MemWrite) : HashTable :=
  writes.foldl (fun table write =>
    memExec table write.addr write.data write.width) ⟨fun _ _ => none⟩

/-- The byte a write puts at an address, if it covers it. -/
def MemWrite.byte? (write : MemWrite) (addr : Word) : Option Byte :=
  if (addr - write.addr).toNat < write.width then
    some (write.data (addr - write.addr).toNat)
  else none

def lastWritten (writes : List MemWrite) (addr : Word) : Option Byte :=
  writes.foldl (fun byte write => (write.byte? addr).or byte) none

/-- The byte of an address in the word that stores use for it. -/
def byteAt (table : HashTable) (addr : Word) : Byte :=
  wordByte (table.get (memKey addr)).value (addr &&& align32Bit).toNat

/-- Every write changes exactly its bytes, and after any number of writes the
readers return what was last written, `m` for all lengths below `limit`. -/
structure BytesExact (limit : Nat) (unset : Nat → Byte)
    (writes : List MemWrite) : Prop where
  changes : ∀ earlier write later, writes = earlier ++ write :: later →
    ∀ addr, byteAt (writeAll (earlier ++ [write])) addr =
      (write.byte? addr).getD (byteAt (writeAll earlier) addr)
  value : ∀ earlier, earlier <+: writes → ∀ addr index, index < 4 →
    ∀ byte, lastWritten earlier (addr + BitVec.ofNat 32 index) = some byte →
      wordByte (memGetAddrValue (writeAll earlier) addr) index = byte
  read : ∀ earlier, earlier <+: writes → ∀ addr len, len < limit →
    ∃ bytes, gdbReadMemory (writeAll earlier) none unset addr len =
        some (memtohex bytes) ∧ bytes.length = len ∧
      ∀ index byte, index < len →
        lastWritten earlier (addr + BitVec.ofNat 32 index) = some byte →
        bytes[index]? = some byte

theorem loadWord_toNat (data : Nat → Byte) :
    (loadWord data).toNat =
      (data 0).toNat + 2 ^ 8 * ((data 1).toNat +
        2 ^ 8 * ((data 2).toNat + 2 ^ 8 * (data 3).toNat)) := by
  change (((data 3 ++ data 2) ++ data 1) ++ data 0).toNat = _
  have zero := (data 0).isLt
  have one := (data 1).isLt
  have two := (data 2).isLt
  rw [BitVec.toNat_append, BitVec.toNat_append, BitVec.toNat_append,
    Nat.shiftLeft_eq, Nat.shiftLeft_eq, Nat.shiftLeft_eq,
    Nat.mul_comm _ (2 ^ 8), Nat.mul_comm _ (2 ^ 8), Nat.mul_comm _ (2 ^ 8),
    ← Nat.two_pow_add_eq_or_of_lt zero, ← Nat.two_pow_add_eq_or_of_lt one,
    ← Nat.two_pow_add_eq_or_of_lt two]
  omega

theorem and_low_eq_zero (bits : Nat) (below : bits < 32) (low : value.toNat % 2 ^ bits = 0) :
    value &&& BitVec.ofNat 32 (2 ^ bits - 1) = 0 := by
  apply BitVec.eq_of_toNat_eq
  have small : 2 ^ bits - 1 < 2 ^ 32 := by
    have smaller : 2 ^ bits < 2 ^ 32 := Nat.pow_lt_pow_right (by decide) below
    omega
  rw [BitVec.toNat_and, BitVec.toNat_ofNat, Nat.mod_eq_of_lt small,
    Nat.and_two_pow_sub_one_eq_mod, low]
  rfl

theorem memMask_one (addr : Word) :
    memMask addr 1 = ~~~ (0xFF#32 <<< ((addr &&& align32Bit).toNat <<< 3)) := by
  unfold memMask
  split
  · next aligned => simp [aligned]
  · rfl

theorem memMask_two (addr : Word) :
    memMask addr 2 = ~~~ (0xFFFF#32 <<< ((addr &&& align32Bit).toNat <<< 3)) := by
  unfold memMask
  split
  · next aligned => simp [aligned]
  · rfl

theorem align_cases (unaligned : addr &&& align32Bit ≠ 0) :
    (addr &&& align32Bit).toNat = 1 ∨ (addr &&& align32Bit).toNat = 2 ∨
      (addr &&& align32Bit).toNat = 3 := by
  have low : (addr &&& align32Bit).toNat = addr.toNat % 2 ^ 2 := by
    rw [BitVec.toNat_and, ← Nat.and_two_pow_sub_one_eq_mod]
    rfl
  have anyBit : (addr &&& align32Bit).toNat ≠ 0 := by
    intro zero
    apply unaligned
    apply BitVec.eq_of_toNat_eq
    rw [zero]
    rfl
  omega

/-- The bits of a data word that a mask lets through come from the written
bytes. -/
theorem masked_zero (positive : 1 ≤ width) (zeros : ∀ index < width, data index = 0) :
    memShifted addr data &&& ~~~ memMask addr width = 0 := by
  have whole := loadWord_toNat data
  have first : (data 0).toNat = 0 := by rw [zeros 0 positive]; rfl
  match width, positive with
  | 1, _ =>
    have low : loadWord data &&& BitVec.ofNat 32 (2 ^ 8 - 1) = 0 :=
      and_low_eq_zero 8 (by decide) (by omega)
    rw [memMask_one, BitVec.not_not, memShifted, ← BitVec.shiftLeft_and_distrib]
    exact low.symm ▸ BitVec.zero_shiftLeft _
  | 2, _ =>
    have second : (data 1).toNat = 0 := by rw [zeros 1 (by decide)]; rfl
    have low : loadWord data &&& BitVec.ofNat 32 (2 ^ 16 - 1) = 0 :=
      and_low_eq_zero 16 (by decide) (by omega)
    rw [memMask_two, BitVec.not_not, memShifted, ← BitVec.shiftLeft_and_distrib]
    exact low.symm ▸ BitVec.zero_shiftLeft _
  | 3, _ =>
    have second : (data 1).toNat = 0 := by rw [zeros 1 (by decide)]; rfl
    have third : (data 2).toNat = 0 := by rw [zeros 2 (by decide)]; rfl
    by_cases aligned : addr &&& align32Bit = 0
    · have low : loadWord data &&& BitVec.ofNat 32 (2 ^ 24 - 1) = 0 :=
        and_low_eq_zero 24 (by decide) (by omega)
      simpa [memMask, memShifted, aligned] using low
    · have shifted : memShifted addr data = 0 := by
        apply BitVec.eq_of_toNat_eq
        rw [memShifted, BitVec.toNat_shiftLeft, Nat.shiftLeft_eq, whole, first, second, third]
        rcases align_cases aligned with byte | byte | byte <;> rw [byte] <;> simp <;> omega
      simp [shifted]
  | n + 4, _ =>
    have second : (data 1).toNat = 0 := by rw [zeros 1 (by omega)]; rfl
    have third : (data 2).toNat = 0 := by rw [zeros 2 (by omega)]; rfl
    have fourth : (data 3).toNat = 0 := by rw [zeros 3 (by omega)]; rfl
    have empty : loadWord data = 0 := by
      apply BitVec.eq_of_toNat_eq
      rw [whole, first, second, third, fourth]
      rfl
    rw [memShifted, empty]
    simp

def Zeros (writes : List MemWrite) : Prop :=
  ∀ write ∈ writes, ∀ index < write.width, write.data index = 0

theorem writeAll_append (earlier : List MemWrite) (write : MemWrite) :
    writeAll (earlier ++ [write]) =
      memExec (writeAll earlier) write.addr write.data write.width := by
  simp [writeAll]

theorem lastWritten_append (earlier : List MemWrite) (write : MemWrite) (addr : Word) :
    lastWritten (earlier ++ [write]) addr = (write.byte? addr).or (lastWritten earlier addr) := by
  simp [lastWritten]

theorem Zeros.of_append (zeros : Zeros (earlier ++ later)) : Zeros earlier := by
  intro write member
  exact zeros write (mem_append_left _ member)

theorem Zeros.value (zeros : Zeros writes) (key : Word) :
    ((writeAll writes).get key).value = 0 := by
  induction writes using List.reverseRecOn with
  | nil => rfl
  | append_singleton earlier write ih =>
    rw [writeAll_append, get_memExec]
    split
    · simp only [ih zeros.of_append, memMerge]
      have last : memShifted write.addr write.data &&& ~~~ memMask write.addr write.width = 0 :=
        masked_zero write.positive (zeros write (by simp))
      simp [last]
    · exact ih zeros.of_append

theorem Zeros.lastWritten (zeros : Zeros writes)
    (written : lastWritten writes addr = some byte) : byte = 0 := by
  induction writes using List.reverseRecOn with
  | nil => cases written
  | append_singleton earlier write ih =>
    rw [lastWritten_append, MemWrite.byte?] at written
    split at written
    · next covered =>
        cases written
        exact zeros write (by simp) _ covered
    · exact ih zeros.of_append written

theorem wordByte_zero (index : Nat) : wordByte 0 index = 0 := by
  simp [wordByte]

theorem Zeros.value_after (zeros : Zeros earlier)
    (nonzero : ((writeAll (earlier ++ [write])).get key).value ≠ 0) :
    key = memKey write.addr := by
  rw [writeAll_append, get_memExec] at nonzero
  split at nonzero
  · assumption
  · exact (nonzero (zeros.value key)).elim

theorem MemWrite.byte?_self (write : MemWrite) (inside : index < write.width) :
    write.byte? (write.addr + BitVec.ofNat 32 index) = some (write.data index) := by
  have bounded := write.bounded
  have offset : (write.addr + BitVec.ofNat 32 index - write.addr).toNat =
      index := by
    rw [BitVec.add_comm, BitVec.add_sub_cancel, BitVec.toNat_ofNat]
    exact Nat.mod_eq_of_lt (by omega)
  rw [MemWrite.byte?, offset, if_pos inside]

/-- A byte other than zero is already wrong right after it is written: it
would have to be in two words. -/
theorem BytesExact.zeros (exact_ : BytesExact limit unset writes) :
    Zeros writes := by
  suffices general : ∀ earlier, earlier <+: writes → Zeros earlier from
    general writes (prefix_refl writes)
  intro earlier
  induction earlier using List.reverseRecOn with
  | nil =>
    intro _ write member
    cases member
  | append_singleton earlier write ih =>
    intro before
    have zeros := ih ((prefix_append _ _).trans before)
    intro other member
    rcases mem_append.mp member with old | new
    · exact zeros other old
    · rw [mem_singleton.mp new]
      intro index inside
      by_contra nonzero
      have written : lastWritten (earlier ++ [write])
          (write.addr + BitVec.ofNat 32 index) = some (write.data index) := by
        rw [lastWritten_append, write.byte?_self inside, some_or]
      have here : ∀ addr pos, pos < 4 →
          addr + BitVec.ofNat 32 pos = write.addr + BitVec.ofNat 32 index →
          addr = memKey write.addr := by
        intro addr pos small same
        apply zeros.value_after
        intro zero
        rw [← same] at written
        have found := exact_.value _ before addr pos small _ written
        rw [memGetAddrValue, zero, wordByte_zero] at found
        exact nonzero found.symm
      have low := here (write.addr + BitVec.ofNat 32 index) 0 (by decide) (by simp)
      have high := here
        (write.addr + BitVec.ofNat 32 index - BitVec.ofNat 32 1) 1
        (by decide) (BitVec.sub_add_cancel _ _)
      bv_omega

theorem tohex_injective : ∀ left < 16, ∀ right < 16, tohex left = tohex right → left = right := by
  decide

theorem memtohex_injective (same : memtohex left = memtohex right) : left = right := by
  induction left generalizing right with
  | nil =>
    cases right with
    | nil => rfl
    | cons byte right => simp [memtohex] at same
  | cons byte left ih =>
    cases right with
    | nil => simp [memtohex] at same
    | cons other right =>
      simp only [memtohex, flatMap_cons, cons_append, nil_append, List.cons.injEq] at same
      obtain ⟨high, low, rest⟩ := same
      have byteLt := byte.isLt
      have otherLt := other.isLt
      have sameHigh := tohex_injective _ (by omega) _ (by omega) high
      have sameLow := tohex_injective _ (by omega) _ (by omega) low
      have sameByte : byte = other := BitVec.eq_of_toNat_eq (by omega)
      rw [sameByte, ih rest]

/-- The bytes of the reply that the packet `m` does not fill in. -/
def Unfilled (limit index : Nat) : Prop :=
  4 ≤ index ∧ index % 4 ≠ 3 ∧ index + 1 < limit

theorem filled_or_unfilled (below : len < limit) (inside : index < len) :
    index < 4 * readWords len ∨ Unfilled limit index := by
  unfold readWords Unfilled
  rw [Nat.shiftRight_eq_div_pow]
  split <;> omega

theorem not_filled (unfilled : Unfilled limit index) : ¬ index < 4 * readWords (index + 1) := by
  obtain ⟨large, inner, _⟩ := unfilled
  unfold readWords
  rw [Nat.shiftRight_eq_div_pow]
  split <;> omega

theorem BytesExact.limit_le (exact_ : BytesExact limit unset writes) :
    limit ≤ 8192 := by
  by_contra large
  obtain ⟨bytes, reply, _⟩ := exact_.read [] nil_prefix 0 8192 (by omega)
  simp [gdbReadMemory, gdbMaxPacketLength] at reply

theorem lastWritten_isSome (anyWrite : writes ≠ []) :
    ∃ addr byte, lastWritten writes addr = some byte := by
  obtain ⟨earlier, write, rfl⟩ := (eq_nil_or_concat writes).resolve_left anyWrite
  refine ⟨write.addr + BitVec.ofNat 32 0, write.data 0, ?_⟩
  rw [concat_eq_append, lastWritten_append, write.byte?_self write.positive, some_or]

theorem BytesExact.unset {unset : Nat → Byte}
    (exact_ : BytesExact limit unset writes) (anyWrite : writes ≠ [])
    (unfilled : Unfilled limit index) : unset index = 0 := by
  obtain ⟨addr, byte, written⟩ := lastWritten_isSome anyWrite
  have start : addr - BitVec.ofNat 32 index + BitVec.ofNat 32 index = addr :=
    BitVec.sub_add_cancel _ _
  rw [← start] at written
  obtain ⟨bytes, reply, length, contents⟩ :=
    exact_.read writes (prefix_refl _) (addr - BitVec.ofNat 32 index) (index + 1) unfilled.2.2
  have zero := exact_.zeros.lastWritten written
  have found := contents index byte (Nat.lt_succ_self _) written
  simp only [gdbReadMemory] at reply
  split at reply
  · rw [some.injEq] at reply
    have same := memtohex_injective reply
    rw [← same] at found
    have filled := not_filled unfilled
    simp only [List.getElem?_map, List.getElem?_range (Nat.lt_succ_self _),
      map_some, some.injEq, memBuf, filter_none, filled,
      if_false] at found
    rw [found, zero]
  · cases reply

/-- The memory behaves as bytes exactly when only zeros are written, replies
fit their buffer and the unfilled part of that buffer happens to be zero. -/
theorem bytesExact_iff (limit : Nat) (unset : Nat → Byte) (writes : List MemWrite) :
    BytesExact limit unset writes ↔
      Zeros writes ∧ limit ≤ 8192 ∧
        (writes ≠ [] → ∀ index, Unfilled limit index → unset index = 0) := by
  constructor
  · intro exact_
    exact ⟨exact_.zeros, exact_.limit_le, fun anyWrite _ unfilled => exact_.unset anyWrite unfilled⟩
  · rintro ⟨zeros, fits, clean⟩
    have before : ∀ {earlier}, earlier <+: writes → Zeros earlier := by
      rintro earlier ⟨later, rfl⟩
      exact zeros.of_append
    refine ⟨?_, ?_, ?_⟩
    · rintro earlier write later rfl addr
      have zerosAfter : Zeros (earlier ++ [write]) := before ⟨later, by simp⟩
      rw [byteAt, zerosAfter.value, byteAt, zerosAfter.of_append.value,
        wordByte_zero, MemWrite.byte?]
      split
      · next covered =>
          exact (zerosAfter write (by simp) _ covered).symm
      · rfl
    · intro earlier isPrefix addr index _ byte written
      rw [memGetAddrValue, (before isPrefix).value, wordByte_zero,
        (before isPrefix).lastWritten written]
    · intro earlier isPrefix addr len below
      refine ⟨_, if_pos ?_, by simp, ?_⟩
      · rw [gdbMaxPacketLength]
        omega
      · intro index byte inside written
        rw [(before isPrefix).lastWritten written, List.getElem?_map,
          List.getElem?_range inside, map_some, some.injEq]
        simp only [memBuf, filter_none]
        split
        · rw [memGetAddrValue, (before isPrefix).value, wordByte_zero]
        · next notFilled =>
            have anyWrite : writes ≠ [] := by
              rintro rfl
              rw [prefix_nil.mp isPrefix] at written
              cases written
            exact clean anyWrite index ((filled_or_unfilled below inside).resolve_left notFilled)

/-- The byte 7 stored at address 8 is in the word under key 2, so that reading
address 8 gives 0. -/
def sevenAtEight : MemWrite := ⟨8, fun _ => 7, 1, by decide, by decide⟩

theorem written_byte_not_read :
    lastWritten [sevenAtEight] 8 = some 7 ∧
      byteAt (writeAll [sevenAtEight]) 8 = 7 ∧
      memGetAddrValue (writeAll [sevenAtEight]) 8 = 0 ∧
      ¬ BytesExact 2 (fun _ => 0) [sevenAtEight] := by
  have written : lastWritten [sevenAtEight] 8 = some 7 := by decide
  have found : memGetAddrValue (writeAll [sevenAtEight]) 8 = 0 := by decide
  refine ⟨written, by decide, found, ?_⟩
  intro exact_
  have read := exact_.value _ (prefix_refl _) 8 0 (by decide) 7 written
  rw [found, wordByte_zero] at read
  exact absurd read (by decide)

end Reverse.Delorean
