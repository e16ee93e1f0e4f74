import Reverse.Delorean.MemoryBytes

/-!
# Stores to a memory of bytes

`mem_exec` changes one word of the table.  In the memory of the traced system a
store changes as many bytes as it is wide.  Both are the same for a store that
stays in one word, unless it has three bytes and does not start the word: the
mask of `mem_exec` is then shifted by four bits for a byte.
-/

namespace Reverse.Delorean

open Sherlock BitVec

def storeBytes (memory : Word → Byte) (addr : Word) (data : Nat → Byte) (width : Nat)
    (place : Word) : Byte :=
  if (place - addr).toNat < width then data (place - addr).toNat else memory place

/-- The aligned word that has the byte of an address. -/
def wordAt (memory : Word → Byte) (addr : Word) : Word :=
  loadWord fun index => memory (addr - (addr &&& align32Bit) + BitVec.ofNat 32 index)

/-- A store stays in one word and, if it has three bytes, starts it. -/
def FitsWord (addr : Word) (width : Nat) : Prop :=
  1 ≤ width ∧ addr.toNat % 4 + width ≤ 4 ∧ (width = 3 → addr.toNat % 4 = 0)

instance (addr : Word) (width : Nat) : Decidable (FitsWord addr width) := by
  unfold FitsWord
  infer_instance

theorem align_toNat (addr : Word) : (addr &&& align32Bit).toNat = addr.toNat % 4 := by
  rw [toNat_and]
  exact Nat.and_two_pow_sub_one_eq_mod addr.toNat 2

theorem loadWord_bit (data : Nat → Byte) (byte : Fin 4) (bit : Fin 8) :
    (loadWord data).getLsbD (8 * byte + bit) = (data byte).getLsbD bit := by
  have inside := bit.isLt
  fin_cases byte <;> simp [loadWord] <;> grind

theorem wordByte_bit (value : Word) (index bit : Nat) (inside : bit < 8) :
    (wordByte value index).getLsbD bit = value.getLsbD (8 * index + bit) := by
  simp [wordByte, inside]

theorem wordByte_loadWord (data : Nat → Byte) (inside : index < 4) :
    wordByte (loadWord data) index = data index := by
  apply eq_of_getLsbD_eq
  intro bit below
  rw [wordByte_bit _ _ _ below]
  exact loadWord_bit data ⟨index, inside⟩ ⟨bit, below⟩

theorem loadWord_wordByte (value : Word) : loadWord (wordByte value) = value := by
  apply eq_of_getLsbD_eq
  intro bit below
  have split := loadWord_bit (wordByte value) ⟨bit / 8, by omega⟩ ⟨bit % 8, by omega⟩
  rw [wordByte_bit _ _ _ (Nat.mod_lt _ (by decide))] at split
  simpa only [Nat.div_add_mod] using split

theorem memMask_bit (fits : FitsWord addr width) (byte : Fin 4) (bit : Fin 8) :
    (memMask addr width).getLsbD (8 * byte + bit) =
      decide (¬ (addr.toNat % 4 ≤ byte ∧ byte < addr.toNat % 4 + width)) := by
  have table : ∀ place : Fin 4, ∀ width : Fin 5, FitsWord (BitVec.ofNat 32 place) width →
      ∀ (byte : Fin 4) (bit : Fin 8),
        (memMask (BitVec.ofNat 32 place) width).getLsbD (8 * byte + bit) =
          decide (¬ (place.val ≤ byte ∧ byte < place.val + width.val)) := by
    decide
  have same : memMask addr width = memMask (BitVec.ofNat 32 (addr.toNat % 4)) width := by
    have place : BitVec.ofNat 32 (addr.toNat % 4) = addr &&& align32Bit := by
      rw [← align_toNat, ofNat_toNat, setWidth_eq]
    rw [place]
    unfold memMask
    rw [BitVec.and_assoc, BitVec.and_self]
  obtain ⟨positive, inside, three⟩ := fits
  have place : addr.toNat % 4 < 4 := Nat.mod_lt _ (by decide)
  rw [same]
  refine table ⟨addr.toNat % 4, place⟩ ⟨width, by omega⟩ ⟨positive, ?_, ?_⟩ byte bit
  · simpa using inside
  · simpa using three

theorem wordByte_memMerge (fits : FitsWord addr width) (data : Nat → Byte) (value : Word)
    (inside : index < 4) :
    wordByte (memMerge addr data width value) index =
      if addr.toNat % 4 ≤ index ∧ index < addr.toNat % 4 + width then data (index - addr.toNat % 4)
      else wordByte value index := by
  apply eq_of_getLsbD_eq
  intro bit below
  have mask := memMask_bit fits ⟨index, inside⟩ ⟨bit, below⟩
  rw [wordByte_bit _ _ _ below, memMerge, getLsbD_or, getLsbD_and, getLsbD_and, getLsbD_not, mask]
  split
  · next written =>
      have shifted : (memShifted addr data).getLsbD (8 * index + bit) =
          (loadWord data).getLsbD (8 * (index - addr.toNat % 4) + bit) := by
        rw [memShifted, align_toNat, getLsbD_shiftLeft, Nat.shiftLeft_eq]
        have there : ¬ 8 * index + bit < addr.toNat % 4 * 2 ^ 3 := by omega
        have place : 8 * index + bit - addr.toNat % 4 * 2 ^ 3 =
          8 * (index - addr.toNat % 4) + bit := by omega
        simp only [there, place, decide_false, Bool.not_false, Bool.and_true, Bool.and_eq_right_iff_imp,
          decide_eq_true_eq]
        omega
      rw [shifted, loadWord_bit data ⟨index - addr.toNat % 4, by omega⟩ ⟨bit, below⟩]
      simp [written]
      omega
  · next kept =>
      simp [kept, wordByte_bit _ _ _ below]

theorem memKey_toNat (addr : Word) : (memKey addr).toNat = addr.toNat / 4 := by
  rw [memKey, toNat_ushiftRight, Nat.shiftRight_eq_div_pow]

/-- A store that fits changes its bytes and no others. -/
theorem byteAt_memExec (fits : FitsWord addr width) (table : HashTable) (data : Nat → Byte) :
    byteAt (memExec table addr data width) = storeBytes (byteAt table) addr data width := by
  funext place
  have lane : place.toNat % 4 < 4 := Nat.mod_lt _ (by decide)
  simp only [byteAt, storeBytes, get_memExec, align_toNat]
  obtain ⟨positive, inside, three⟩ := fits
  have offset := toNat_sub place addr
  by_cases same : memKey place = memKey addr
  · have word := congrArg BitVec.toNat same
    rw [memKey_toNat, memKey_toNat] at word
    rw [if_pos same, wordByte_memMerge ⟨positive, inside, three⟩ _ _ lane]
    split
    · next written =>
        have distance : (place - addr).toNat = place.toNat % 4 - addr.toNat % 4 := by omega
        rw [distance, if_pos (by omega)]
    · next kept => rw [if_neg (by omega)]
  · have word : place.toNat / 4 ≠ addr.toNat / 4 := by
      rw [← memKey_toNat, ← memKey_toNat]
      exact fun equal => same (eq_of_toNat_eq equal)
    rw [if_neg same, if_neg (by omega)]

theorem wordPlace_toNat (addr : Word) (inside : index < 4) :
    (addr - (addr &&& align32Bit) + BitVec.ofNat 32 index).toNat =
      4 * (addr.toNat / 4) + index := by
  rw [toNat_add, toNat_sub, align_toNat, toNat_ofNat]
  omega

theorem wordAt_byteAt (table : HashTable) (addr : Word) :
    wordAt (byteAt table) addr = (table.get (memKey addr)).value := by
  have byte : ∀ index < 4,
      byteAt table (addr - (addr &&& align32Bit) + BitVec.ofNat 32 index) =
        wordByte (table.get (memKey addr)).value index := by
    intro index inside
    have place := wordPlace_toNat addr inside
    have key : memKey (addr - (addr &&& align32Bit) + BitVec.ofNat 32 index) = memKey addr := by
      apply eq_of_toNat_eq
      rw [memKey_toNat, memKey_toNat, place]
      omega
    rw [byteAt, key, align_toNat, place, Nat.mul_add_mod, Nat.mod_eq_of_lt inside]
  rw [wordAt, loadWord, byte 0 (by decide), byte 1 (by decide), byte 2 (by decide),
    byte 3 (by decide)]
  exact loadWord_wordByte _

/-- A store that fits leaves its word alone if it writes the bytes that are
there. -/
theorem wordAt_storeBytes_iff (fits : FitsWord addr width) (memory : Word → Byte)
    (data : Nat → Byte) :
    wordAt (storeBytes memory addr data width) addr = wordAt memory addr ↔
      ∀ index < width, memory (addr + BitVec.ofNat 32 index) = data index := by
  obtain ⟨positive, inside, _⟩ := fits
  constructor
  · intro same index written
    have place : addr - (addr &&& align32Bit) + BitVec.ofNat 32 (addr.toNat % 4 + index) =
        addr + BitVec.ofNat 32 index := by
      apply eq_of_toNat_eq
      rw [wordPlace_toNat addr (by omega), toNat_add, toNat_ofNat]
      omega
    have offset : (addr + BitVec.ofNat 32 index - addr).toNat = index := by
      rw [BitVec.add_comm, BitVec.add_sub_cancel, toNat_ofNat]
      omega
    have bytes := congrArg (wordByte · (addr.toNat % 4 + index)) same
    simp only [wordAt, wordByte_loadWord _ (show addr.toNat % 4 + index < 4 by omega), place,
      storeBytes, offset, if_pos written] at bytes
    exact bytes.symm
  · intro rewritten
    congr 1
    funext place
    unfold storeBytes
    split
    · next written =>
        rw [← rewritten _ written, ofNat_toNat, setWidth_eq, BitVec.add_comm, BitVec.sub_add_cancel]
    · rfl

end Reverse.Delorean
