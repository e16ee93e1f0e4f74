import Mathlib.Data.Nat.Bitwise

/-!
# Byte memories

Memories that map addresses to bytes, with numbers of some width in little
endian order.  An access can be split at any byte.
-/

namespace Reverse.ByteMemory

open BitVec

def byteAt (value index : Nat) : BitVec 8 :=
  BitVec.ofNat 8 (value >>> (8 * index))

theorem byteAt_mod (inside : index < width) :
    byteAt (value % 2 ^ (8 * width)) index = byteAt value index := by
  apply eq_of_getLsbD_eq
  intro bit isBit
  have below : 8 * index + bit < 8 * width := by omega
  unfold byteAt
  rw [getLsbD_ofNat, getLsbD_ofNat, Nat.testBit_shiftRight,
    Nat.testBit_shiftRight, Nat.testBit_mod_two_pow, decide_eq_true below,
    Bool.true_and]

theorem byteAt_shift (value first index : Nat) :
    byteAt (value >>> (8 * first)) index = byteAt value (first + index) := by
  unfold byteAt
  rw [← Nat.shiftRight_add, Nat.mul_add]

theorem byteAt_toNat (byte : BitVec 8) : byteAt byte.toNat 0 = byte := by
  unfold byteAt
  rw [Nat.mul_zero, Nat.shiftRight_zero, ofNat_toNat, setWidth_eq]

variable {memory other : Nat → BitVec 8} {addr first second width : Nat}

def copy (memory : Nat → BitVec 8) (addr width : Nat) (bytes : Nat → BitVec 8) : Nat → BitVec 8 :=
  fun place =>
    if addr ≤ place ∧ place < addr + width then bytes (place - addr)
    else memory place

def store (memory : Nat → BitVec 8) (addr width value : Nat) : Nat → BitVec 8 :=
  copy memory addr width (byteAt value)

theorem copy_same (same : ∀ index < width, bytes index = memory (addr + index)) :
    copy memory addr width bytes = memory := by
  funext place
  unfold copy
  split
  · next inside =>
      have below : place - addr < width := by omega
      rw [same _ below, Nat.add_sub_cancel' inside.1]
  · rfl

theorem copy_congr (same : memory place = other place) :
    copy memory addr width bytes place = copy other addr width bytes place := by
  unfold copy
  rw [same]

theorem copy_part (memory : Nat → BitVec 8) (base addr width : Nat)
    (bytes : Nat → BitVec 8) (place : Nat) :
    copy (fun index => memory (base + index)) addr width bytes place =
      copy memory (base + addr) width bytes (base + place) := by
  unfold copy
  by_cases inside : addr ≤ place ∧ place < addr + width
  · rw [if_pos inside, if_pos (by omega), Nat.add_sub_add_left]
  · rw [if_neg inside, if_neg (by omega)]

theorem copy_outside (outside : place < addr ∨ addr + width ≤ place) :
    copy memory addr width bytes place = memory place :=
  if_neg (by omega)

theorem store_mask (value : Nat) :
    store memory addr width (value &&& (2 ^ (8 * width) - 1)) = store memory addr width value := by
  rw [Nat.and_two_pow_sub_one_eq_mod]
  funext place
  unfold store copy
  by_cases inside : addr ≤ place ∧ place < addr + width
  · rw [if_pos inside, if_pos inside, byteAt_mod (by omega)]
  · rw [if_neg inside, if_neg inside]

theorem store_twice (value : Nat) :
    store (store memory addr width value) addr width value = store memory addr width value := by
  funext place
  unfold store copy
  split <;> rfl

theorem store_append (value : Nat) :
    store (store memory addr first value) (addr + first) second
      (value >>> (8 * first)) = store memory addr (first + second) value := by
  funext place
  unfold store copy
  by_cases inFirst : addr ≤ place ∧ place < addr + first
  · rw [if_neg (by omega), if_pos inFirst, if_pos (by omega)]
  · by_cases inSecond : addr + first ≤ place ∧ place < addr + first + second
    · rw [if_pos inSecond, if_pos (by omega), byteAt_shift]
      congr 1
      omega
    · rw [if_neg inSecond, if_neg inFirst, if_neg (by omega)]

def load (memory : Nat → BitVec 8) (addr : Nat) : Nat → Nat
  | 0 => 0
  | width + 1 => (memory addr).toNat + 2 ^ 8 * load memory (addr + 1) width

theorem load_congr (same : ∀ index < width, memory (addr + index) = other (place + index)) :
    load memory addr width = load other place width := by
  induction width generalizing addr place with
  | zero => rfl
  | succ width ih =>
    have here : memory addr = other place := same 0 (Nat.succ_pos _)
    have behind := @ih (addr + 1) (place + 1) fun index below => by
      rw [Nat.add_right_comm, Nat.add_assoc, Nat.add_right_comm place, Nat.add_assoc place]
      exact same (index + 1) (Nat.succ_lt_succ below)
    rw [load, load, here, behind]

theorem load_lt (memory : Nat → BitVec 8) (addr width : Nat) :
    load memory addr width < 2 ^ (8 * width) := by
  induction width generalizing addr with
  | zero => exact Nat.one_pos
  | succ width ih =>
    have rest := ih (addr + 1)
    have here := (memory addr).isLt
    rw [load, Nat.mul_succ, Nat.pow_add]
    omega

theorem load_append (memory : Nat → BitVec 8) (addr first second : Nat) :
    (load memory (addr + first) second <<< (8 * first)) |||
      load memory addr first = load memory addr (first + second) := by
  rw [← Nat.shiftLeft_add_eq_or_of_lt (load_lt memory addr first), Nat.shiftLeft_eq]
  induction first generalizing addr with
  | zero => simp [load]
  | succ first ih =>
    have rest := ih (addr + 1)
    rw [Nat.add_assoc addr 1 first, Nat.add_comm 1 first] at rest
    have scaled : ∀ number : Nat, number * 2 ^ (8 * (first + 1)) =
        2 ^ 8 * (number * 2 ^ (8 * first)) := by
      intro number
      rw [Nat.mul_succ, Nat.pow_add, ← Nat.mul_assoc, Nat.mul_comm]
    rw [Nat.add_right_comm first 1 second, load, load, ← rest, scaled]
    omega

end Reverse.ByteMemory
