import Mathlib.Data.Nat.ModEq

/-!
# Indices of a ring

Positions of a ring of `size` places are counted without end, and an index is
the remainder of a position.  Positions that are less than `size` apart have
different indices, and the distance of two such positions can be computed from
their indices.
-/

namespace Reverse.Cyclic

theorem mod_ne {start low high size : Nat} (first : start ≤ low)
    (less : low < high) (near : high < start + size) :
    low % size ≠ high % size := by
  intro same
  have divides : size ∣ high - low := (Nat.modEq_iff_dvd' less.le).mp same
  have large := Nat.le_of_dvd (by omega) divides
  omega

/-- The distance, as it is computed from the indices. -/
theorem distance {low high size : Nat} (order : low ≤ high) (near : high < low + size) :
    (high % size + size - low % size) % size = high - low := by
  have positive : 0 < size := by omega
  have small := Nat.mod_lt low positive
  obtain ⟨gap, rfl⟩ := Nat.exists_eq_add_of_le order
  rw [Nat.add_mod, Nat.mod_eq_of_lt (show gap < size by omega), Nat.add_sub_cancel_left]
  by_cases wraps : low % size + gap < size
  · rw [Nat.mod_eq_of_lt wraps]
    have shifted : low % size + gap + size - low % size = gap + size := by
      omega
    rw [shifted, Nat.add_mod_right, Nat.mod_eq_of_lt (by omega)]
  · have around : (low % size + gap) % size = low % size + gap - size := by
      rw [Nat.mod_eq_sub_mod (Nat.le_of_not_lt wraps)]
      exact Nat.mod_eq_of_lt (by omega)
    rw [around]
    have shifted : low % size + gap - size + size - low % size = gap := by
      omega
    rw [shifted, Nat.mod_eq_of_lt (by omega)]

end Reverse.Cyclic
