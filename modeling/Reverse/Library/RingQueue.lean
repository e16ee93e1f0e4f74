import Reverse.Library.Cyclic

/-!
# Queues in a ring

An array of `size` places holds a queue from the index `tail` on, around the
end of the array.  The index `head` is where the next element is put.  Equal
indices alone do not tell a full ring from an empty one.
-/

namespace Reverse.RingQueue

open List

variable {α : Type}

structure Holds (data : Nat → α) (size tail head : Nat) (queue : List α) :
    Prop where
  bound : tail < size
  fits : queue.length ≤ size
  head : head = (tail + queue.length) % size
  places : ∀ i, ∀ inside : i < queue.length,
    data ((tail + i) % size) = queue[i]

namespace Holds

variable {data : Nat → α} {size tail head : Nat} {queue : List α}

theorem empty (data : Nat → α) (positive : 0 < size) : Holds data size 0 0 [] :=
  ⟨positive, Nat.zero_le _, (Nat.zero_mod size).symm, nofun⟩

theorem same_indices (holds : Holds data size tail head queue) :
    head = tail ↔ queue = [] ∨ queue.length = size := by
  obtain ⟨bound, fits, isHead, -⟩ := holds
  constructor
  · intro same
    by_contra neither
    rw [not_or, ← length_eq_zero_iff] at neither
    apply Cyclic.mod_ne (Nat.le_refl tail)
      (show tail < tail + queue.length by omega)
      (show tail + queue.length < tail + size by omega)
    rw [Nat.mod_eq_of_lt bound, ← isHead, same]
  · intro either
    rw [isHead]
    rcases either with isNil | isFull
    · rw [isNil]
      exact Nat.mod_eq_of_lt bound
    · rw [isFull, Nat.add_mod_right]
      exact Nat.mod_eq_of_lt bound

theorem push (holds : Holds data size tail head queue) (room : queue.length < size) (x : α) :
    Holds (Function.update data head x) size tail ((head + 1) % size) (queue ++ [x]) := by
  obtain ⟨bound, fits, isHead, places⟩ := holds
  refine ⟨bound, ?_, ?_, ?_⟩
  · rw [length_append, length_singleton]
    exact room
  · rw [isHead, length_append, length_singleton, Nat.mod_add_mod, Nat.add_assoc]
  · intro i inside
    rw [length_append, length_singleton] at inside
    by_cases isLast : i = queue.length
    · have isHere : (tail + i) % size = head := by rw [isLast, isHead]
      rw [isHere, Function.update_self]
      simp [isLast]
    · have old : i < queue.length := by omega
      have apart : (tail + i) % size ≠ head := by
        rw [isHead]
        exact Cyclic.mod_ne (Nat.le_add_right tail i) (by omega) (by omega)
      rw [Function.update_of_ne apart, places i old, getElem_append_left old]

theorem pop (holds : Holds data size tail head (x :: queue)) :
    data tail = x ∧ Holds data size ((tail + 1) % size) head queue := by
  obtain ⟨bound, fits, isHead, places⟩ := holds
  rw [length_cons] at fits isHead
  constructor
  · have first := places 0 (Nat.zero_lt_succ _)
    rw [Nat.add_zero, Nat.mod_eq_of_lt bound] at first
    exact first
  · refine ⟨Nat.mod_lt _ (by omega), by omega, ?_, ?_⟩
    · rw [isHead, Nat.mod_add_mod, Nat.add_right_comm, Nat.add_assoc]
    · intro i inside
      rw [Nat.mod_add_mod, Nat.add_assoc, Nat.add_comm 1 i]
      exact places (i + 1) (Nat.succ_lt_succ inside)

end Holds

end Reverse.RingQueue
