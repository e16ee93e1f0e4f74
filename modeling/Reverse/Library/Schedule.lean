import Mathlib.Logic.Relation
import Mathlib.Tactic.ByContra

/-!
# Total orders of recorded events

The events of a log are numbered and a relation says which of them are known to
have happened in the order of the log.  A schedule is a total order of the
events that agrees with the relation.  One event comes first in every schedule
exactly if a chain of the relation leads from it to the other.
-/

namespace Reverse

variable {n : Nat} {relation : Nat → Nat → Prop}

/-- A total order of the events below `n`, given by their times. -/
structure Schedule (n : Nat) (relation : Nat → Nat → Prop)
    (time : Nat → Nat) : Prop where
  injective : ∀ a < n, ∀ b < n, time a = time b → a = b
  ordered : ∀ a, ∀ b < n, relation a b → time a < time b

theorem Schedule.chain (schedule : Schedule n relation time)
    (forward : ∀ {a b}, relation a b → a < b)
    (chain : Relation.TransGen relation first second) (bound : second < n) :
    time first < time second := by
  induction chain with
  | single related => exact schedule.ordered _ _ bound related
  | tail earlier related ih =>
    have middle := ih (Nat.lt_trans (forward related) bound)
    exact Nat.lt_trans middle (schedule.ordered _ _ bound related)

open Classical in
/-- Everything that must come after an event is put off. -/
noncomputable def postponed (n : Nat) (relation : Nat → Nat → Prop) (first k : Nat) : Nat :=
  if Relation.ReflTransGen relation first k then k + n else k

theorem postponed_schedule (forward : ∀ {a b}, relation a b → a < b)
    (first : Nat) : Schedule n relation (postponed n relation first) := by
  constructor
  · intro a aBound b bBound same
    unfold postponed at same
    split at same <;> split at same <;> omega
  · intro a b bound related
    have before := forward related
    unfold postponed
    by_cases later : Relation.ReflTransGen relation first a
    · rw [if_pos later, if_pos (later.tail related)]
      omega
    · rw [if_neg later]
      split <;> omega

theorem forall_schedule_lt_iff (forward : ∀ {a b}, relation a b → a < b)
    (bound : second < n) (differ : first ≠ second) :
    (∀ time, Schedule n relation time → time first < time second) ↔
      Relation.TransGen relation first second := by
  constructor
  · intro always
    by_contra unrelated
    have earlier := always _ (postponed_schedule forward first)
    have apart : ¬ Relation.ReflTransGen relation first second := by
      intro reached
      rcases Relation.reflTransGen_iff_eq_or_transGen.mp reached with
        same | chain
      · exact differ same.symm
      · exact unrelated chain
    rw [postponed, if_pos .refl, postponed, if_neg apart] at earlier
    omega
  · intro chain time schedule
    exact schedule.chain forward chain bound

end Reverse
