import Mathlib.Data.List.ReduceOption

/-!
# Slot tables

Values wait in the slots of an array until they are taken.  A slot is emptied
when its value is taken out of turn; the slots below a mark are done with.
-/

namespace Reverse

open Function List Option

/-- The pending values are those in the slots from `first` on, and each knows
its slot. -/
structure SlotTable {α : Type} (slots : List (Option α)) (first : Nat)
    (slotOf : α → Nat) (pending : α → Prop) : Prop where
  first_le : first ≤ slots.length
  listed : ∀ value, pending value →
    first ≤ slotOf value ∧ slots[slotOf value]? = some (some value)
  live : ∀ index value, first ≤ index →
    slots[index]? = some (some value) →
    slotOf value = index ∧ pending value

namespace SlotTable

variable {α : Type} {slots front back : List (Option α)} {first : Nat}
  {slotOf : α → Nat} {pending : α → Prop} {value : α}

theorem empty (slotOf : α → Nat) (nothing : ∀ value, ¬ pending value) :
    SlotTable [] 0 slotOf pending where
  first_le := Nat.le_refl 0
  listed value isPending := absurd isPending (nothing value)
  live index value _ isLive := by
    simp only [List.getElem?_nil, reduceCtorEq] at isLive

section

variable (table : SlotTable slots first slotOf pending)

include table

theorem congr (same : ∀ value, pending' value ↔ pending value)
    (sameSlot : ∀ value, pending value → slotOf' value = slotOf value) :
    SlotTable slots first slotOf' pending' where
  first_le := table.first_le
  listed value isPending := by
    have wasPending := (same value).mp isPending
    rw [sameSlot value wasPending]
    exact table.listed value wasPending
  live index value above isLive := by
    obtain ⟨itsSlot, wasPending⟩ := table.live index value above isLive
    exact ⟨(sameSlot value wasPending).trans itsSlot, (same value).mpr wasPending⟩

theorem pending_iff : pending value ↔ some value ∈ slots.drop first := by
  constructor
  · intro isPending
    obtain ⟨above, itsSlot⟩ := table.listed value isPending
    apply mem_of_getElem? (i := slotOf value - first)
    rw [List.getElem?_drop, Nat.add_sub_cancel' above]
    exact itsSlot
  · intro isThere
    obtain ⟨index, atIndex⟩ := mem_iff_getElem?.mp isThere
    rw [List.getElem?_drop] at atIndex
    exact (table.live _ value (Nat.le_add_right first index) atIndex).2

theorem nodup (parts : slots.drop first = front ++ back) :
    front.reduceOption.Nodup := by
  have slotOf_eq : ∀ index value, front[index]? = some (some value) →
      slotOf value = first + index := by
    intro index value atIndex
    have inside := (List.getElem?_eq_some_iff.mp atIndex).1
    rw [← List.getElem?_append_left inside, ← parts, List.getElem?_drop] at atIndex
    exact (table.live _ value (Nat.le_add_right first index) atIndex).1
  unfold List.reduceOption
  apply List.Pairwise.filterMap id (R := fun one other =>
    ∀ value, one = some value → other ≠ some value)
  · intro one other differ value isOne value' isOther same
    exact differ value isOne (same ▸ isOther)
  · rw [pairwise_iff_getElem]
    intro index index' inside inside' below value isOne isOther
    have slot := slotOf_eq index value (List.getElem?_eq_some_iff.mpr ⟨inside, isOne⟩)
    have slot' := slotOf_eq index' value (List.getElem?_eq_some_iff.mpr ⟨inside', isOther⟩)
    omega

end

theorem register [DecidableEq α]
    (table : SlotTable slots first slotOf pending) (isNew : ¬ pending value) :
    SlotTable (slots ++ [some value]) first
      (update slotOf value slots.length)
      (fun other => other = value ∨ pending other) where
  first_le := by
    rw [length_append]
    exact Nat.le_add_right_of_le table.first_le
  listed other isPending := by
    by_cases isValue : other = value
    · rw [isValue, update_self]
      exact ⟨table.first_le, List.getElem?_concat_length⟩
    · have wasPending := isPending.resolve_left isValue
      obtain ⟨above, itsSlot⟩ := table.listed other wasPending
      have inside := (List.getElem?_eq_some_iff.mp itsSlot).1
      rw [update_of_ne isValue, List.getElem?_append_left inside]
      exact ⟨above, itsSlot⟩
  live index other above isLive := by
    by_cases inside : index < slots.length
    · rw [List.getElem?_append_left inside] at isLive
      obtain ⟨itsSlot, wasPending⟩ := table.live index other above isLive
      have isOther : other ≠ value := fun same => isNew (same ▸ wasPending)
      exact ⟨(update_of_ne isOther _ _).trans itsSlot, .inr wasPending⟩
    · have isLast : index = slots.length := by
        have bound := (List.getElem?_eq_some_iff.mp isLive).1
        rw [length_append, length_singleton] at bound
        omega
      rw [isLast, List.getElem?_concat_length] at isLive
      have isValue : value = other := some.inj (some.inj isLive)
      rw [← isValue, update_self]
      exact ⟨isLast.symm, .inl rfl⟩

theorem take (table : SlotTable slots first slotOf pending) (isPending : pending value) :
    SlotTable (slots.set (slotOf value) none) first slotOf
      (fun other => pending other ∧ other ≠ value) where
  first_le := by
    rw [length_set]
    exact table.first_le
  listed other isOther := by
    obtain ⟨above, itsSlot⟩ := table.listed other isOther.1
    refine ⟨above, ?_⟩
    have otherSlot : slotOf value ≠ slotOf other := by
      intro same
      have valueSlot := (table.listed value isPending).2
      rw [same, itsSlot] at valueSlot
      exact isOther.2 (some.inj (some.inj valueSlot))
    rw [List.getElem?_set_ne otherSlot]
    exact itsSlot
  live index other above isLive := by
    have otherSlot : slotOf value ≠ index := by
      intro same
      rw [same, List.getElem?_set_self'] at isLive
      cases atIndex : slots[index]? <;> simp [atIndex] at isLive
    rw [List.getElem?_set_ne otherSlot] at isLive
    obtain ⟨itsSlot, wasPending⟩ := table.live index other above isLive
    refine ⟨itsSlot, wasPending, ?_⟩
    intro same
    exact otherSlot (same ▸ itsSlot)

/-- The mark moves over the slots in front. -/
theorem advance (table : SlotTable slots first slotOf pending)
    (parts : slots.drop first = front ++ back) :
    SlotTable slots (first + front.length) slotOf
      (fun value => pending value ∧ some value ∉ front) where
  first_le := by
    have lengths := congrArg List.length parts
    have bound := table.first_le
    rw [length_drop, length_append] at lengths
    omega
  listed value isPending := by
    obtain ⟨above, itsSlot⟩ := table.listed value isPending.1
    refine ⟨?_, itsSlot⟩
    by_contra below
    apply isPending.2
    apply mem_of_getElem? (i := slotOf value - first)
    have inside : slotOf value - first < front.length := by omega
    rw [← List.getElem?_append_left inside, ← parts, List.getElem?_drop, Nat.add_sub_cancel' above]
    exact itsSlot
  live index value above isLive := by
    obtain ⟨itsSlot, wasPending⟩ := table.live index value (by omega) isLive
    refine ⟨itsSlot, wasPending, ?_⟩
    intro inFront
    obtain ⟨place, atPlace⟩ := mem_iff_getElem?.mp inFront
    have inside := (List.getElem?_eq_some_iff.mp atPlace).1
    rw [← List.getElem?_append_left inside, ← parts, List.getElem?_drop] at atPlace
    have sameSlot := (table.live _ value (Nat.le_add_right first place) atPlace).1
    omega

end SlotTable

end Reverse
