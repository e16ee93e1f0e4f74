import Mathlib.Data.List.Basic
import Reverse.Rabbits.TracePort

/-!
# The order of the events of a processor

The events of a program are generated in a strict order: an instruction, its
requests and acknowledgements, its `COMMIT`, and then the next instruction.
What has been read of them decides which instructions are open.
-/

namespace Reverse.Rabbits

open List

namespace TraceEvent

def number : TraceEvent → Nat
  | .inst number _ => number
  | .child number _ _ => number
  | .commit number => number

def phase : TraceEvent → Nat
  | .inst _ _ => 0
  | .child _ _ _ => 1
  | .commit _ => 2

def place : TraceEvent → Nat
  | .inst _ _ => 0
  | .child _ place _ => place
  | .commit _ => 0

/-- The order of generation. -/
def Before (event other : TraceEvent) : Prop :=
  event.number < other.number ∨ event.number = other.number ∧
    (event.phase < other.phase ∨ event.phase = other.phase ∧ event.place < other.place)

theorem Before.irrefl {event : TraceEvent} : ¬ event.Before event := by
  unfold Before
  omega

theorem Before.asymm {event other : TraceEvent}
    (isBefore : event.Before other) : ¬ other.Before event := by
  unfold Before at *
  omega

theorem before_of_number {event other : TraceEvent}
    (below : event.number < other.number) : event.Before other :=
  .inl below

theorem before_of_phase {event other : TraceEvent} (same : event.number = other.number)
    (below : event.phase < other.phase) : event.Before other :=
  .inr ⟨same, .inl below⟩

end TraceEvent

open TraceEvent

theorem mem_childEvents {number : Nat} :
    ∀ {first : Nat} {event : TraceEvent},
      event ∈ childEvents number first types →
      ∃ place type, first ≤ place ∧ event = .child number place type := by
  induction types with
  | nil =>
    intro first event isThere
    simp only [childEvents, not_mem_nil] at isThere
  | cons type types ih =>
    intro first event isThere
    simp only [childEvents, mem_cons] at isThere
    rcases isThere with isFirst | isThere
    · exact ⟨first, type, Nat.le_refl first, isFirst⟩
    · obtain ⟨place, type', above, isChild⟩ := ih isThere
      exact ⟨place, type', by omega, isChild⟩

theorem childEvents_ordered (number : Nat) (types : List ChildType) :
    ∀ first, (childEvents number first types).Pairwise Before := by
  induction types with
  | nil =>
    intro first
    exact .nil
  | cons type types ih =>
    intro first
    refine .cons ?_ (ih (first + 1))
    intro other isThere
    obtain ⟨place, type', above, rfl⟩ := mem_childEvents isThere
    exact .inr ⟨rfl, .inr ⟨rfl, above⟩⟩

theorem traceEvents_number :
    ∀ {first : Nat} {event : TraceEvent},
      event ∈ traceEvents first program →
      first ≤ event.number ∧ event.number < first + program.length := by
  induction program with
  | nil =>
    intro first event isThere
    simp only [traceEvents, not_mem_nil] at isThere
  | cons inst insts ih =>
    intro first event isThere
    simp only [traceEvents, mem_cons, mem_append] at isThere
    have positive : first < first + (insts.length + 1) := by omega
    rcases isThere with rfl | isChild | rfl | isLater
    · exact ⟨Nat.le_refl first, positive⟩
    · obtain ⟨place, type, -, rfl⟩ := mem_childEvents isChild
      exact ⟨Nat.le_refl first, positive⟩
    · exact ⟨Nat.le_refl first, positive⟩
    · obtain ⟨above, below⟩ := ih isLater
      rw [length_cons]
      omega

theorem traceEvents_ordered (program : List TracedInst) :
    ∀ first, (traceEvents first program).Pairwise Before := by
  induction program with
  | nil =>
    intro first
    exact .nil
  | cons inst insts ih =>
    intro first
    have later : ∀ event ∈ traceEvents (first + 1) insts, first < event.number :=
      fun event isLater => (traceEvents_number isLater).1
    refine .cons ?_ (pairwise_append.mpr
      ⟨childEvents_ordered first inst.children 0, .cons ?_ (ih (first + 1)), ?_⟩)
    · intro event isThere
      rcases mem_append.mp isThere with isChild | isThere
      · obtain ⟨place, type, -, rfl⟩ := mem_childEvents isChild
        exact before_of_phase rfl Nat.zero_lt_one
      · rcases mem_cons.mp isThere with rfl | isLater
        · exact before_of_phase rfl Nat.zero_lt_two
        · exact before_of_number (later event isLater)
    · intro event isLater
      exact before_of_number (later event isLater)
    · intro event isChild other isThere
      obtain ⟨place, type, -, rfl⟩ := mem_childEvents isChild
      rcases mem_cons.mp isThere with rfl | isLater
      · exact before_of_phase rfl Nat.one_lt_two
      · exact before_of_number (later other isLater)

/-- Every instruction is there with its `COMMIT`. -/
theorem traceEvents_bracket :
    ∀ {first number : Nat}, first ≤ number →
      number < first + program.length →
      (∃ cycles, .inst number cycles ∈ traceEvents first program) ∧
      .commit number ∈ traceEvents first program := by
  induction program with
  | nil =>
    intro first number above below
    rw [length_nil] at below
    omega
  | cons inst insts ih =>
    intro first number above below
    rw [length_cons] at below
    simp only [traceEvents, mem_cons, mem_append]
    by_cases isFirst : number = first
    · rw [isFirst]
      exact ⟨⟨inst.cycles, .inl rfl⟩, .inr (.inr (.inl rfl))⟩
    · obtain ⟨⟨cycles, isInst⟩, isCommit⟩ := @ih (first + 1) number (by omega) (by omega)
      exact ⟨⟨cycles, .inr (.inr (.inr isInst))⟩, .inr (.inr (.inr isCommit))⟩

section Read

variable {events done later : List TraceEvent} {event other : TraceEvent}

section

variable (ordered : events.Pairwise Before)

include ordered

theorem mem_done_of_before (split : events = done ++ later)
    (isDone : other ∈ done) (isEvent : event ∈ events)
    (isBefore : event.Before other) : event ∈ done := by
  rw [split] at isEvent ordered
  rcases mem_append.mp isEvent with isThere | isLater
  · exact isThere
  · have after := (pairwise_append.mp ordered).2.2 _ isDone _ isLater
    exact absurd isBefore after.asymm

theorem not_mem_later (split : events = done ++ later) (isDone : event ∈ done) : event ∉ later := by
  intro isLater
  rw [split] at ordered
  exact Before.irrefl ((pairwise_append.mp ordered).2.2 _ isDone _ isLater)

theorem mem_done_of_before_next (split : events = done ++ other :: later)
    (isEvent : event ∈ events) (isBefore : event.Before other) :
    event ∈ done := by
  have split' : events = (done ++ [other]) ++ later := by
    rw [split, append_assoc, singleton_append]
  have isThere := mem_done_of_before ordered split'
    (mem_append_right done (mem_singleton_self other)) isEvent
    isBefore
  rcases mem_append.mp isThere with isDone | isNext
  · exact isDone
  · rw [mem_singleton] at isNext
    exact absurd (isNext ▸ isBefore) Before.irrefl

theorem before_next (split : events = done ++ other :: later)
    (isDone : event ∈ done) : event.Before other := by
  rw [split] at ordered
  exact (pairwise_append.mp ordered).2.2 _ isDone _ (mem_cons_self)

end

end Read

/-- The instructions that have been read and those whose `COMMIT` has been
read, as the numbers of their first ones that have not. -/
structure Position (program : List TracedInst)
    (done later : List TraceEvent) (opened closed : Nat) : Prop where
  split : traceEvents 0 program = done ++ later
  opens : ∀ number, (∃ cycles, .inst number cycles ∈ done) ↔ number < opened
  closes : ∀ number, .commit number ∈ done ↔ number < closed
  closed_le : closed ≤ opened
  opened_le : opened ≤ closed + 1

namespace Position

variable {program : List TracedInst} {done later : List TraceEvent}
  {opened closed number place cycles : Nat} {type : ChildType}

theorem start (program : List TracedInst) : Position program [] (traceEvents 0 program) 0 0 where
  split := rfl
  opens number := by simp only [not_mem_nil, exists_false, Nat.not_lt_zero]
  closes number := by simp only [not_mem_nil, Nat.not_lt_zero]
  closed_le := Nat.le_refl 0
  opened_le := Nat.zero_le 1

theorem child_done (position : Position program done later opened closed)
    (isClosed : number < closed) (isEvent : .child number place type ∈ traceEvents 0 program) :
    .child number place type ∈ done :=
  mem_done_of_before (traceEvents_ordered program 0) position.split
    ((position.closes number).mpr isClosed) isEvent
    (before_of_phase rfl Nat.one_lt_two)

theorem move_split (position : Position program done (event :: later) opened closed) :
    traceEvents 0 program = (done ++ [event]) ++ later := by
  rw [position.split, append_assoc, singleton_append]

theorem next_inst (position : Position program done (.inst number cycles :: later) opened closed) :
    number = closed ∧ opened = closed ∧
    Position program (done ++ [.inst number cycles]) later (closed + 1)
      closed := by
  have ordered := traceEvents_ordered program 0
  have isEvent : TraceEvent.inst number cycles ∈ traceEvents 0 program := by
    rw [position.split]
    exact mem_append_right done (mem_cons_self)
  have notOpened : opened ≤ number := by
    by_contra isOpened
    obtain ⟨cycles', isDone⟩ := (position.opens number).mpr (Nat.lt_of_not_le isOpened)
    have isBefore := before_next ordered position.split isDone
    rcases isBefore with below | ⟨-, below | ⟨-, below⟩⟩
    · exact Nat.lt_irrefl _ below
    · exact Nat.lt_irrefl _ below
    · exact Nat.lt_irrefl _ below
  have earlierClosed : number ≤ closed := by
    by_contra isLater
    have below : closed < number := Nat.lt_of_not_le isLater
    have isCommit := (traceEvents_bracket (Nat.zero_le closed)
      (Nat.lt_trans below (traceEvents_number isEvent).2)).2
    have isDone := mem_done_of_before_next ordered position.split isCommit (before_of_number below)
    exact Nat.lt_irrefl closed ((position.closes closed).mp isDone)
  have isClosed : number = closed := by
    have bound := position.closed_le
    omega
  have isOpened : opened = closed := by
    have bound := position.closed_le
    omega
  refine ⟨isClosed, isOpened, position.move_split, ?_, ?_, Nat.le_add_right closed 1, Nat.le_refl _⟩
  · intro other
    have before := position.opens other
    constructor
    · rintro ⟨cycles', isThere⟩
      rcases mem_append.mp isThere with isDone | isNext
      · have below := before.mp ⟨cycles', isDone⟩
        omega
      · rw [mem_singleton, TraceEvent.inst.injEq] at isNext
        omega
    · intro below
      by_cases isNext : other = number
      · exact ⟨cycles, isNext ▸ mem_append_right done (mem_singleton_self _)⟩
      · obtain ⟨cycles', isDone⟩ := before.mpr (by omega)
        exact ⟨cycles', mem_append_left _ isDone⟩
  · intro other
    rw [← position.closes other, mem_append, mem_singleton]
    exact or_iff_left (by simp only [reduceCtorEq, not_false_eq_true])

theorem next_belongs
    (position : Position program done (event :: later) opened closed) (notInst : 0 < event.phase) :
    event.number = closed ∧ opened = closed + 1 := by
  have ordered := traceEvents_ordered program 0
  have isEvent : event ∈ traceEvents 0 program := by
    rw [position.split]
    exact mem_append_right done (mem_cons_self)
  obtain ⟨⟨cycles, isInst⟩, isCommit⟩ := traceEvents_bracket
    (Nat.zero_le event.number) (traceEvents_number isEvent).2
  have isOpened : event.number < opened :=
    (position.opens event.number).mp
      ⟨cycles, mem_done_of_before_next ordered position.split isInst (before_of_phase rfl notInst)⟩
  have notClosed : closed ≤ event.number := by
    by_contra isClosed
    have isDone := (position.closes event.number).mpr (Nat.lt_of_not_le isClosed)
    have isBefore := before_next ordered position.split isDone
    cases event <;>
      simp only [Before, TraceEvent.number, phase, TraceEvent.place] at isBefore <;>
      omega
  have bound := position.opened_le
  omega

theorem next_child (position : Position program done
      (.child number place type :: later) opened closed) :
    Position program (done ++ [.child number place type]) later opened closed where
  split := position.move_split
  opens other := by
    rw [← position.opens other]
    simp only [mem_append, mem_singleton, reduceCtorEq, or_false]
  closes other := by
    rw [← position.closes other]
    simp only [mem_append, mem_singleton, reduceCtorEq, or_false]
  closed_le := position.closed_le
  opened_le := position.opened_le

theorem next_commit (position : Position program done (.commit number :: later) opened closed) :
    Position program (done ++ [.commit number]) later (closed + 1) (closed + 1) := by
  obtain ⟨isClosed, isOpened⟩ := position.next_belongs Nat.zero_lt_two
  change number = closed at isClosed
  refine ⟨position.move_split, ?_, ?_, Nat.le_refl _, Nat.le_add_right _ 1⟩
  · intro other
    rw [← isOpened, ← position.opens other]
    simp only [mem_append, mem_singleton, reduceCtorEq, or_false]
  · intro other
    have before := position.closes other
    rw [mem_append, mem_singleton, before, TraceEvent.commit.injEq]
    omega

end Position

end Reverse.Rabbits
