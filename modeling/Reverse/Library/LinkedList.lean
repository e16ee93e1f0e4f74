import Mathlib.Data.List.Nodup

/-!
# Doubly linked lists

A list of nodes whose links are given by two partial functions.  A segment
starts behind a node or at the start of the list and ends where the pointer
out of its last node leads.  Taking a node out and putting one in only change
the links of its neighbours.
-/

namespace Reverse.LinkedList

open List Option

variable {α : Type}

/-- The nodes that are reached from `ptr`, with links back; `before` is the
node in front of them and `stop` the pointer behind them. -/
def Segment (next prev : α → Option α) : Option α → Option α → List α → Option α → Prop
  | _, ptr, [], stop => ptr = stop
  | before, ptr, node :: nodes, stop =>
    ptr = some node ∧ prev node = before ∧ Segment next prev (some node) (next node) nodes stop

section

variable {next prev next' prev' : α → Option α}
  {before before' ptr stop stop' : Option α} {nodes : List α}

theorem Segment.ptr_eq (segment : Segment next prev before ptr nodes stop) :
    ptr = nodes.head?.or stop := by
  cases nodes with
  | nil => exact segment
  | cons node nodes => exact segment.1

theorem getLast?_cons_or (node : α) (nodes : List α) (before : Option α) :
    (node :: nodes).getLast?.or before = nodes.getLast?.or (some node) := by
  cases nodes with
  | nil => rfl
  | cons second nodes =>
    rw [List.getLast?_cons_cons]
    cases last : (second :: nodes).getLast? with
    | none => exact absurd (List.getLast?_eq_none_iff.mp last) nofun
    | some node => rfl

theorem segment_append :
    Segment next prev before ptr (left ++ right) stop ↔
      ∃ middle, Segment next prev before ptr left middle ∧
        Segment next prev (left.getLast?.or before) middle right stop := by
  induction left generalizing before ptr with
  | nil =>
    constructor
    · intro segment
      exact ⟨ptr, rfl, segment⟩
    · rintro ⟨middle, rfl, segment⟩
      exact segment
  | cons node left ih =>
    rw [getLast?_cons_or]
    constructor
    · rintro ⟨isPtr, isPrev, rest⟩
      obtain ⟨middle, isLeft, isRight⟩ := ih.mp rest
      exact ⟨middle, ⟨isPtr, isPrev, isLeft⟩, isRight⟩
    · rintro ⟨middle, ⟨isPtr, isPrev, isLeft⟩, isRight⟩
      exact ⟨isPtr, isPrev, ih.mpr ⟨middle, isLeft, isRight⟩⟩

section

variable (segment : Segment next prev before ptr nodes stop)

include segment

theorem Segment.congr (sameNext : ∀ node ∈ nodes, next' node = next node)
    (samePrev : ∀ node ∈ nodes, prev' node = prev node) :
    Segment next' prev' before ptr nodes stop := by
  induction nodes generalizing before ptr with
  | nil => exact segment
  | cons node nodes ih =>
    obtain ⟨isPtr, isPrev, rest⟩ := segment
    refine ⟨isPtr, (samePrev node mem_cons_self).trans isPrev, ?_⟩
    rw [sameNext node mem_cons_self]
    exact ih rest
      (fun other member => sameNext other (mem_cons_of_mem _ member))
      (fun other member => samePrev other (mem_cons_of_mem _ member))

/-- The first node of a segment gets another link back. -/
theorem Segment.rehead (nodup : nodes.Nodup) (sameNext : ∀ node ∈ nodes, next' node = next node)
    (first : ∀ node, nodes.head? = some node → prev' node = before')
    (others : ∀ node ∈ nodes, nodes.head? ≠ some node → prev' node = prev node) :
    Segment next' prev' before' ptr nodes stop := by
  cases nodes with
  | nil => exact segment
  | cons node nodes =>
    obtain ⟨isPtr, -, rest⟩ := segment
    refine ⟨isPtr, first node rfl, ?_⟩
    rw [sameNext node mem_cons_self]
    apply rest.congr
    · exact fun other member =>
        sameNext other (mem_cons_of_mem _ member)
    · intro other member
      apply others other (mem_cons_of_mem _ member)
      intro same
      cases same
      exact (nodup_cons.mp nodup).1 member

/-- The pointer out of the last node of a segment leads somewhere else. -/
theorem Segment.retarget (nodup : nodes.Nodup) (samePrev : ∀ node ∈ nodes, prev' node = prev node)
    (last : ∀ node, nodes.getLast? = some node → next' node = stop')
    (others : ∀ node ∈ nodes, nodes.getLast? ≠ some node → next' node = next node) :
    Segment next' prev' before (nodes.head?.or stop') nodes stop' := by
  induction nodes generalizing before ptr with
  | nil => rfl
  | cons node nodes ih =>
    obtain ⟨-, isPrev, rest⟩ := segment
    refine ⟨rfl, (samePrev node mem_cons_self).trans isPrev, ?_⟩
    cases nodes with
    | nil => exact last node rfl
    | cons second nodes =>
      have differ : (node :: second :: nodes).getLast? ≠ some node := by
        rw [List.getLast?_cons_cons]
        intro same
        exact (nodup_cons.mp nodup).1 (mem_of_getLast? same)
      have kept := others node mem_cons_self differ
      rw [kept, rest.ptr_eq]
      apply ih rest (nodup_cons.mp nodup).2
      · exact fun other member =>
          samePrev other (mem_cons_of_mem _ member)
      · intro other isLast
        exact last other (by rw [List.getLast?_cons_cons, isLast])
      · intro other member notLast
        apply others other (mem_cons_of_mem _ member)
        rw [List.getLast?_cons_cons]
        exact notLast

end

end

section

variable {next prev next' prev' : α → Option α} {ptr : Option α} {left right : List α} {node : α}

theorem Segment.links (segment : Segment next prev none ptr (left ++ node :: right) none) :
    prev node = left.getLast? ∧ next node = right.head? := by
  obtain ⟨middle, -, -, isPrev, rest⟩ := segment_append.mp segment
  refine ⟨isPrev.trans (or_none ..), ?_⟩
  rw [rest.ptr_eq, or_none]

/-- Two parts of a list get other links where they meet. -/
theorem Segment.relink (front : Segment next prev none ptr left middle)
    (behind : Segment next prev before start right none) (nodup : (left ++ right).Nodup)
    (nextLast : ∀ other, left.getLast? = some other → next' other = stop)
    (nextOthers : ∀ other ∈ left ++ right, left.getLast? ≠ some other → next' other = next other)
    (prevFirst : ∀ other, right.head? = some other → prev' other = before')
    (prevOthers : ∀ other ∈ left ++ right, right.head? ≠ some other → prev' other = prev other) :
    Segment next' prev' none (left.head?.or stop) left stop ∧
      Segment next' prev' before' right.head? right none := by
  obtain ⟨leftNodup, rightNodup, apart⟩ := nodup_append.mp nodup
  constructor
  · refine front.retarget leftNodup ?_ nextLast ?_
    · intro other member
      apply prevOthers other (mem_append_left _ member)
      exact fun same => apart other member other (mem_of_head? same) rfl
    · exact fun other member =>
        nextOthers other (mem_append_left _ member)
  · rw [behind.ptr_eq, or_none] at behind
    refine behind.rehead rightNodup ?_ prevFirst ?_
    · intro other member
      apply nextOthers other (mem_append_right _ member)
      exact fun same =>
        apart other (mem_of_getLast? same) other member rfl
    · exact fun other member =>
        prevOthers other (mem_append_right _ member)

/-- The neighbours of a node that is taken out are linked with each other. -/
theorem Segment.remove (segment : Segment next prev none ptr (left ++ node :: right) none)
    (nodup : (left ++ node :: right).Nodup)
    (nextLast : ∀ other, left.getLast? = some other → next' other = right.head?)
    (nextOthers : ∀ other ∈ left ++ right, left.getLast? ≠ some other → next' other = next other)
    (prevFirst : ∀ other, right.head? = some other → prev' other = left.getLast?)
    (prevOthers : ∀ other ∈ left ++ right, right.head? ≠ some other → prev' other = prev other) :
    Segment next' prev' none (left ++ right).head? (left ++ right) none := by
  obtain ⟨middle, front, -, -, behind⟩ := segment_append.mp segment
  have shorter := (nodup_cons.mp (nodup_middle.mp nodup)).2
  rw [← or_none (o := left.getLast?)] at prevFirst
  rw [List.head?_append]
  exact segment_append.mpr ⟨right.head?,
    front.relink behind shorter nextLast nextOthers prevFirst prevOthers⟩

theorem Segment.insert (segment : Segment next prev none ptr (left ++ right) none)
    (nodup : (left ++ right).Nodup) (nextNode : next' node = right.head?)
    (prevNode : prev' node = left.getLast?)
    (nextLast : ∀ other, left.getLast? = some other → next' other = some node)
    (nextOthers : ∀ other ∈ left ++ right, left.getLast? ≠ some other → next' other = next other)
    (prevFirst : ∀ other, right.head? = some other → prev' other = some node)
    (prevOthers : ∀ other ∈ left ++ right, right.head? ≠ some other → prev' other = prev other) :
    Segment next' prev' none (left ++ node :: right).head? (left ++ node :: right) none := by
  obtain ⟨middle, front, behind⟩ := segment_append.mp segment
  obtain ⟨isLeft, isRight⟩ := front.relink behind nodup nextLast nextOthers prevFirst prevOthers
  rw [← nextNode] at isRight
  rw [List.head?_append]
  refine segment_append.mpr ⟨some node, isLeft, rfl, ?_, isRight⟩
  rw [prevNode, or_none]

end

end Reverse.LinkedList
