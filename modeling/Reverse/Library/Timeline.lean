import Mathlib.Logic.Function.Basic

/-!
# Recorded timelines

A recorded history of `length` events is replayed by moving one event back or
forth.  Every event touches some cells.  Moving forth over an event writes the
recorded contents into the cells the event touches.  Moving back is only
required to leave the other cells alone; an *exact* timeline also restores the
contents recorded before the event.
-/

namespace Reverse.Library

/-- One move along a recorded history. -/
inductive Move where
  | back
  | forth
deriving DecidableEq, Repr

/-- Follow moves from a position without leaving `0..length`. -/
def Move.follow (length : Nat) : Nat → List Move → Option Nat
  | pos, [] => some pos
  | 0, .back :: _ => none
  | pos + 1, .back :: moves => follow length pos moves
  | pos, .forth :: moves =>
    if pos < length then follow length (pos + 1) moves else none

theorem Move.follow_back (length : Nat) (enough : count ≤ pos) :
    follow length pos (List.replicate count back) = some (pos - count) := by
  induction count generalizing pos with
  | zero => rfl
  | succ count ih =>
    cases pos with
    | zero => cases enough
    | succ pos =>
      rw [Nat.add_sub_add_right]
      exact ih (Nat.le_of_succ_le_succ enough)

/-- States of type `σ` seen as cells `κ` with contents `ν`, together with the
recorded contents before and after each event. -/
structure Timeline (σ κ ν : Type) where
  length : Nat
  /-- The state stands after that many events. -/
  At : Nat → σ → Prop
  read : σ → κ → ν
  recorded : Nat → κ → ν
  touched : Nat → κ → Prop
  back : σ → Option σ
  forth : σ → Option σ
  recorded_frame : ∀ {event : Nat} {cell : κ}, event < length →
    ¬ touched event cell → recorded (event + 1) cell = recorded event cell
  back_step : ∀ {event : Nat} {state : σ}, event < length →
    At (event + 1) state →
    ∃ next, back state = some next ∧ At event next ∧
      ∀ cell, ¬ touched event cell → read next cell = read state cell
  forth_step : ∀ {event : Nat} {state : σ}, event < length →
    At event state →
    ∃ next, forth state = some next ∧ At (event + 1) next ∧
      (∀ cell, touched event cell →
        read next cell = recorded (event + 1) cell) ∧
      ∀ cell, ¬ touched event cell → read next cell = read state cell

namespace Timeline

variable {σ κ ν : Type} (line : Timeline σ κ ν)

/-- Perform a list of moves, failing when one of them fails. -/
def walk : List Move → σ → Option σ
  | [], state => some state
  | .back :: moves, state => (line.back state).bind (walk moves)
  | .forth :: moves, state => (line.forth state).bind (walk moves)

/-- Cells that no event from `position` on touches. -/
def Settled (pos : Nat) (cell : κ) : Prop :=
  ∀ event, pos ≤ event → event < line.length → ¬ line.touched event cell

/-- What holds at every point of a walk from the tip: the settled cells are
those of the tip.  Nothing is said about the other ones. -/
def Consistent (pos : Nat) (state : σ) : Prop :=
  ∀ cell, line.Settled pos cell → line.read state cell = line.recorded line.length cell

variable {line}

theorem recorded_of_settled (settled : line.Settled pos cell) (below : pos ≤ line.length) :
    line.recorded pos cell = line.recorded line.length cell := by
  obtain ⟨gap, sum⟩ := Nat.exists_eq_add_of_le below
  induction gap generalizing pos with
  | zero => rw [sum, Nat.add_zero]
  | succ gap ih =>
    have before : pos < line.length := by omega
    have untouched : ¬ line.touched pos cell := settled pos (Nat.le_refl pos) before
    rw [← line.recorded_frame before untouched]
    refine ih ?_ before (by omega)
    intro event later inside
    exact settled event (by omega) inside

theorem consistent_back (inside : event < line.length)
    (frame : ∀ cell, ¬ line.touched event cell → line.read next cell = line.read state cell)
    (consistent : line.Consistent (event + 1) state) :
    line.Consistent event next := by
  intro cell settled
  rw [frame cell (settled event (Nat.le_refl event) inside)]
  apply consistent
  intro later above below
  exact settled later (by omega) below

theorem consistent_forth (inside : event < line.length) (written : ∀ cell, line.touched event cell →
      line.read next cell = line.recorded (event + 1) cell)
    (frame : ∀ cell, ¬ line.touched event cell → line.read next cell = line.read state cell)
    (consistent : line.Consistent event state) :
    line.Consistent (event + 1) next := by
  intro cell settled
  by_cases touches : line.touched event cell
  · rw [written cell touches]
    exact recorded_of_settled settled inside
  · rw [frame cell touches]
    apply consistent
    intro later above below
    rcases Nat.eq_or_lt_of_le above with same | after
    · exact same ▸ touches
    · exact settled later after below

/-- Every walk inside the history succeeds and keeps what its steps keep. -/
theorem walk_keeps (kept : Nat → σ → Prop)
    (backward : ∀ {event : Nat} {state next : σ}, event < line.length →
      line.At (event + 1) state → line.back state = some next →
      (∀ cell, ¬ line.touched event cell → line.read next cell = line.read state cell) →
      kept (event + 1) state → kept event next)
    (forward : ∀ {event : Nat} {state next : σ}, event < line.length →
      (∀ cell, line.touched event cell → line.read next cell = line.recorded (event + 1) cell) →
      (∀ cell, ¬ line.touched event cell → line.read next cell = line.read state cell) →
      kept event state → kept (event + 1) next)
    (inside : start ≤ line.length)
    (followed : Move.follow line.length start moves = some finish) (pos : line.At start state)
    (isKept : kept start state) :
    ∃ last, line.walk moves state = some last ∧ line.At finish last ∧ kept finish last := by
  induction moves generalizing start state with
  | nil =>
    cases followed
    exact ⟨state, rfl, pos, isKept⟩
  | cons move moves ih =>
    cases move with
    | back =>
      cases start with
      | zero => cases followed
      | succ event =>
        obtain ⟨next, moved, nextAt, frame⟩ := line.back_step inside pos
        obtain ⟨last, walked, result⟩ := ih (Nat.le_of_lt inside) followed nextAt
          (backward inside pos moved frame isKept)
        exact ⟨last, by simp [walk, moved, walked], result⟩
    | forth =>
      have below : start < line.length := by
        by_contra outside
        simp [Move.follow, outside] at followed
      obtain ⟨next, moved, nextAt, written, frame⟩ := line.forth_step below pos
      obtain ⟨last, walked, result⟩ :=
        ih below (by simpa [Move.follow, below] using followed) nextAt
          (forward below written frame isKept)
      exact ⟨last, by simp [walk, moved, walked], result⟩

/-- A walk that returns to the tip returns to the contents of the tip. -/
theorem walk_tip (followed : Move.follow line.length line.length moves = some line.length)
    (pos : line.At line.length state)
    (tip : ∀ cell, line.read state cell = line.recorded line.length cell) :
    ∃ last, line.walk moves state = some last ∧
      line.At line.length last ∧
      ∀ cell, line.read last cell = line.recorded line.length cell := by
  obtain ⟨last, walked, lastAt, consistent⟩ :=
    walk_keeps line.Consistent (fun inside _ _ => consistent_back inside) consistent_forth
      (Nat.le_refl _) followed pos fun cell _ => tip cell
  refine ⟨last, walked, lastAt, ?_⟩
  intro cell
  apply consistent
  intro event above below
  omega

/-- The same timeline with a part of the contents. -/
def mapContents {μ : Type} (line : Timeline σ κ ν) (part : ν → μ) : Timeline σ κ μ where
  length := line.length
  At := line.At
  read := fun state cell => part (line.read state cell)
  recorded := fun pos cell => part (line.recorded pos cell)
  touched := line.touched
  back := line.back
  forth := line.forth
  recorded_frame := by
    intro event cell inside untouched
    rw [line.recorded_frame inside untouched]
  back_step := by
    intro event state inside pos
    obtain ⟨next, moved, nextAt, frame⟩ := line.back_step inside pos
    refine ⟨next, moved, nextAt, ?_⟩
    intro cell untouched
    rw [frame cell untouched]
  forth_step := by
    intro event state inside pos
    obtain ⟨next, moved, nextAt, written, frame⟩ := line.forth_step inside pos
    refine ⟨next, moved, nextAt, ?_, ?_⟩
    · intro cell touches
      rw [written cell touches]
    · intro cell untouched
      rw [frame cell untouched]

/-- Moving back restores the contents recorded before each event. -/
def Exact (line : Timeline σ κ ν) : Prop :=
  ∀ {event : Nat} {state next : σ}, event < line.length →
    line.At (event + 1) state → line.back state = some next →
    ∀ cell, line.touched event cell → line.read next cell = line.recorded event cell

/-- A walk along an exact timeline finds what was recorded wherever it comes. -/
theorem walk_exact (exact_ : line.Exact) (inside : start ≤ line.length)
    (followed : Move.follow line.length start moves = some finish) (pos : line.At start state)
    (contents : ∀ cell, line.read state cell = line.recorded start cell) :
    ∃ last, line.walk moves state = some last ∧ line.At finish last ∧
      ∀ cell, line.read last cell = line.recorded finish cell := by
  refine walk_keeps (fun pos state => ∀ cell, line.read state cell =
    line.recorded pos cell) ?_ ?_ inside followed pos contents
  · intro event state next inside pos moved frame contents cell
    by_cases touches : line.touched event cell
    · exact exact_ inside pos moved cell touches
    · rw [frame cell touches, contents cell]
      exact line.recorded_frame inside touches
  · intro event state next inside written frame contents cell
    by_cases touches : line.touched event cell
    · exact written cell touches
    · rw [frame cell touches, contents cell]
      exact (line.recorded_frame inside touches).symm

end Timeline

/-- Apply the undo functions of the last `count` of `length` events, the last
event first. -/
def unwind {α : Type} (undo : Nat → α → α) (length : Nat) : Nat → α → α
  | 0, value => value
  | count + 1, value =>
    undo (length - (count + 1)) (unwind undo length count value)

/-- Every number of events can be unwound exactly when every single event can
be undone from the value it led to. -/
theorem unwind_eq_iff (undo : Nat → α → α) (length : Nat) (values : Nat → α) :
    (∀ count ≤ length, unwind undo length count (values length) = values (length - count)) ↔
      ∀ event < length, undo event (values (event + 1)) = values event := by
  constructor
  · intro unwound event inside
    have after := unwound (length - (event + 1)) (by omega)
    have before := unwound (length - (event + 1) + 1) (by omega)
    have here : length - (length - (event + 1)) = event + 1 := by omega
    have there : length - (length - (event + 1) + 1) = event := by omega
    rw [here] at after
    rw [unwind, there, after] at before
    exact before
  · intro single count
    induction count with
    | zero =>
      intro _
      rfl
    | succ count ih =>
      intro inside
      have step := single (length - (count + 1)) (by omega)
      have here : length - (count + 1) + 1 = length - count := by omega
      rw [here] at step
      rw [unwind, ih (by omega), step]

end Reverse.Library
