import Mathlib

/-!
# Balanced trees that are repaired from below

Binary trees that store at each node the difference of the heights of its
subtrees.  A tree is taken apart into a subtree and the path above it.  After
the subtree has grown or shrunk by one level, the repair goes up the path,
corrects the stored differences and rotates where a difference is too large.
It stops at the first subtree that has its old height.
-/

namespace Reverse.Avl

inductive Side where
  | left
  | right
deriving DecidableEq, Repr

namespace Side

def other : Side → Side
  | .left => .right
  | .right => .left

/-- What a subtree on this side counts for in the balance. -/
def sign : Side → Int
  | .left => -1
  | .right => 1

@[simp] theorem other_other (side : Side) : side.other.other = side := by
  cases side <;> rfl

@[simp] theorem other_ne (side : Side) : side.other ≠ side := by
  cases side <;> nofun

@[simp] theorem ne_other (side : Side) : side ≠ side.other := by
  cases side <;> nofun

theorem eq_other {side away : Side} (differ : side ≠ away) : side = away.other := by
  cases side <;> cases away <;> first | rfl | exact absurd rfl differ

@[simp] theorem sign_other (side : Side) : side.other.sign = -side.sign := by
  cases side <;> rfl

end Side

/-- One thing on a side and another one on the other side. -/
def fork {β : Type} (side : Side) (near far : β) : Side → β :=
  fun away => if away = side then near else far

section

variable {β : Type} (side : Side) (near far : β)

@[simp] theorem fork_near : fork side near far side = near := if_pos rfl

@[simp] theorem fork_far : fork side near far side.other = far :=
  if_neg side.other_ne

theorem fork_other : fork side.other far near = fork side near far := by
  funext away
  by_cases same : away = side
  · rw [same, fork_near, fork, if_neg side.ne_other]
  · rw [Side.eq_other same, fork_near, fork_far]

theorem fork_eta (child : Side → β) : fork side (child side) (child side.other) = child := by
  funext away
  by_cases same : away = side
  · rw [same, fork_near]
  · rw [Side.eq_other same, fork_far]

end

inductive Shape (α : Type) where
  | nil : Shape α
  | node (label : α) (balance : Int) (child : Side → Shape α) : Shape α

variable {α : Type}

namespace Shape

def toList : Shape α → List α
  | .nil => []
  | .node label _ child =>
    (child .left).toList ++ label :: (child .right).toList

def height : Shape α → Nat
  | .nil => 0
  | .node _ _ child => max (child .left).height (child .right).height + 1

/-- The stored differences are right and at most one. -/
def Balanced : Shape α → Prop
  | .nil => True
  | .node _ balance child =>
    balance = (child .right).height - (child .left).height ∧
      -1 ≤ balance ∧ balance ≤ 1 ∧ ∀ side, (child side).Balanced

def root? : Shape α → Option α
  | .nil => none
  | .node label _ _ => some label

theorem toList_fork (side : Side) (label : α) (balance : Int) (near far : Shape α) :
    (node label balance (fork side near far)).toList =
      match side with
      | .left => near.toList ++ label :: far.toList
      | .right => far.toList ++ label :: near.toList := by
  cases side <;> rfl

theorem height_fork (side : Side) (label : α) (balance : Int) (near far : Shape α) :
    (node label balance (fork side near far)).height = max near.height far.height + 1 := by
  cases side
  · rfl
  · exact congrArg (· + 1) (Nat.max_comm _ _)

theorem balanced_fork :
    (node label balance (fork side near far)).Balanced ↔
      balance = side.sign * (near.height - far.height) ∧
        -1 ≤ balance ∧ balance ≤ 1 ∧ near.Balanced ∧ far.Balanced := by
  have both : (∀ away, (fork side near far away).Balanced) ↔ near.Balanced ∧ far.Balanced := by
    constructor
    · intro all
      have first := all side
      have second := all side.other
      rw [fork_near] at first
      rw [fork_far] at second
      exact ⟨first, second⟩
    · rintro ⟨first, second⟩ away
      by_cases same : away = side
      · rw [same, fork_near]
        exact first
      · rw [Side.eq_other same, fork_far]
        exact second
  rw [Balanced, both]
  cases side
  · change balance = far.height - near.height ∧ _ ↔ balance = -1 * (near.height - far.height) ∧ _
    rw [Int.neg_one_mul, Int.neg_sub]
  · change balance = near.height - far.height ∧ _ ↔ balance = 1 * (near.height - far.height) ∧ _
    rw [Int.one_mul]

end Shape

/-- The side of the higher subtree, the right one if both are equal. -/
def highSide (balance : Int) : Side :=
  if balance < 0 then .left else .right

theorem Shape.Balanced.high_ne_nil (balanced : (node label balance child).Balanced)
    (nonempty : child side ≠ .nil) :
    child (highSide balance) ≠ .nil := by
  obtain ⟨exact, -, -, -⟩ := balanced
  have positive : 0 < (child side).height := by
    cases shape : child side with
    | nil => exact absurd shape nonempty
    | node _ _ _ => exact Nat.succ_pos _
  unfold highSide
  intro isNil
  split at isNil
  · rw [isNil, height] at exact
    omega
  · rw [isNil, height] at exact
    cases side with
    | left => omega
    | right => rw [isNil, height] at positive; omega

/-- A node above a subtree, with the side on which the subtree is. -/
structure Frame (α : Type) where
  label : α
  balance : Int
  side : Side
  sibling : Shape α

def Frame.plug (frame : Frame α) (subtree : Shape α) : Shape α :=
  .node frame.label frame.balance (fork frame.side subtree frame.sibling)

/-- Put a subtree below a path, whose first node is the lowest one. -/
def plug : List (Frame α) → Shape α → Shape α
  | [], subtree => subtree
  | frame :: path, subtree => plug path (frame.plug subtree)

def Frame.before (frame : Frame α) : List α :=
  match frame.side with
  | .left => []
  | .right => frame.sibling.toList ++ [frame.label]

def Frame.after (frame : Frame α) : List α :=
  match frame.side with
  | .left => frame.label :: frame.sibling.toList
  | .right => []

def before : List (Frame α) → List α
  | [] => []
  | frame :: path => before path ++ frame.before

def after : List (Frame α) → List α
  | [] => []
  | frame :: path => frame.after ++ after path

theorem Frame.toList_plug (frame : Frame α) (subtree : Shape α) :
    (frame.plug subtree).toList = frame.before ++ subtree.toList ++ frame.after := by
  rw [plug, Shape.toList_fork]
  unfold Frame.before Frame.after
  cases frame.side with
  | left => simp
  | right => simp

theorem toList_plug (path : List (Frame α)) (subtree : Shape α) :
    (plug path subtree).toList = before path ++ subtree.toList ++ after path := by
  induction path generalizing subtree with
  | nil => simp [plug, before, after]
  | cons frame path ih =>
    rw [plug, ih, frame.toList_plug]
    simp [before, after]

theorem plug_append (inner outer : List (Frame α)) (subtree : Shape α) :
    plug (inner ++ outer) subtree = plug outer (plug inner subtree) := by
  induction inner generalizing subtree with
  | nil => rfl
  | cons frame inner ih => exact ih _

theorem plug_concat (path : List (Frame α)) (frame : Frame α) (subtree : Shape α) :
    plug (path ++ [frame]) subtree = frame.plug (plug path subtree) :=
  plug_append ..

theorem length_le_plug (path : List (Frame α)) (subtree : Shape α) :
    path.length + subtree.toList.length ≤ (plug path subtree).toList.length := by
  induction path generalizing subtree with
  | nil => simp [plug]
  | cons frame path ih =>
    have outer := ih (frame.plug subtree)
    have here : (frame.plug subtree).toList.length =
        subtree.toList.length + frame.sibling.toList.length + 1 := by
      rw [Frame.plug, Shape.toList_fork]
      cases frame.side <;> simp <;> omega
    rw [List.length_cons]
    exact Nat.le_trans (by omega) outer

theorem exists_plug (member : label ∈ tree.toList) :
    ∃ path balance child, tree = plug path (.node label balance child) := by
  induction tree with
  | nil => cases member
  | node root balance child ih =>
    have below : ∀ side, label ∈ (child side).toList →
        ∃ path inner grand, .node root balance child = plug path (.node label inner grand) := by
      intro side inChild
      obtain ⟨path, inner, grand, split⟩ := ih side inChild
      refine ⟨path ++ [⟨root, balance, side, child side.other⟩], inner, grand, ?_⟩
      rw [plug_concat, ← split]
      change _ = Shape.node root balance (fork side (child side) (child side.other))
      rw [fork_eta]
    rw [Shape.toList, List.mem_append, List.mem_cons] at member
    rcases member with inLeft | rfl | inRight
    · exact below .left inLeft
    · exact ⟨[], balance, child, rfl⟩
    · exact below .right inRight

/-- The balance of the lower node on a side after a double rotation. -/
def innerBalance (balance : Int) : Side → Int
  | .left => 0 - ((balance * (balance + 1)) >>> 1)
  | .right => (balance * (balance - 1)) >>> 1

/-- Rotate a node whose subtree on the side `heavy` is too high.  The number is
the difference to the height that the tree had before. -/
def rebalance (heavy : Side) (add : Bool) (label : α) (balance : Int)
    (child : Side → Shape α) : Shape α × Int :=
  match child heavy with
  | .nil => (.node label balance child, 0)
  | .node upper upperBalance upperChild =>
    if upperBalance = heavy.sign then
      (.node upper 0 (fork heavy (upperChild heavy)
        (.node label 0 (fork heavy (upperChild heavy.other) (child heavy.other)))),
        if add then 0 else -1)
    else if upperBalance = 0 then
      (.node upper (-heavy.sign) (fork heavy (upperChild heavy)
        (.node label heavy.sign (fork heavy (upperChild heavy.other) (child heavy.other)))),
        if add then 1 else 0)
    else if upperBalance = -heavy.sign then
      match upperChild heavy.other with
      | .nil => (.node label balance child, 0)
      | .node inner inside innerChild =>
        (.node inner 0 (fork heavy
          (.node upper (innerBalance inside heavy)
            (fork heavy (upperChild heavy) (innerChild heavy)))
          (.node label (innerBalance inside heavy.other)
            (fork heavy (innerChild heavy.other) (child heavy.other)))),
          if add then 0 else -1)
    else (.node label balance child, 0)

/-- Repair the root after one of its subtrees has grown or shrunk. -/
def restore (add : Bool) : Shape α → Shape α × Int
  | .nil => (.nil, 0)
  | .node label balance child =>
    if balance = 0 then
      (.node label balance child, if add then 0 else -1)
    else if balance = 1 ∨ balance = -1 then
      (.node label balance child, if add then 1 else 0)
    else if balance = -2 then rebalance .left add label balance child
    else if balance = 2 then rebalance .right add label balance child
    else (.node label balance child, 0)

/-- The node above a subtree whose height has changed. -/
def Frame.shift (frame : Frame α) (change : Int) : Frame α :=
  { frame with balance := frame.balance + change * frame.side.sign }

/-- Repair a tree from a subtree upwards. -/
def settle (add : Bool) : List (Frame α) → Shape α → Shape α
  | path, subtree =>
    let (repaired, change) := restore add subtree
    if change = 0 then plug path repaired
    else
      match path with
      | [] => repaired
      | frame :: path =>
        settle add path ((frame.shift change).plug repaired)

/-- The height of a subtree has changed by `change`. -/
def ascend (add : Bool) (change : Int) : List (Frame α) → Shape α → Shape α
  | [], subtree => subtree
  | frame :: path, subtree =>
    settle add path ((frame.shift change).plug subtree)

theorem rebalance_toList (heavy : Side) (add : Bool) (label : α)
    (balance : Int) (child : Side → Shape α) :
    (rebalance heavy add label balance child).1.toList =
      (Shape.node label balance child).toList := by
  have whole := congrArg (fun child => (Shape.node label balance child).toList)
    (fork_eta heavy child)
  unfold rebalance
  cases upperCase : child heavy with
  | nil => rfl
  | node upper upperBalance upperChild =>
    rw [← whole, upperCase, ← fork_eta heavy upperChild]
    simp only [fork_near, fork_far]
    split
    · cases heavy <;> simp [Shape.toList_fork]
    · split
      · cases heavy <;> simp [Shape.toList_fork]
      · split
        · cases innerCase : upperChild heavy.other with
          | nil => simp [← whole, upperCase, ← innerCase, fork_eta]
          | node inner inside innerChild =>
            rw [← fork_eta heavy innerChild]
            simp only [fork_near, fork_far]
            cases heavy <;> simp [Shape.toList_fork]
        · simp [← whole, upperCase, fork_eta]

theorem restore_toList (add : Bool) (tree : Shape α) :
    (restore add tree).1.toList = tree.toList := by
  cases tree with
  | nil => rfl
  | node label balance child =>
    simp only [restore]
    split
    · rfl
    · split
      · rfl
      · split
        · exact rebalance_toList ..
        · split
          · exact rebalance_toList ..
          · rfl

theorem settle_toList (add : Bool) (path : List (Frame α)) (subtree : Shape α) :
    (settle add path subtree).toList = before path ++ subtree.toList ++ after path := by
  induction path generalizing subtree with
  | nil =>
    unfold settle
    have kept := restore_toList add subtree
    dsimp only
    split
    · rw [toList_plug, kept]
    · simp [before, after, kept]
  | cons frame path ih =>
    unfold settle
    have kept := restore_toList add subtree
    dsimp only
    split
    · rw [toList_plug, kept]
    · rw [ih, Frame.toList_plug, kept]
      simp [before, after, Frame.shift, Frame.before, Frame.after]

theorem ascend_toList (add : Bool) (change : Int) (path : List (Frame α)) (subtree : Shape α) :
    (ascend add change path subtree).toList = before path ++ subtree.toList ++ after path := by
  cases path with
  | nil => simp [ascend, before, after]
  | cons frame path =>
    rw [ascend, settle_toList, Frame.toList_plug]
    simp [before, after, Frame.shift, Frame.before, Frame.after]

/-- The path is balanced around a subtree of the given height. -/
def Fits : List (Frame α) → Nat → Prop
  | [], _ => True
  | frame :: path, height =>
    frame.balance = frame.side.sign * (height - frame.sibling.height) ∧
      -1 ≤ frame.balance ∧ frame.balance ≤ 1 ∧ frame.sibling.Balanced ∧
      Fits path (max height frame.sibling.height + 1)

theorem Fits.relabel {inner : List (Frame α)} (label : α)
    (fits : Fits (inner ++ frame :: path) height) :
    Fits (inner ++ { frame with label := label } :: path) height := by
  induction inner generalizing height with
  | nil => exact fits
  | cons lower inner ih =>
    obtain ⟨exact, low, high, sibling, rest⟩ := fits
    exact ⟨exact, low, high, sibling, ih rest⟩

theorem balanced_plug :
    (plug path subtree).Balanced ↔ subtree.Balanced ∧ Fits path subtree.height := by
  induction path generalizing subtree with
  | nil => simp [plug, Fits]
  | cons frame path ih =>
    rw [plug, ih, Frame.plug, Shape.balanced_fork, Shape.height_fork, Fits]
    tauto

/-- One of the subtrees has grown or shrunk by a level.  Before that the height
was `height`. -/
structure Unsettled (add : Bool) (height : Nat) (label : α) (balance : Int)
    (child : Side → Shape α) : Prop where
  children : ∀ side, (child side).Balanced
  exact : balance = (child .right).height - (child .left).height
  low : -2 ≤ balance
  high : balance ≤ 2
  same : balance = 0 →
    ((Shape.node label balance child).height : Int) =
      height + if add then 0 else -1
  changed : balance ≠ 0 →
    ((Shape.node label balance child).height : Int) =
      height + if add then 1 else 0

/-- The result of a repair is balanced, and the number is the change of the
height. -/
def Repaired (add : Bool) (height : Nat) (result : Shape α × Int) : Prop :=
  result.1.Balanced ∧ (result.1.height : Int) = height + result.2 ∧
    (result.2 = 0 ∨ result.2 = if add then 1 else -1)

theorem innerBalance_eq (low : -1 ≤ balance) (high : balance ≤ 1) (side : Side) :
    innerBalance balance side = if balance = -side.sign then side.sign else 0 := by
  obtain rfl | rfl | rfl : balance = -1 ∨ balance = 0 ∨ balance = 1 := by
    omega
  all_goals cases side <;> rfl

/-- The nodes that a rotation moves are there. -/
def Rotates (heavy : Side) (child : Side → Shape α) : Prop :=
  ∃ upper upperBalance outside inside,
    child heavy = .node upper upperBalance (fork heavy outside inside) ∧
      (upperBalance = -heavy.sign → inside ≠ .nil) ∧
      (upperBalance = heavy.sign ∨ upperBalance = 0 ∨ upperBalance = -heavy.sign)

theorem Unsettled.rotates (unsettled : Unsettled add height label balance child)
    (tooHigh : balance = 2 * heavy.sign) : Rotates heavy child := by
  have near := unsettled.children heavy
  have heights : (child heavy).height = (child heavy.other).height + 2 := by
    have exact := unsettled.exact
    cases heavy <;> simp only [Side.sign, Side.other] at * <;> omega
  cases upperCase : child heavy with
  | nil =>
    rw [upperCase] at heights
    cases heights
  | node upper upperBalance upperChild =>
    rw [upperCase, ← fork_eta heavy upperChild, Shape.balanced_fork] at near
    obtain ⟨exact, low, high, -, -⟩ := near
    refine ⟨upper, upperBalance, upperChild heavy, upperChild heavy.other, ?_, ?_, ?_⟩
    · rw [upperCase, fork_eta]
    · intro opposite isNil
      rw [isNil] at exact
      cases heavy <;> simp only [Side.sign, Shape.height] at * <;> omega
    · cases heavy <;> simp only [Side.sign] <;> omega

theorem rebalance_repaired (unsettled : Unsettled add height label balance child)
    (tooHigh : balance = 2 * heavy.sign) :
    Repaired add height (rebalance heavy add label balance child) := by
  have changed := unsettled.changed (by cases heavy <;> simp [tooHigh, Side.sign])
  have near := unsettled.children heavy
  have far := unsettled.children heavy.other
  have heights : (child heavy).height = (child heavy.other).height + 2 := by
    have exact := unsettled.exact
    cases heavy <;> simp only [Side.sign, Side.other] at * <;> omega
  have whole : (Shape.node label balance child).height = (child heavy).height + 1 := by
    rw [← fork_eta heavy child, Shape.height_fork]
    simp only [fork_near]
    omega
  unfold rebalance Repaired
  cases upperCase : child heavy with
  | nil =>
    rw [upperCase] at heights
    simp [Shape.height] at heights
  | node upper upperBalance upperChild =>
    rw [upperCase, ← fork_eta heavy upperChild] at near heights whole
    rw [Shape.balanced_fork] at near
    rw [Shape.height_fork] at heights whole
    obtain ⟨upperExact, upperLow, upperHigh, outside, inside⟩ := near
    simp only
    split
    · rename_i single
      simp only [Shape.balanced_fork, Shape.height_fork]
      refine ⟨⟨?_, by omega, by omega, outside, ?_, by omega, by omega, inside, far⟩, ?_, ?_⟩
      all_goals cases heavy <;> cases add <;>
        simp only [Side.sign, Side.other] at * <;> grind
    · split
      · rename_i flat
        simp only [Shape.balanced_fork, Shape.height_fork]
        refine ⟨⟨?_, ?_, ?_, outside, ?_, ?_, ?_, inside, far⟩, ?_, ?_⟩
        all_goals cases heavy <;> cases add <;>
          simp only [Side.sign, Side.other] at * <;> grind
      · split
        · rename_i double
          cases innerCase : upperChild heavy.other with
          | nil =>
            rw [innerCase] at upperExact
            simp only [Shape.height] at upperExact
            cases heavy <;> simp only [Side.sign, Side.other] at * <;> omega
          | node inner middle innerChild =>
            rw [innerCase, ← fork_eta heavy innerChild] at inside
            rw [innerCase, ← fork_eta heavy innerChild,
              Shape.height_fork] at upperExact heights whole
            rw [Shape.balanced_fork] at inside
            obtain ⟨innerExact, innerLow, innerHigh, first, second⟩ := inside
            simp only [Shape.balanced_fork, Shape.height_fork, innerBalance_eq innerLow innerHigh]
            refine ⟨⟨?_, by omega, by omega, ⟨?_, ?_, ?_, outside, first⟩,
              ?_, ?_, ?_, second, far⟩, ?_, ?_⟩
            all_goals cases heavy <;> cases add <;>
              simp only [Side.sign, Side.other] at * <;> grind
        · cases heavy <;> simp only [Side.sign, Side.other] at * <;> omega

theorem restore_repaired (unsettled : Unsettled add height label balance child) :
    Repaired add height (restore add (.node label balance child)) := by
  have low := unsettled.low
  have high := unsettled.high
  simp only [restore]
  split
  · rename_i zero
    refine ⟨⟨unsettled.exact, by omega, by omega, unsettled.children⟩, unsettled.same zero, ?_⟩
    cases add <;> simp
  · rename_i nonzero
    split
    · refine ⟨⟨unsettled.exact, by omega, by omega, unsettled.children⟩,
        unsettled.changed nonzero, ?_⟩
      cases add <;> simp
    · split
      · rename_i leftHeavy
        exact rebalance_repaired unsettled leftHeavy
      · split
        · rename_i rightHeavy
          exact rebalance_repaired unsettled rightHeavy
        · omega

/-- The node above a repaired subtree is unsettled. -/
theorem unsettled_plug {height : Nat} (balanced : subtree.Balanced)
    (heights : (subtree.height : Int) = height + change) (changed : change = if add then 1 else -1)
    (fits : Fits (frame :: path) height) :
    Unsettled add (max height frame.sibling.height + 1) frame.label
      (frame.shift change).balance
      (fork frame.side subtree frame.sibling) := by
  obtain ⟨exact, low, high, sibling, -⟩ := fits
  have whole := Shape.height_fork frame.side frame.label
    (frame.shift change).balance subtree frame.sibling
  have shifted : (frame.shift change).balance = frame.balance + change * frame.side.sign := rfl
  constructor
  · intro side
    by_cases same : side = frame.side
    · rw [same, fork_near]
      exact balanced
    · rw [Side.eq_other same, fork_far]
      exact sibling
  all_goals
    cases side : frame.side <;> cases add <;> simp only [side, Side.sign, fork] at * <;> grind

theorem settle_balanced (unsettled : Unsettled add height label balance child)
    (fits : Fits path height) :
    (settle add path (.node label balance child)).Balanced := by
  induction path generalizing height label balance child with
  | nil =>
    unfold settle
    obtain ⟨balanced, -, -⟩ := restore_repaired unsettled
    dsimp only
    split
    · exact balanced
    · exact balanced
  | cons frame path ih =>
    unfold settle
    obtain ⟨balanced, heights, changed⟩ := restore_repaired unsettled
    dsimp only
    split
    · rename_i unchanged
      rw [balanced_plug]
      rw [unchanged] at heights
      have same : (restore add (.node label balance child)).1.height =
          height := by
        omega
      rw [same]
      exact ⟨balanced, fits⟩
    · rename_i differ
      exact ih (unsettled_plug balanced heights (changed.resolve_left differ) fits) fits.2.2.2.2

theorem ascend_balanced {height : Nat} (balanced : subtree.Balanced)
    (heights : (subtree.height : Int) = height + change)
    (changed : change = if add then 1 else -1) (fits : Fits path height) :
    (ascend add change path subtree).Balanced := by
  cases path with
  | nil => exact balanced
  | cons frame path =>
    exact settle_balanced (unsettled_plug balanced heights changed fits) fits.2.2.2.2

end Reverse.Avl
