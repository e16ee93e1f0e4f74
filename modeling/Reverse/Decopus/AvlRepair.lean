import Reverse.Decopus.AvlLinks

/-!
# The repair of the linked nodes

`AVL_balance` on the linked nodes is the repair of the tree that they
represent.
-/

namespace Reverse.Decopus

open Avl Option List

section

variable {κ δ : Type} {tree : AvlTree κ δ} {path : List (Frame NodePtr)}

theorem Zip.setBalance (zip : Zip tree path (.node p balance child))
    (new : Int) : Zip (tree.setBalance p new) path (.node p new child) := by
  obtain ⟨above, ⟨isAt, -, children⟩, nodup⟩ := zip
  have outside := nodup
  rw [Shape.toList, append_assoc, cons_append, nodup_middle, nodup_cons] at outside
  simp only [mem_append, not_or] at outside
  obtain ⟨⟨notLeft, notRight, notPath⟩, -⟩ := outside
  refine ⟨above.modify notPath _, ?_, nodup⟩
  rw [AvlTree.setBalance, Links, AvlTree.modify_self]
  refine ⟨isAt, rfl, fun side => ⟨(children side).1, ?_⟩⟩
  apply (children side).2.modify
  cases side with
  | left => exact notLeft
  | right => exact notRight

theorem AvlTree.addBalance_eq (tree : AvlTree κ δ) (p : NodePtr) (change : Int) :
    tree.addBalance p change = tree.setBalance p ((tree.nodes p).balance + change) := rfl

theorem Zip.setBalance_child
    (zip : Zip tree path (.node m upper (fork side (.node n lower grand) far))) (new : Int) :
    Zip (tree.setBalance n new) path (.node m upper (fork side (.node n new grand) far)) := by
  have inside : Zip tree (⟨m, upper, side, far⟩ :: path) (.node n lower grand) := zip_cons.mpr zip
  exact zip_cons.mp (inside.setBalance new)

/-- A node is rotated and the balances of the two nodes are set. -/
theorem avlRot_balances {inner : Shape NodePtr} (zip : Zip tree path (.node n balance
      (fork heavy (.node m upper (fork heavy outer inner)) far)))
    (high low : Int) :
    ∃ later, avlRot tree n heavy.other = some (later, m) ∧
      ((later.setBalance m high).nodes m).child heavy.other = some n ∧
      Zip ((later.setBalance m high).setBalance n low) path (.node m high
        (fork heavy outer (.node n low (fork heavy inner far)))) ∧
      Relinked tree ((later.setBalance m high).setBalance n low) := by
  obtain ⟨later, rotates, turned, relinked⟩ := avlRot_zip zip
  have first := turned.setBalance high
  have below := first.node_child heavy.other
  rw [fork_far] at below
  refine ⟨later, rotates, below, ?_, ?_⟩
  · rw [← fork_other] at first ⊢
    exact first.setBalance_child low
  · exact relinked.trans ((Relinked.setBalance ..).trans (.setBalance ..))

theorem avlRot_twice (zip : Zip tree path (.node n balance (fork heavy (.node m upper
      (fork heavy outer (.node i inside (fork heavy first second)))) far))) :
    ∃ middle later, avlRot tree m heavy = some (middle, i) ∧
      avlRot middle n heavy.other = some (later, i) ∧
      Zip later path (.node i inside (fork heavy
        (.node m upper (fork heavy outer first))
        (.node n balance (fork heavy second far)))) ∧
      Relinked tree later := by
  have below : Zip tree (⟨n, balance, heavy, far⟩ :: path) (.node m upper
      (fork heavy.other (.node i inside (fork heavy.other second first)) outer)) := by
    rw [fork_other, fork_other]
    exact zip_cons.mpr zip
  obtain ⟨middle, rotates, turned, relinked⟩ := avlRot_zip below
  rw [fork_other, fork_other] at turned
  obtain ⟨later, again, done, alsoRelinked⟩ := avlRot_zip (zip_cons.mp turned)
  rw [Side.other_other] at rotates
  exact ⟨middle, later, rotates, again, done, relinked.trans alsoRelinked⟩

theorem fork_right (near far : β) : fork .right near far = fork .left far near :=
  fork_other .left far near

theorem Zip.setBalances (zip : Zip tree path (.node p balance
      (fork .left (.node l left inLeft) (.node r right inRight))))
    (new : Side → Int) :
    ((tree.setBalance p 0).nodes p).child .left = some l ∧
      (((tree.setBalance p 0).setBalance l (new .left)).nodes p).child .right = some r ∧
      Zip (((tree.setBalance p 0).setBalance l (new .left)).setBalance r
        (new .right)) path (.node p 0 (fork .left (.node l (new .left) inLeft)
          (.node r (new .right) inRight))) ∧
      Relinked tree (((tree.setBalance p 0).setBalance l (new .left)).setBalance
        r (new .right)) := by
  have first := zip.setBalance 0
  have second := first.setBalance_child (new .left)
  refine ⟨first.node_child .left, second.node_child .right, ?_, ?_⟩
  · rw [← fork_right] at second ⊢
    exact second.setBalance_child (new .right)
  · exact (Relinked.setBalance ..).trans ((Relinked.setBalance ..).trans (.setBalance ..))

theorem avlRebalance_zip (add : Bool) (zip : Zip tree path (.node n balance child))
    (rotates : Rotates heavy child) :
    ∃ later root, avlRebalance tree n heavy add =
        some (later, root, (rebalance heavy add n balance child).2) ∧
      (rebalance heavy add n balance child).1.root? = some root ∧
      Zip later path (rebalance heavy add n balance child).1 ∧
      Relinked tree later := by
  obtain ⟨m, upper, outer, inner, isUpper, inside, cases⟩ := rotates
  have isChild : (tree.nodes n).child heavy = some m := by
    rw [zip.node_child, isUpper]
    rfl
  rw [← fork_eta heavy child, isUpper] at zip
  have upperZip : Zip tree (⟨n, balance, heavy, child heavy.other⟩ :: path)
      (.node m upper (fork heavy outer inner)) :=
    zip_cons.mpr zip
  have isBalance := upperZip.node_balance
  unfold avlRebalance rebalance
  rw [isChild, isUpper, bind_some]
  simp only [isBalance, fork_near, fork_far]
  rcases cases with single | flat | double
  · rw [if_pos single, if_pos single]
    obtain ⟨later, rotates, lower, settled, relinked⟩ := avlRot_balances zip 0 0
    simp only [rotates, bind_some, lower, map_some]
    exact ⟨_, _, rfl, rfl, settled, relinked⟩
  · have notSingle : upper ≠ heavy.sign := by
      rw [flat]
      cases heavy <;> nofun
    rw [if_neg notSingle, if_pos flat, if_neg notSingle, if_pos flat]
    obtain ⟨later, rotates, lower, settled, relinked⟩ :=
      avlRot_balances zip (-heavy.sign) heavy.sign
    simp only [rotates, bind_some, lower, map_some]
    exact ⟨_, _, rfl, rfl, settled, relinked⟩
  · have notSingle : upper ≠ heavy.sign := by
      rw [double]
      cases heavy <;> nofun
    have notFlat : upper ≠ 0 := by
      rw [double]
      cases heavy <;> nofun
    rw [if_neg notSingle, if_neg notFlat, if_pos double, if_neg notSingle,
      if_neg notFlat, if_pos double]
    cases inner with
    | nil => exact absurd rfl (inside double)
    | node i middle grand =>
      rw [← fork_eta heavy grand] at zip
      have isInner : (tree.nodes m).child heavy.other = some i := by
        rw [upperZip.node_child, fork_far]
        rfl
      have innerLinks := (links_fork.mp upperZip.links).2.2.2.2
      have isMiddle : (tree.nodes i).balance = middle := innerLinks.2.1
      obtain ⟨between, later, first, second, turned, relinked⟩ := avlRot_twice zip
      simp only [isInner, bind_some, first, second, isMiddle]
      cases heavy with
      | left =>
        obtain ⟨isLeft, isRight, settled, alsoRelinked⟩ := turned.setBalances (innerBalance middle)
        simp only [isLeft, bind_some, isRight, map_some]
        exact ⟨_, _, rfl, rfl, settled, relinked.trans alsoRelinked⟩
      | right =>
        rw [fork_right] at turned
        obtain ⟨isLeft, isRight, settled, alsoRelinked⟩ := turned.setBalances (innerBalance middle)
        simp only [isLeft, bind_some, isRight, map_some]
        refine ⟨_, _, rfl, rfl, ?_, relinked.trans alsoRelinked⟩
        rw [fork_right]
        exact settled

theorem avlRestore_zip (zip : Zip tree path (.node n balance child))
    (unsettled : Unsettled add height n balance child) :
    ∃ later root, avlRestore tree n add =
        some (later, root, (restore add (.node n balance child)).2) ∧
      (restore add (.node n balance child)).1.root? = some root ∧
      Zip later path (restore add (.node n balance child)).1 ∧
      Relinked tree later := by
  simp only [avlRestore, restore, zip.node_balance]
  split
  · exact ⟨_, _, rfl, rfl, zip, .refl _⟩
  · split
    · exact ⟨_, _, rfl, rfl, zip, .refl _⟩
    · split
      · rename_i leftHeavy
        exact avlRebalance_zip add zip (unsettled.rotates leftHeavy)
      · split
        · rename_i rightHeavy
          exact avlRebalance_zip add zip (unsettled.rotates rightHeavy)
        · exact ⟨_, _, rfl, rfl, zip, .refl _⟩

theorem Zip.shift (zip : Zip tree (frame :: path) subtree) (change : Int) :
    Zip (tree.addBalance frame.label (change * frame.side.sign)) path
      ((frame.shift change).plug subtree) := by
  have whole := zip_cons.mp zip
  have isBalance := whole.node_balance
  rw [AvlTree.addBalance_eq, isBalance]
  exact whole.setBalance _

theorem avlBalance_zip (zip : Zip tree path (.node n balance child))
    (unsettled : Unsettled add height n balance child)
    (fits : Fits path height) (enough : path.length < fuel) :
    ∃ later, avlBalance add fuel tree (some n) = some later ∧
      Zip later [] (settle add path (.node n balance child)) ∧
      Relinked tree later := by
  induction path generalizing tree height fuel n balance child with
  | nil =>
    obtain ⟨fuel, rfl⟩ : ∃ rest, fuel = rest + 1 := ⟨fuel - 1, by omega⟩
    obtain ⟨later, root, restores, isRoot, repaired, relinked⟩ := avlRestore_zip zip unsettled
    have isFather := (repaired.root_at isRoot).1
    rw [avlBalance, restores, bind_some, settle]
    dsimp only
    rw [isFather]
    split
    · exact ⟨later, rfl, repaired, relinked⟩
    · exact ⟨later, rfl, repaired, relinked⟩
  | cons frame path ih =>
    obtain ⟨fuel, rfl⟩ : ∃ rest, fuel = rest + 1 := ⟨fuel - 1, by omega⟩
    obtain ⟨middle, root, restores, isRoot, repaired, relinked⟩ := avlRestore_zip zip unsettled
    obtain ⟨isFather, isSide⟩ := repaired.root_at isRoot
    rw [avlBalance, restores, bind_some, settle]
    dsimp only
    rw [isFather, isSide _ rfl]
    split
    · rw [← zip_plug] at repaired
      exact ⟨middle, rfl, repaired, relinked⟩
    · rename_i differ
      obtain ⟨balanced, heights, changed⟩ := restore_repaired unsettled
      have grown := unsettled_plug balanced heights (changed.resolve_left differ) fits
      obtain ⟨later, performs, done, alsoRelinked⟩ := ih
        (repaired.shift _) grown fits.2.2.2.2 (Nat.lt_of_succ_lt_succ enough)
      exact ⟨later, performs, done, relinked.trans ((Relinked.addBalance ..).trans alsoRelinked)⟩

/-- The height of the subtree below a node has changed, and the balance of the
node is already corrected. -/
theorem avlBalance_ascend {height fuel : Nat}
    (zip : Zip tree path ((frame.shift change).plug subtree)) (balanced : subtree.Balanced)
    (heights : (subtree.height : Int) = height + change) (changed : change = if add then 1 else -1)
    (fits : Fits (frame :: path) height) (enough : path.length < fuel) :
    ∃ later, avlBalance add fuel tree (some frame.label) = some later ∧
      Zip later [] (ascend add change (frame :: path) subtree) ∧
      Relinked tree later := by
  have grown := unsettled_plug balanced heights changed fits
  exact avlBalance_zip zip grown fits.2.2.2.2 enough

end

end Reverse.Decopus
