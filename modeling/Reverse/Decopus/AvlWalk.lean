import Reverse.Library.TreeSearch
import Reverse.Decopus.AvlLinks

/-!
# Walks along the links

What the loops of `AVL_find`, `AVL_first`, `AVL_last`, `AVL_prev`, `AVL_next`
and the search of `AVL_add` find in the tree that the nodes represent.
-/

namespace Reverse.Decopus

open Avl Relation
open List hiding after

section

variable {κ δ : Type} {tree : AvlTree κ δ}

theorem links_reach (links : Links nodes subtree spot)
    (isTop : subtree.root? = some top) (member : p ∈ subtree.toList) :
    ReflTransGen (fun q r => ∃ side, (nodes q).child side = some r) top p := by
  induction subtree generalizing spot top with
  | nil => cases isTop
  | node q balance child ih =>
    cases isTop
    obtain ⟨-, -, children⟩ := links
    have below : ∀ side, p ∈ (child side).toList →
        ReflTransGen (fun q r => ∃ side, (nodes q).child side = some r)
          q p := by
      intro side inside
      cases isRoot : (child side).root? with
      | none =>
        cases isNil : child side with
        | nil => cases isNil ▸ inside
        | node _ _ _ => cases isNil ▸ isRoot
      | some next =>
        apply ReflTransGen.head ⟨side, (children side).1.trans isRoot⟩
        exact ih side (children side).2 isRoot inside
    rw [Shape.toList, mem_append, mem_cons] at member
    rcases member with inLeft | rfl | inRight
    · exact below .left inLeft
    · exact .refl
    · exact below .right inRight

def Present (tree : AvlTree κ δ) (p : NodePtr) : Prop :=
  ∃ root ∈ tree.root, ReflTransGen (fun q r => ∃ side, (tree.nodes q).child side = some r) root p

theorem Zip.present_iff (zip : Zip tree [] shape) : Present tree p ↔ p ∈ shape.toList := by
  have isRoot : tree.root = shape.root? := zip.above
  constructor
  · rintro ⟨root, isTop, reach⟩
    rw [isRoot] at isTop
    induction reach with
    | refl => exact root_mem_toList isTop
    | tail _ step member =>
      obtain ⟨side, isChild⟩ := step
      obtain ⟨path, balance, child, rfl⟩ := exists_plug member
      rw [(zip_plug.mp zip).node_child] at isChild
      have below := root_mem_toList isChild
      rw [toList_plug, Shape.toList]
      apply mem_append_left
      apply mem_append_right
      cases side with
      | left => exact mem_append_left _ below
      | right => exact mem_append_right _ (mem_cons_of_mem _ below)
  · intro member
    cases isTop : shape.root? with
    | none =>
      cases shape with
      | nil => cases member
      | node _ _ _ => cases isTop
    | some top =>
      exact ⟨top, isRoot.trans isTop, links_reach zip.links isTop member⟩

theorem Zip.father_on_path (zip : Zip tree path rest)
    (onPath : p ∈ path.map Frame.label ∨ p ∈ rest.root?)
    (isFather : (tree.nodes p).father = some father) :
    father ∈ path.map Frame.label := by
  have head : ∀ {outer : List (Frame NodePtr)},
      (tree.nodes p).At (place outer) → father ∈ outer.map Frame.label := by
    intro outer isAt
    have placed := isFather.symm.trans isAt.1
    cases outer with
    | nil => cases placed
    | cons frame outer =>
      cases placed
      exact mem_cons_self
  rcases onPath with above | isRoot
  · obtain ⟨frame, member, rfl⟩ := mem_map.mp above
    obtain ⟨inner, outer, rfl⟩ := append_of_mem member
    have upper := zip_cons.mp (zip_append.mp zip)
    rw [map_append]
    exact mem_append_right _ (mem_cons_of_mem _ (head upper.links.1))
  · exact head (zip.root_at isRoot)

theorem avlExtreme_plug
    (links : Links nodes (plug path (.node p balance (fork side .nil far))) spot)
    (along : ∀ frame ∈ path, frame.side = side)
    (isTop : (plug path (.node p balance (fork side .nil far))).root? =
      some top) (enough : path.length < fuel) :
    avlExtreme nodes side fuel top = some p := by
  obtain ⟨fuel, rfl⟩ : ∃ rest, fuel = rest + 1 := ⟨fuel - 1, by omega⟩
  -- the walk goes down, so the path is taken from its upper end
  induction path using List.reverseRecOn generalizing spot top fuel with
  | nil =>
    cases isTop
    have isChild := (links_fork.mp links).2.2.1
    rw [avlExtreme, isChild, fork_near]
    rfl
  | append_singleton path frame ih =>
    rw [plug_concat] at links isTop
    cases isTop
    obtain ⟨-, -, isChild, below, -⟩ := links_fork.mp links
    have isSide := along frame (by simp)
    obtain ⟨next, isNext⟩ := exists_root_plug path p balance (fork side .nil far)
    rw [length_append, length_singleton] at enough
    obtain ⟨fuel, rfl⟩ : ∃ rest, fuel = rest + 1 := ⟨fuel - 1, by omega⟩
    rw [avlExtreme, isChild, isSide, fork_near, isNext]
    apply ih below _ isNext _ (by omega)
    intro frame member
    exact along frame (mem_append_left _ member)

theorem avlEnd_zip (zip : Zip tree [] shape) (enough : shape.toList.length ≤ fuel) :
    avlEnd tree side fuel = some (side.end? shape.toList) := by
  have isRoot : tree.root = shape.root? := zip.above
  unfold avlEnd
  rw [isRoot]
  by_cases isEmpty : shape = .nil
  · rw [isEmpty]
    cases side <;> rfl
  · obtain ⟨path, p, balance, far, rfl, along⟩ := exists_end side isEmpty
    obtain ⟨top, isTop⟩ := exists_root_plug path p balance (fork side .nil far)
    have bound := length_le_plug path (.node p balance (fork side .nil far))
    have ends : avlExtreme tree.nodes side fuel top = some p := by
      apply avlExtreme_plug zip.links along isTop
      rw [Shape.toList, length_append, length_cons] at bound
      omega
    rw [isTop, end_plug along]
    dsimp only
    rw [ends, Option.map_some]

theorem avlClimb_path {node : AvlNode κ δ} (above : Above tree path hole)
    (isAt : node.At (place path)) (enough : path.length ≤ fuel) :
    avlClimb tree.nodes towards fuel node.side node.father =
      some (towards.other.end? (beside towards path)) := by
  induction path generalizing hole node fuel with
  | nil =>
    rw [isAt.1]
    cases towards <;> cases fuel <;> rfl
  | cons frame path ih =>
    obtain ⟨fuel, rfl⟩ : ∃ rest, fuel = rest + 1 := by
      rw [length_cons] at enough
      exact ⟨fuel - 1, by omega⟩
    obtain ⟨frameAt, -, -, -, rest⟩ := above
    have isFather : node.father = some frame.label := isAt.1
    have isSide : node.side = frame.side := isAt.2 _ rfl
    rw [isFather, isSide, avlClimb]
    by_cases onward : frame.side = towards
    · rw [if_pos onward, ih rest frameAt (Nat.le_of_succ_le_succ enough)]
      cases towards with
      | left => simp [beside, before, Frame.before, onward]
      | right => simp [beside, after, Frame.after, onward]
    · rw [if_neg onward]
      have isOther := Side.eq_other onward
      cases towards with
      | left =>
        simp [beside, before, Frame.before, isOther, Side.other, Side.end?]
      | right =>
        simp [beside, after, Frame.after, isOther, Side.other, Side.end?]

/-- What follows a node in the order of the tree. -/
def following (towards : Side) (path : List (Frame NodePtr))
    (child : Side → Shape NodePtr) : List NodePtr :=
  match towards with
  | .left => before path ++ (child .left).toList
  | .right => (child .right).toList ++ after path

theorem toList_following (path : List (Frame NodePtr)) (p : NodePtr)
    (balance : Int) (child : Side → Shape NodePtr) :
    (plug path (.node p balance child)).toList =
      following .left path child ++ p :: following .right path child := by
  rw [toList_plug, Shape.toList]
  simp [following]

theorem avlNeighbour_zip (zip : Zip tree path (.node p balance child))
    (enough : (plug path (.node p balance child)).toList.length ≤ fuel) :
    avlNeighbour tree towards fuel p =
      some (towards.other.end? (following towards path child)) := by
  have bound := length_le_plug path (.node p balance child)
  have isChild := (zip.links.2.2 towards).1
  have below := (zip.links.2.2 towards).2
  have inside : (child towards).toList.length < (Shape.node p balance child).toList.length := by
    rw [Shape.toList, length_append, length_cons]
    cases towards <;> omega
  unfold avlNeighbour
  rw [isChild]
  by_cases isEmpty : child towards = .nil
  · have climbs : avlClimb tree.nodes towards fuel (tree.nodes p).side
        (tree.nodes p).father = some (towards.other.end? (beside towards path)) := by
      apply avlClimb_path zip.above zip.links.1
      omega
    have nothing : following towards path child = beside towards path := by
      cases towards with
      | left => simp [following, isEmpty, Shape.toList, beside]
      | right => simp [following, isEmpty, Shape.toList, beside]
    rw [isEmpty, nothing]
    exact climbs
  · obtain ⟨inner, q, last, far, split, along⟩ := exists_end towards.other isEmpty
    obtain ⟨top, isTop⟩ := exists_root_plug inner q last (fork towards.other .nil far)
    have isEnd : towards.other.end? (child towards).toList = some q := by
      rw [split]
      exact end_plug along
    rw [split] at below inside ⊢
    have depth := length_le_plug inner (.node q last (fork towards.other .nil far))
    have ends : avlExtreme tree.nodes towards.other fuel top = some q := by
      apply avlExtreme_plug below along isTop
      omega
    rw [isTop]
    dsimp only
    rw [ends, Option.map_some]
    cases towards with
    | left =>
      change (child .left).toList.getLast? = some q at isEnd
      simp [following, Side.end?, Side.other, List.getLast?_append, isEnd]
    | right =>
      change (child .right).toList.head? = some q at isEnd
      simp [following, Side.end?, Side.other, List.head?_append, isEnd]

end

section

variable {κ δ : Type} [LinearOrder κ] {tree : AvlTree κ δ}

def AvlTree.key (tree : AvlTree κ δ) (p : NodePtr) : κ :=
  (tree.nodes p).key

theorem avlPlace_plug (last : Option NodePtr) (side : Side)
    (links : Links tree.nodes (plug path rest) spot) (leads : Leads tree.key target path)
    (stops : ∀ p ∈ rest.root?, tree.key p = target) (enough : path.length < fuel) :
    avlPlace tree.nodes target fuel last side (plug path rest).root? =
      some (rest.root?, (place path).elim last (some ·.1), (place path).elim side (·.2)) := by
  obtain ⟨fuel, rfl⟩ : ∃ less, fuel = less + 1 := ⟨fuel - 1, by omega⟩
  induction path using List.reverseRecOn generalizing spot last side fuel with
  | nil =>
    cases rest with
    | nil => rfl
    | node p balance child =>
      have isKey := stops p rfl
      unfold AvlTree.key at isKey
      simp only [plug, Shape.root?, avlPlace, isKey]
      rw [if_neg (lt_irrefl target), if_neg (lt_irrefl target)]
      rfl
  | append_singleton path frame ih =>
    rw [plug_concat] at links ⊢
    obtain ⟨-, -, isChild, below, -⟩ := links_fork.mp links
    have here := leads frame (by simp)
    rw [length_append, length_singleton] at enough
    obtain ⟨fuel, rfl⟩ : ∃ less, fuel = less + 1 := ⟨fuel - 1, by omega⟩
    have inner : avlPlace tree.nodes target (fuel + 1) (some frame.label)
        frame.side ((tree.nodes frame.label).child frame.side) =
          some (rest.root?,
            (place path).elim (some frame.label) (some ·.1),
            (place path).elim frame.side (·.2)) := by
      rw [isChild, fork_near]
      apply ih _ _ below _ fuel (by omega)
      intro frame member
      exact leads frame (mem_append_left _ member)
    have first : avlPlace tree.nodes target (fuel + 1 + 1) last side
        (some frame.label) =
          avlPlace tree.nodes target (fuel + 1) (some frame.label)
            frame.side ((tree.nodes frame.label).child frame.side) := by
      rw [avlPlace]
      unfold AvlTree.key at here
      cases isSide : frame.side with
      | left =>
        rw [isSide] at here
        rw [if_pos here]
      | right =>
        rw [isSide] at here
        rw [if_neg (lt_asymm here), if_pos here]
    change avlPlace tree.nodes target (fuel + 1 + 1) last side (some frame.label) = _
    rw [first, inner]
    cases path with
    | nil => rfl
    | cons lower path => rfl

theorem avlFindLoop_eq (nodes : NodePtr → AvlNode κ δ) (target : κ)
    (fuel : Nat) (last cur : Option NodePtr) (side : Side) :
    avlFindLoop nodes target fuel last cur =
      (avlPlace nodes target fuel last side cur).map fun (found, last, _) =>
        (found.isSome, found.or last) := by
  induction fuel generalizing last cur side with
  | zero => cases cur <;> rfl
  | succ fuel ih =>
    cases cur with
    | none => rfl
    | some cur =>
      rw [avlFindLoop, avlPlace]
      split
      · exact ih ..
      · split
        · exact ih ..
        · rfl

end

end Reverse.Decopus
