import Reverse.Decopus.Avl

/-!
# Linked nodes that form a tree

The nodes of `avl.h` represent a binary tree of node addresses: the links down,
the links to the fathers, the sides and the stored balances all agree with it.
A tree is seen as a subtree and the path above it, so that a change of some
links is a change of one subtree.
-/

namespace Reverse.Decopus

open Avl Function List

section

variable {κ δ : Type}

/-- The node has these links and this balance. -/
structure AvlNode.Same (left right : AvlNode κ δ) : Prop where
  father : left.father = right.father
  child : left.child = right.child
  balance : left.balance = right.balance
  side : left.side = right.side

/-- The node is at a place: it has the father and is on the side. -/
def AvlNode.At (node : AvlNode κ δ) (place : Option (NodePtr × Side)) : Prop :=
  node.father = place.map Prod.fst ∧ ∀ below ∈ place, node.side = below.2

/-- The nodes are linked as the tree says, at a place. -/
def Links (nodes : NodePtr → AvlNode κ δ) : Shape NodePtr → Option (NodePtr × Side) → Prop
  | .nil, _ => True
  | .node p balance child, place =>
    (nodes p).At place ∧ (nodes p).balance = balance ∧
      ∀ side, (nodes p).child side = (child side).root? ∧ Links nodes (child side) (some (p, side))

theorem links_fork :
    Links nodes (.node p balance (fork side near far)) spot ↔
      (nodes p).At spot ∧ (nodes p).balance = balance ∧
        (nodes p).child = fork side near.root? far.root? ∧
        Links nodes near (some (p, side)) ∧
        Links nodes far (some (p, side.other)) := by
  rw [Links]
  constructor
  · rintro ⟨isAt, isBalance, children⟩
    have nearLinks := children side
    have farLinks := children side.other
    rw [fork_near] at nearLinks
    rw [fork_far] at farLinks
    refine ⟨isAt, isBalance, ?_, nearLinks.2, farLinks.2⟩
    rw [← nearLinks.1, ← farLinks.1, fork_eta]
  · rintro ⟨isAt, isBalance, isChild, nearLinks, farLinks⟩
    refine ⟨isAt, isBalance, fun away => ?_⟩
    rw [isChild]
    by_cases same : away = side
    · rw [same, fork_near, fork_near]
      exact ⟨rfl, nearLinks⟩
    · rw [Side.eq_other same, fork_far, fork_far]
      exact ⟨rfl, farLinks⟩

def place (path : List (Frame NodePtr)) : Option (NodePtr × Side) :=
  path.head?.map fun frame => (frame.label, frame.side)

/-- The nodes of a path and of the subtrees beside it. -/
def labels : List (Frame NodePtr) → List NodePtr
  | [] => []
  | frame :: path => frame.label :: (frame.sibling.toList ++ labels path)

theorem label_mem_labels (member : frame ∈ path) : frame.label ∈ labels path := by
  induction path with
  | nil => cases member
  | cons lower path ih =>
    rcases mem_cons.mp member with rfl | inPath
    · exact mem_cons_self
    · exact mem_cons_of_mem _ (mem_append_right _ (ih inPath))

/-- The nodes of a path are linked, and the link at its lower end leads to the
given node. -/
def Above (tree : AvlTree κ δ) : List (Frame NodePtr) → Option NodePtr → Prop
  | [], hole => tree.root = hole
  | frame :: path, hole =>
    (tree.nodes frame.label).At (place path) ∧
      (tree.nodes frame.label).balance = frame.balance ∧
      (tree.nodes frame.label).child = fork frame.side hole frame.sibling.root? ∧
      Links tree.nodes frame.sibling (some (frame.label, frame.side.other)) ∧
      Above tree path (some frame.label)

/-- The tree is a subtree below a path. -/
structure Zip (tree : AvlTree κ δ) (path : List (Frame NodePtr))
    (subtree : Shape NodePtr) : Prop where
  above : Above tree path subtree.root?
  links : Links tree.nodes subtree (place path)
  nodup : (subtree.toList ++ labels path).Nodup

theorem plug_perm (path : List (Frame NodePtr)) (subtree : Shape NodePtr) :
    (plug path subtree).toList.Perm (subtree.toList ++ labels path) := by
  induction path generalizing subtree with
  | nil => simp [plug, labels]
  | cons frame path ih =>
    have beside : (frame.plug subtree).toList.Perm
        (subtree.toList ++ frame.label :: frame.sibling.toList) := by
      rw [Frame.plug, Shape.toList_fork]
      cases frame.side with
      | left => rfl
      | right =>
        apply perm_middle.trans
        apply List.Perm.trans _ perm_middle.symm
        exact perm_append_comm.cons _
    apply (ih _).trans
    have whole := beside.append_right (labels path)
    simpa [labels] using whole

theorem frame_perm (frame : Frame NodePtr) (path : List (Frame NodePtr)) (subtree : Shape NodePtr) :
    ((frame.plug subtree).toList ++ labels path).Perm (subtree.toList ++ labels (frame :: path)) :=
  (plug_perm path (frame.plug subtree)).symm.trans (plug_perm (frame :: path) subtree)

theorem zip_cons : Zip tree (frame :: path) subtree ↔ Zip tree path (frame.plug subtree) := by
  have nodup := (frame_perm frame path subtree).nodup_iff
  constructor
  · rintro ⟨⟨isAt, balance, child, sibling, above⟩, links, distinct⟩
    exact ⟨above, links_fork.mpr ⟨isAt, balance, child, links, sibling⟩, nodup.mpr distinct⟩
  · rintro ⟨above, links, distinct⟩
    obtain ⟨isAt, balance, child, near, far⟩ := links_fork.mp links
    exact ⟨⟨isAt, balance, child, far, above⟩, near, nodup.mp distinct⟩

theorem zip_append {inner : List (Frame NodePtr)} :
    Zip tree (inner ++ outer) subtree ↔ Zip tree outer (plug inner subtree) := by
  induction inner generalizing subtree with
  | nil => rfl
  | cons frame inner ih =>
    rw [cons_append, zip_cons, ih]
    rfl

theorem zip_plug : Zip tree [] (plug path subtree) ↔ Zip tree path subtree := by
  rw [← zip_append, append_nil]

theorem Zip.root_at (zip : Zip tree path subtree)
    (isRoot : subtree.root? = some p) : (tree.nodes p).At (place path) := by
  cases subtree with
  | nil => cases isRoot
  | node q balance child =>
    cases isRoot
    exact zip.links.1

theorem Zip.node_balance (zip : Zip tree path (.node p balance child)) :
    (tree.nodes p).balance = balance :=
  zip.links.2.1

theorem Zip.node_child (zip : Zip tree path (.node p balance child)) (side : Side) :
    (tree.nodes p).child side = (child side).root? :=
  (zip.links.2.2 side).1

theorem Links.congr {nodes later : NodePtr → AvlNode κ δ} (links : Links nodes subtree spot)
    (same : ∀ p ∈ subtree.toList, (later p).Same (nodes p)) :
    Links later subtree spot := by
  induction subtree generalizing spot with
  | nil => trivial
  | node p balance child ih =>
    obtain ⟨isAt, isBalance, children⟩ := links
    have here := same p (by simp [Shape.toList])
    refine ⟨?_, here.balance.trans isBalance, fun side => ⟨?_, ?_⟩⟩
    · unfold AvlNode.At
      rw [here.father, here.side]
      exact isAt
    · rw [here.child]
      exact (children side).1
    · apply ih side (children side).2
      intro q member
      apply same q
      cases side <;> simp [Shape.toList, member]

theorem Links.move {nodes later : NodePtr → AvlNode κ δ}
    (links : Links nodes subtree old) (nodup : subtree.toList.Nodup)
    (root : ∀ p ∈ subtree.root?, (later p).At new ∧
      (later p).balance = (nodes p).balance ∧
      (later p).child = (nodes p).child)
    (same : ∀ p ∈ subtree.toList, p ∉ subtree.root? → (later p).Same (nodes p)) :
    Links later subtree new := by
  cases subtree with
  | nil => trivial
  | node p balance child =>
    obtain ⟨-, isBalance, children⟩ := links
    obtain ⟨isAt, keepsBalance, keepsChild⟩ := root p rfl
    refine ⟨isAt, keepsBalance.trans isBalance, fun side => ⟨?_, ?_⟩⟩
    · rw [keepsChild]
      exact (children side).1
    · apply (children side).2.congr
      intro q member
      apply same q
      · cases side <;> simp [Shape.toList, member]
      · rintro isRoot
        cases isRoot
        rw [Shape.toList, nodup_middle, nodup_cons] at nodup
        apply nodup.1
        cases side <;> simp [member]

theorem Above.congr {tree later : AvlTree κ δ} (above : Above tree path hole)
    (root : later.root = tree.root)
    (same : ∀ p ∈ labels path, (later.nodes p).Same (tree.nodes p)) :
    Above later path hole := by
  induction path generalizing hole with
  | nil => exact root.trans above
  | cons frame path ih =>
    obtain ⟨isAt, isBalance, child, sibling, rest⟩ := above
    have here := same frame.label mem_cons_self
    refine ⟨?_, here.balance.trans isBalance, here.child.trans child, ?_, ?_⟩
    · unfold AvlNode.At
      rw [here.father, here.side]
      exact isAt
    · apply sibling.congr
      intro p member
      exact same p (mem_cons_of_mem _ (mem_append_left _ member))
    · apply ih rest
      intro p member
      exact same p (mem_cons_of_mem _ (mem_append_right _ member))

theorem AvlTree.modify_self (tree : AvlTree κ δ) (p : NodePtr)
    (change : AvlNode κ δ → AvlNode κ δ) :
    (tree.modify p change).nodes p = change (tree.nodes p) :=
  update_self ..

theorem AvlTree.modify_ne (tree : AvlTree κ δ)
    (change : AvlNode κ δ → AvlNode κ δ) (differ : q ≠ p) :
    (tree.modify p change).nodes q = tree.nodes q :=
  update_of_ne differ ..

theorem AvlNode.Same.refl (node : AvlNode κ δ) : node.Same node :=
  ⟨rfl, rfl, rfl, rfl⟩

theorem AvlNode.Same.of_eq {left right : AvlNode κ δ} (equal : left = right) : left.Same right :=
  equal ▸ .refl _

theorem Above.modify (above : Above tree path hole)
    (outside : p ∉ labels path) (change : AvlNode κ δ → AvlNode κ δ) :
    Above (tree.modify p change) path hole := by
  refine above.congr (show (tree.modify p change).root = _ from rfl) ?_
  intro q member
  apply AvlNode.Same.of_eq
  apply AvlTree.modify_ne
  rintro rfl
  exact outside member

theorem Links.modify {tree : AvlTree κ δ}
    (links : Links tree.nodes subtree spot) (outside : p ∉ subtree.toList)
    (change : AvlNode κ δ → AvlNode κ δ) :
    Links (tree.modify p change).nodes subtree spot := by
  apply links.congr
  intro q member
  apply AvlNode.Same.of_eq
  apply AvlTree.modify_ne
  rintro rfl
  exact outside member

theorem AvlTree.hang_some (tree : AvlTree κ δ) (father : NodePtr)
    (side : Side) (new : Option NodePtr) :
    tree.hang (some father) side new = tree.setChild father side new := rfl

theorem AvlTree.adopt_some (tree : AvlTree κ δ) (node : NodePtr)
    (father : Option NodePtr) (side : Side) :
    tree.adopt (some node) father side = tree.setFather node father side := rfl

theorem update_side (child : Side → β) (side : Side) (new : β) :
    update child side new = fork side new (child side.other) := by
  funext away
  by_cases same : away = side
  · rw [same, update_self, fork_near]
  · rw [update_of_ne same, Side.eq_other same, fork_far]

theorem Above.hang (above : Above tree path hole) (nodup : (labels path).Nodup) {node : AvlNode κ δ}
    (isAt : node.At (place path)) (new : Option NodePtr) :
    Above (tree.hang node.father node.side new) path new := by
  cases path with
  | nil =>
    rw [isAt.1]
    rfl
  | cons frame path =>
    obtain ⟨frameAt, isBalance, child, sibling, rest⟩ := above
    have isFather : node.father = some frame.label := isAt.1
    have isSide : node.side = frame.side := isAt.2 _ rfl
    rw [labels, nodup_cons, mem_append, not_or] at nodup
    rw [isFather, isSide, AvlTree.hang_some, AvlTree.setChild, Above, AvlTree.modify_self]
    refine ⟨frameAt, isBalance, ?_, sibling.modify nodup.1.1 _, rest.modify nodup.1.2 _⟩
    dsimp only
    rw [child, update_side, fork_far]

theorem AvlTree.hang_nodes (tree : AvlTree κ δ) (differ : p ∉ father) :
    (tree.hang father side new).nodes p = tree.nodes p := by
  cases father with
  | none => rfl
  | some father =>
    rw [AvlTree.hang_some]
    apply AvlTree.modify_ne
    rintro rfl
    exact differ rfl

theorem AvlTree.adopt_nodes (tree : AvlTree κ δ) (differ : p ∉ node) :
    (tree.adopt node father side).nodes p = tree.nodes p := by
  cases node with
  | none => rfl
  | some node =>
    rw [AvlTree.adopt_some]
    apply AvlTree.modify_ne
    rintro rfl
    exact differ rfl

open AvlTree (modify_ne modify_self setChild setFather hang_nodes adopt_some adopt_nodes)

theorem Above.adopt (above : Above tree path hole)
    (outside : ∀ p ∈ node, p ∉ labels path) (father : Option NodePtr)
    (side : Side) : Above (tree.adopt node father side) path hole := by
  cases node with
  | none => exact above
  | some node =>
    rw [adopt_some]
    exact above.modify (outside node rfl) _

theorem father_mem_labels {node : AvlNode κ δ} (isAt : node.At (place path))
    (isFather : p ∈ node.father) :
    p ∈ labels path := by
  rw [isAt.1] at isFather
  cases path with
  | nil => cases isFather
  | cons frame path =>
    cases isFather
    exact mem_cons_self

/-- Only links and balances have changed. -/
structure Relinked (tree later : AvlTree κ δ) : Prop where
  key : ∀ p, (later.nodes p).key = (tree.nodes p).key
  data : ∀ p, (later.nodes p).data = (tree.nodes p).data
  free : later.free = tree.free
  nbnode : later.nbnode = tree.nbnode

theorem Relinked.refl (tree : AvlTree κ δ) : Relinked tree tree :=
  ⟨fun _ => rfl, fun _ => rfl, rfl, rfl⟩

theorem Relinked.trans (left : Relinked first second) (right : Relinked second third) :
    Relinked first third :=
  ⟨fun p => (right.key p).trans (left.key p),
    fun p => (right.data p).trans (left.data p),
    right.free.trans left.free, right.nbnode.trans left.nbnode⟩

section

variable (tree : AvlTree κ δ) (p : NodePtr)

include tree p

theorem Relinked.modify (key : ∀ node, (change node).key = node.key)
    (data : ∀ node, (change node).data = node.data) :
    Relinked tree (tree.modify p change) := by
  refine ⟨fun q => ?_, fun q => ?_, rfl, rfl⟩
  · by_cases same : q = p
    · rw [same, modify_self, key]
    · rw [modify_ne _ _ same]
  · by_cases same : q = p
    · rw [same, modify_self, data]
    · rw [modify_ne _ _ same]

theorem Relinked.setChild (side : Side) (child : Option NodePtr) :
    Relinked tree (tree.setChild p side child) := by
  apply Relinked.modify
  · exact fun _ => rfl
  · exact fun _ => rfl

theorem Relinked.setFather (father : Option NodePtr) (side : Side) :
    Relinked tree (tree.setFather p father side) := by
  apply Relinked.modify
  · exact fun _ => rfl
  · exact fun _ => rfl

theorem Relinked.setBalance (balance : Int) : Relinked tree (tree.setBalance p balance) := by
  apply Relinked.modify
  · exact fun _ => rfl
  · exact fun _ => rfl

theorem Relinked.addBalance (change : Int) : Relinked tree (tree.addBalance p change) := by
  apply Relinked.modify
  · exact fun _ => rfl
  · exact fun _ => rfl

end

theorem Relinked.hang (tree : AvlTree κ δ) (father : Option NodePtr)
    (side : Side) (new : Option NodePtr) :
    Relinked tree (tree.hang father side new) := by
  cases father with
  | none => exact ⟨fun _ => rfl, fun _ => rfl, rfl, rfl⟩
  | some father => exact .setChild ..

theorem Relinked.adopt (tree : AvlTree κ δ) (node father : Option NodePtr)
    (side : Side) : Relinked tree (tree.adopt node father side) := by
  cases node with
  | none => exact .refl _
  | some node => exact .setFather ..

theorem toList_fork_perm (side : Side) (p : NodePtr) (balance : Int) (near far : Shape NodePtr) :
    (Shape.node p balance (fork side near far)).toList.Perm (p :: (near.toList ++ far.toList)) := by
  rw [Shape.toList_fork]
  cases side with
  | left => exact perm_middle
  | right =>
    apply perm_middle.trans
    exact perm_append_comm.cons _

/-- What `AVL_rot` does: the nodes `n` and `m` change places and the subtree
between them, whose root is `moved`, goes from `m` to `n`. -/
def rotated (tree : AvlTree κ δ) (n m : NodePtr) (moved : Option NodePtr)
    (heavy : Side) : AvlTree κ δ :=
  let it := tree.nodes n
  (((((tree.setFather m it.father it.side).hang it.father it.side
    (some m)).setChild n heavy moved).adopt moved (some n) heavy).setChild m
      heavy.other (some n)).setFather n (some m) heavy.other

section

variable {tree : AvlTree κ δ} {n m : NodePtr} {moved : Option NodePtr} {heavy : Side}

theorem avlRot_eq (isHigh : (tree.nodes n).child heavy = some m)
    (isMoved : (tree.nodes m).child heavy.other = moved) (apart : m ∉ (tree.nodes n).father) :
    avlRot tree n heavy.other = some (rotated tree n m moved heavy, m) := by
  unfold avlRot rotated
  simp only [Side.other_other, isHigh, Option.map_some]
  have first : (tree.setFather m (tree.nodes n).father
      (tree.nodes n).side).nodes m =
        { tree.nodes m with
          father := (tree.nodes n).father, side := (tree.nodes n).side } :=
    modify_self ..
  simp only [first]
  rw [hang_nodes _ apart, first]
  dsimp only
  rw [isMoved]
  have child : ∀ later : AvlTree κ δ,
      ((later.setChild n heavy moved).nodes n).child heavy = moved := by
    intro later
    rw [setChild, modify_self]
    exact update_self ..
  rw [child]

theorem rotated_nodes (notN : p ≠ n) (notM : p ≠ m) (notMoved : p ∉ moved)
    (notFather : p ∉ (tree.nodes n).father) :
    (rotated tree n m moved heavy).nodes p = tree.nodes p := by
  unfold rotated
  dsimp only
  rw [setFather, modify_ne _ _ notN, setChild,
    modify_ne _ _ notM, adopt_nodes _ notMoved,
    setChild, modify_ne _ _ notN,
    hang_nodes _ notFather, setFather,
    modify_ne _ _ notM]

theorem rotated_lower (differ : n ≠ m) (notMoved : n ∉ moved)
    (notFather : n ∉ (tree.nodes n).father) :
    (rotated tree n m moved heavy).nodes n =
      { tree.nodes n with
        father := some m, side := heavy.other
        child := update (tree.nodes n).child heavy moved } := by
  unfold rotated
  dsimp only
  rw [setFather, modify_self, setChild,
    modify_ne _ _ differ, adopt_nodes _ notMoved,
    setChild, modify_self, hang_nodes _ notFather,
    setFather, modify_ne _ _ differ]

theorem rotated_upper (differ : n ≠ m) (notMoved : m ∉ moved)
    (notFather : m ∉ (tree.nodes n).father) :
    (rotated tree n m moved heavy).nodes m =
      { tree.nodes m with
        father := (tree.nodes n).father, side := (tree.nodes n).side
        child := update (tree.nodes m).child heavy.other (some n) } := by
  unfold rotated
  dsimp only
  rw [setFather, modify_ne _ _ differ.symm,
    setChild, modify_self, adopt_nodes _ notMoved,
    setChild, modify_ne _ _ differ.symm,
    hang_nodes _ notFather, setFather, modify_self]

theorem rotated_moved (notN : p ≠ n) (notM : p ≠ m) (notFather : p ∉ (tree.nodes n).father) :
    (rotated tree n m (some p) heavy).nodes p =
      { tree.nodes p with father := some n, side := heavy } := by
  unfold rotated
  dsimp only
  rw [setFather, modify_ne _ _ notN, setChild,
    modify_ne _ _ notM, adopt_some, setFather,
    modify_self, setChild, modify_ne _ _ notN,
    hang_nodes _ notFather, setFather,
    modify_ne _ _ notM]

theorem rotated_relinked : Relinked tree (rotated tree n m moved heavy) := by
  unfold rotated
  dsimp only
  exact (Relinked.setFather ..).trans <| (Relinked.hang ..).trans <|
    (Relinked.setChild ..).trans <| (Relinked.adopt ..).trans <|
    (Relinked.setChild ..).trans (Relinked.setFather ..)

theorem rotated_above (above : Above tree path hole)
    (nodup : (labels path).Nodup) (isAt : (tree.nodes n).At (place path))
    (nOutside : n ∉ labels path) (mOutside : m ∉ labels path)
    (movedOutside : ∀ p ∈ moved, p ∉ labels path) :
    Above (rotated tree n m moved heavy) path (some m) := by
  unfold rotated
  have start := above.modify mOutside fun it =>
    { it with
      father := (tree.nodes n).father, side := (tree.nodes n).side }
  have hung := start.hang nodup isAt (some m)
  exact (((hung.modify nOutside _).adopt movedOutside _ _).modify mOutside _).modify nOutside _

end

theorem root_mem_toList {shape : Shape NodePtr} (isRoot : p ∈ shape.root?) : p ∈ shape.toList := by
  cases shape with
  | nil => cases isRoot
  | node q balance child =>
    cases isRoot
    exact mem_append_right _ mem_cons_self

/-- A rotation of the linked nodes is a rotation of the tree. -/
theorem avlRot_zip {inner : Shape NodePtr} (zip : Zip tree path (.node n balance
      (fork heavy (.node m upper (fork heavy outer inner)) far))) :
    ∃ later, avlRot tree n heavy.other = some (later, m) ∧
      Zip later path (.node m upper (fork heavy outer (.node n balance (fork heavy inner far)))) ∧
      Relinked tree later := by
  obtain ⟨above, links, nodup⟩ := zip
  obtain ⟨isAt, isBalance, isChild, highLinks, farLinks⟩ := links_fork.mp links
  obtain ⟨highAt, highBalance, highChild, outerLinks, innerLinks⟩ := links_fork.mp highLinks
  have isHigh : (tree.nodes n).child heavy = some m := by
    rw [isChild, fork_near]
    rfl
  have isMoved : (tree.nodes m).child heavy.other = inner.root? := by
    rw [highChild, fork_far]
  have order : ((Shape.node n balance (fork heavy (.node m upper
      (fork heavy outer inner)) far)).toList ++ labels path).Perm
        (n :: m :: (outer.toList ++ (inner.toList ++ (far.toList ++ labels path)))) := by
    have upperOrder := toList_fork_perm heavy m upper outer inner
    have whole := (toList_fork_perm heavy n balance _ far).trans
      ((upperOrder.append_right far.toList).cons n)
    simpa using whole.append_right (labels path)
  have lastOrder : ((Shape.node m upper (fork heavy outer (.node n balance
      (fork heavy inner far)))).toList ++ labels path).Perm
        (n :: m :: (outer.toList ++ (inner.toList ++ (far.toList ++ labels path)))) := by
    have lowerOrder := toList_fork_perm heavy n balance inner far
    have whole := (toList_fork_perm heavy m upper outer _).trans
      (((lowerOrder.append_left outer.toList).trans perm_middle).cons m)
    simpa using (whole.trans (.swap ..)).append_right (labels path)
  have distinct := order.nodup_iff.mp nodup
  refine ⟨rotated tree n m inner.root? heavy, ?_,
    ⟨?_, ?_, lastOrder.nodup_iff.mpr distinct⟩, rotated_relinked⟩
  all_goals
    simp only [nodup_cons, mem_cons, mem_append, not_or, nodup_append] at distinct
    obtain ⟨⟨differ, nOuter, nInner, nFar, nPath⟩,
      ⟨mOuter, mInner, mFar, mPath⟩, -, ⟨innerNodup, ⟨-, pathNodup,
        farPath⟩, innerApart⟩, outerApart⟩ := distinct
  · apply avlRot_eq isHigh isMoved
    intro isFather
    exact mPath (father_mem_labels isAt isFather)
  · apply rotated_above above pathNodup isAt nPath mPath
    intro p isRoot inPath
    exact innerApart p (root_mem_toList isRoot) p (.inr inPath) rfl
  · have same : ∀ p, p ≠ n → p ≠ m → p ∉ inner.root? → p ∉ labels path →
        ((rotated tree n m inner.root? heavy).nodes p).Same (tree.nodes p) := by
      intro p notN notM notRoot notPath
      apply AvlNode.Same.of_eq
      apply rotated_nodes notN notM notRoot
      intro isFather
      exact notPath (father_mem_labels isAt isFather)
    rw [links_fork, links_fork, rotated_upper differ
      (fun isRoot => mInner (root_mem_toList isRoot))
      (fun isFather => mPath (father_mem_labels isAt isFather)),
      rotated_lower differ
      (fun isRoot => nInner (root_mem_toList isRoot))
      (fun isFather => nPath (father_mem_labels isAt isFather)),
      update_side, update_side, isChild, highChild, Side.other_other,
      fork_near, fork_far, fork_other]
    refine ⟨isAt, highBalance, rfl, ?_, ⟨rfl, fun _ given => ?_⟩, isBalance, rfl, ?_, ?_⟩
    · apply outerLinks.congr
      intro p member
      apply same p
      · rintro rfl
        exact nOuter member
      · rintro rfl
        exact mOuter member
      · intro isRoot
        exact outerApart p member p (.inl (root_mem_toList isRoot)) rfl
      · intro inPath
        exact outerApart p member p (.inr (.inr inPath)) rfl
    · cases given
      rfl
    · have moved : ∀ p ∈ inner.toList, p ≠ n ∧ p ≠ m ∧ p ∉ labels path := by
        intro p member
        refine ⟨?_, ?_, ?_⟩
        · rintro rfl
          exact nInner member
        · rintro rfl
          exact mInner member
        · intro inPath
          exact innerApart p member p (.inr inPath) rfl
      apply innerLinks.move innerNodup
      · intro p isRoot
        obtain ⟨notN, notM, notPath⟩ := moved p (root_mem_toList isRoot)
        rw [Option.mem_def.mp isRoot, rotated_moved notN notM
          (fun isFather => notPath (father_mem_labels isAt isFather))]
        refine ⟨⟨rfl, fun _ given => ?_⟩, rfl, rfl⟩
        cases given
        rfl
      · intro p member notRoot
        obtain ⟨notN, notM, notPath⟩ := moved p member
        exact same p notN notM notRoot notPath
    · apply farLinks.congr
      intro p member
      apply same p
      · rintro rfl
        exact nFar member
      · rintro rfl
        exact mFar member
      · intro isRoot
        exact innerApart p (root_mem_toList isRoot) p (.inl member) rfl
      · intro inPath
        exact farPath p member p inPath rfl

end

end Reverse.Decopus
