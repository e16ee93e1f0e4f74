import Reverse.Decopus.AvlWalk
import Reverse.Decopus.AvlRepair

/-!
# Adding and removing nodes

`AVL_add` hangs a new leaf at the place of its key and `AVL_rem` takes a node
out, after its neighbour in the higher subtree has taken its place.  Both repair
the tree from there upwards.
-/

namespace Reverse.Decopus

open Avl AvlTree List Option

section

variable {κ δ : Type} {tree : AvlTree κ δ} {path : List (Frame NodePtr)}

theorem Zip.congr (zip : Zip tree path subtree) (root : later.root = tree.root)
    (same : ∀ p ∈ subtree.toList ++ labels path,
      (later.nodes p).Same (tree.nodes p)) : Zip later path subtree := by
  obtain ⟨above, links, nodup⟩ := zip
  refine ⟨above.congr root ?_, links.congr ?_, nodup⟩
  · intro p member
    exact same p (mem_append_right _ member)
  · intro p member
    exact same p (mem_append_left _ member)

theorem Zip.modify (zip : Zip tree path subtree) (outside : p ∉ subtree.toList ++ labels path)
    (change : AvlNode κ δ → AvlNode κ δ) :
    Zip (tree.modify p change) path subtree := by
  refine zip.congr (show (tree.modify p change).root = _ from rfl) ?_
  intro q member
  apply AvlNode.Same.of_eq
  apply modify_ne
  rintro rfl
  exact outside member

theorem Zip.delete (zip : Zip tree path subtree) (outside : p ∉ subtree.toList ++ labels path) :
    Zip (avlNodeDelete tree p) path subtree := by
  have changed := zip.modify outside fun it =>
    { it with father := tree.free.head? }
  exact changed.congr rfl fun _ _ => .refl _

theorem Relinked.delete (p : NodePtr) (relinked : Relinked tree later) :
    Relinked { tree with free := p :: tree.free } (avlNodeDelete later p) := by
  have changed : Relinked later (later.modify p fun it =>
      { it with father := later.free.head? }) := by
    apply Relinked.modify
    · exact fun _ => rfl
    · exact fun _ => rfl
  have both := relinked.trans changed
  refine ⟨both.key, both.data, ?_, both.nbnode⟩
  exact congrArg (p :: ·) relinked.free

theorem avlNodeCreate_root (tree : AvlTree κ δ) : (avlNodeCreate tree).2.root = tree.root := by
  unfold avlNodeCreate
  split <;> rfl

theorem avlNodeCreate_nodes (tree : AvlTree κ δ) : (avlNodeCreate tree).2.nodes = tree.nodes := by
  unfold avlNodeCreate
  split <;> rfl

/-- The node was taken from the pool and has got its key.  The rest is as
before. -/
structure Added (tree later : AvlTree κ δ) (target : κ) : Prop where
  key : later.key =
    Function.update tree.key (avlNodeCreate tree).1 target
  data : ∀ p, (later.nodes p).data = (tree.nodes p).data
  free : later.free = (avlNodeCreate tree).2.free
  nbnode : later.nbnode = (avlNodeCreate tree).2.nbnode

theorem Added.relinked (added : Added tree middle target) (relinked : Relinked middle later) :
    Added tree later target :=
  ⟨(funext relinked.key).trans added.key,
    fun p => (relinked.data p).trans (added.data p),
    relinked.free.trans added.free, relinked.nbnode.trans added.nbnode⟩

theorem added_modify (tree : AvlTree κ δ) (key : ∀ node, (change node).key = target)
    (data : ∀ node, (change node).data = node.data) :
    Added tree ((avlNodeCreate tree).2.modify (avlNodeCreate tree).1 change)
      target := by
  refine ⟨funext fun p => ?_, fun p => ?_, rfl, rfl⟩
  · unfold AvlTree.key
    by_cases same : p = (avlNodeCreate tree).1
    · rw [same, modify_self, Function.update_self, key]
    · rw [modify_ne _ _ same, Function.update_of_ne same, avlNodeCreate_nodes]
  · by_cases same : p = (avlNodeCreate tree).1
    · rw [same, modify_self, data, avlNodeCreate_nodes]
    · rw [modify_ne _ _ same, avlNodeCreate_nodes]

def leaf (p : NodePtr) : Shape NodePtr :=
  .node p 0 fun _ => .nil

section

variable (zip : Zip tree path .nil) (fresh : p ∉ labels path)
  (isAt : (tree.nodes p).At (place path))
  (isBalance : (tree.nodes p).balance = 0)
  (isChild : (tree.nodes p).child = fun _ => none)

include zip fresh isAt isBalance isChild

theorem Zip.hang :
    Zip (tree.hang (tree.nodes p).father (tree.nodes p).side (some p)) path (leaf p) := by
  have nodup : (labels path).Nodup := zip.nodup
  have apart : p ∉ (tree.nodes p).father := fun isFather =>
    fresh (father_mem_labels isAt isFather)
  refine ⟨zip.above.hang nodup isAt (some p), ?_, nodup.cons fresh⟩
  rw [leaf, Links, AvlTree.hang_nodes _ apart]
  refine ⟨isAt, isBalance, fun side => ⟨?_, trivial⟩⟩
  rw [isChild]
  rfl

theorem avlInsert_zip (fits : Fits path 0) (enough : path.length ≤ fuel) :
    ∃ later, avlInsert tree fuel p (tree.nodes p).father (tree.nodes p).side = some later ∧
      Zip later [] (ascend true 1 path (leaf p)) ∧ Relinked tree later := by
  have hung := zip.hang fresh isAt isBalance isChild
  cases path with
  | nil =>
    have isFather : (tree.nodes p).father = none := isAt.1
    rw [isFather] at hung ⊢
    exact ⟨_, rfl, hung, .hang tree none (tree.nodes p).side (some p)⟩
  | cons frame path =>
    have isFather : (tree.nodes p).father = some frame.label := isAt.1
    have isSide : (tree.nodes p).side = frame.side := isAt.2 _ rfl
    have shifted := hung.shift 1
    rw [isFather, isSide, Int.one_mul, AvlTree.hang_some] at shifted
    have single : (leaf p).Balanced := ⟨rfl, by decide, by decide, fun _ => trivial⟩
    have grown : (1 : Int) = if true then 1 else -1 := rfl
    obtain ⟨later, performs, done, relinked⟩ :=
      avlBalance_ascend shifted single rfl grown fits enough
    rw [isFather, isSide]
    exact ⟨later, performs, done, ((Relinked.setChild ..).trans (.addBalance ..)).trans relinked⟩

end

theorem Zip.unhook (zip : Zip tree path (.node p balance (fork side .nil subtree))) :
    Zip ((tree.hang (tree.nodes p).father (tree.nodes p).side
        subtree.root?).adopt subtree.root? (tree.nodes p).father
          (tree.nodes p).side) path subtree := by
  obtain ⟨above, links, nodup⟩ := zip
  obtain ⟨isAt, -, -, -, below⟩ := links_fork.mp links
  have order := (toList_fork_perm side p balance .nil subtree).append_right (labels path)
  have distinct := order.nodup_iff.mp nodup
  simp only [Shape.toList, nil_append, cons_append, nodup_cons,
    nodup_append, mem_append, not_or] at distinct
  obtain ⟨⟨notBelow, notPath⟩, belowNodup, pathNodup, apart⟩ := distinct
  have notFather : ∀ q ∈ subtree.toList, q ∉ (tree.nodes p).father := by
    intro q member isFather
    exact apart q member q (father_mem_labels isAt isFather) rfl
  refine ⟨?_, ?_, ?_⟩
  · apply Above.adopt
    · exact above.hang pathNodup isAt _
    · intro q isRoot inPath
      exact apart q (root_mem_toList isRoot) q inPath rfl
  · apply below.move belowNodup
    · intro q isRoot
      rw [mem_def.mp isRoot, AvlTree.adopt_some, setFather,
        modify_self,
        AvlTree.hang_nodes _ (notFather q (root_mem_toList isRoot))]
      exact ⟨isAt, rfl, rfl⟩
    · intro q member notRoot
      apply AvlNode.Same.of_eq
      rw [AvlTree.adopt_nodes _ notRoot, AvlTree.hang_nodes _ (notFather q member)]
  · exact nodup_append.mpr ⟨belowNodup, pathNodup, apart⟩

theorem AvlTree.foster_some (tree : AvlTree κ δ) (node father : NodePtr) :
    tree.foster (some node) father =
      tree.modify node fun it => { it with father := some father } := rfl

theorem AvlTree.foster_nodes (tree : AvlTree κ δ) (differ : p ∉ node) :
    (tree.foster node father).nodes p = tree.nodes p := by
  cases node with
  | none => rfl
  | some node =>
    rw [AvlTree.foster_some]
    apply modify_ne
    rintro rfl
    exact differ rfl

theorem Relinked.foster (tree : AvlTree κ δ) (node : Option NodePtr)
    (father : NodePtr) : Relinked tree (tree.foster node father) := by
  cases node with
  | none => exact .refl _
  | some node =>
    rw [AvlTree.foster_some]
    apply Relinked.modify
    · exact fun _ => rfl
    · exact fun _ => rfl

theorem Links.foster (links : Links tree.nodes subtree (some (father, side)))
    (nodup : subtree.toList.Nodup) :
    Links (tree.foster subtree.root? new).nodes subtree (some (new, side)) := by
  apply links.move nodup
  · intro p isRoot
    have isSide : (tree.nodes p).side = side := by
      cases subtree with
      | nil => cases isRoot
      | node q balance child =>
        cases isRoot
        exact links.1.2 _ rfl
    have changed : (tree.foster subtree.root? new).nodes p =
        { tree.nodes p with father := some new } := by
      rw [mem_def.mp isRoot, AvlTree.foster_some]
      exact modify_self ..
    rw [changed]
    refine ⟨⟨rfl, fun _ given => ?_⟩, rfl, rfl⟩
    cases given
    exact isSide
  · intro p member notRoot
    exact .of_eq (AvlTree.foster_nodes _ notRoot)

theorem Links.foster_apart (links : Links tree.nodes subtree spot)
    (apart : ∀ p ∈ node, p ∉ subtree.toList) :
    Links (tree.foster node father).nodes subtree spot := by
  apply links.congr
  intro p member
  apply AvlNode.Same.of_eq
  apply AvlTree.foster_nodes
  intro isNode
  exact apart p isNode member

theorem Above.foster (above : Above tree path hole) (outside : ∀ p ∈ node, p ∉ labels path) :
    Above (tree.foster node father) path hole := by
  cases node with
  | none => exact above
  | some node =>
    rw [AvlTree.foster_some]
    exact above.modify (outside node rfl) _

theorem Links.hang (links : Links tree.nodes subtree spot)
    (apart : ∀ p ∈ father, p ∉ subtree.toList) :
    Links (tree.hang father side new).nodes subtree spot := by
  apply links.congr
  intro p member
  apply AvlNode.Same.of_eq
  apply AvlTree.hang_nodes
  intro isFather
  exact apart p isFather member

/-- What `avlReplace` does when the two nodes are different. -/
def replaced (tree : AvlTree κ δ) (n repl : NodePtr) (left right : Option NodePtr) : AvlTree κ δ :=
  let it := tree.nodes n
  (((tree.modify repl fun old =>
    { old with
      father := it.father, child := it.child, balance := it.balance
      side := it.side }).foster left repl).foster right repl).hang it.father it.side (some repl)

theorem avlReplace_eq (isLeft : (tree.nodes n).child .left = left)
    (isRight : (tree.nodes n).child .right = right) (differ : n ≠ repl)
    (apart : ∀ side, n ∉ (tree.nodes n).child side ∧ repl ∉ (tree.nodes n).child side) :
    avlReplace tree n repl = replaced tree n repl left right := by
  rw [← isLeft, ← isRight]
  unfold avlReplace replaced
  simp only [modify_self]
  rw [AvlTree.foster_nodes _ (apart .left).2, modify_self]
  dsimp only
  rw [AvlTree.foster_nodes _ (apart .right).1,
    AvlTree.foster_nodes _ (apart .left).1,
    modify_ne _ _ differ]

theorem avlReplace_relinked (tree : AvlTree κ δ) (n repl : NodePtr) :
    Relinked tree (avlReplace tree n repl) := by
  unfold avlReplace
  dsimp only
  refine .trans ?_ (Relinked.hang ..)
  refine .trans ?_ (Relinked.foster ..)
  refine .trans ?_ (Relinked.foster ..)
  apply Relinked.modify
  · exact fun _ => rfl
  · exact fun _ => rfl

section

variable (zip : Zip tree path (.node n balance child))
  (fresh : repl ∉ (Shape.node n balance child).toList ++ labels path)

include zip fresh

theorem Zip.replace : Zip (avlReplace tree n repl) path (.node repl balance child) := by
  obtain ⟨above, links, nodup⟩ := zip
  rw [← fork_eta .left child] at links nodup fresh ⊢
  obtain ⟨isAt, isBalance, isChild, leftLinks, rightLinks⟩ := links_fork.mp links
  generalize child .left = left at *
  generalize child Side.left.other = right at *
  have order := (toList_fork_perm .left n balance left right).append_right (labels path)
  have newOrder := (toList_fork_perm .left repl balance left right).append_right (labels path)
  have distinct := order.nodup_iff.mp nodup
  rw [order.mem_iff] at fresh
  simp only [cons_append, append_assoc, nodup_cons,
    nodup_append, mem_append, mem_cons, not_or] at distinct fresh
  obtain ⟨⟨nLeft, nRight, nPath⟩, leftNodup, ⟨rightNodup, pathNodup,
    rightPath⟩, leftApart⟩ := distinct
  obtain ⟨differ, newLeft, newRight, newPath⟩ := fresh
  have isLeft : (tree.nodes n).child .left = left.root? := by
    rw [isChild]
    rfl
  have isRight : (tree.nodes n).child .right = right.root? := by
    rw [isChild]
    rfl
  have onPath : ∀ p ∈ (tree.nodes n).father, p ∈ labels path :=
    fun _ isFather => father_mem_labels isAt isFather
  rw [avlReplace_eq isLeft isRight (Ne.symm differ)]
  · refine ⟨?_, ?_, ?_⟩
    · apply Above.hang _ pathNodup isAt
      · exact some n
      · apply Above.foster
        · apply Above.foster
          · exact above.modify newPath _
          · intro p isRoot inPath
            exact leftApart p (root_mem_toList isRoot) p (.inr inPath) rfl
        · intro p isRoot inPath
          exact rightPath p (root_mem_toList isRoot) p inPath rfl
    · rw [links_fork]
      unfold replaced
      dsimp only
      rw [AvlTree.hang_nodes _ (fun isFather => newPath (onPath _ isFather)),
        AvlTree.foster_nodes _ (fun isRoot => newRight
          (root_mem_toList isRoot)),
        AvlTree.foster_nodes _ (fun isRoot => newLeft
          (root_mem_toList isRoot)), modify_self]
      refine ⟨isAt, isBalance, isChild, ?_, ?_⟩
      · apply Links.hang
        · apply Links.foster_apart
          · exact (leftLinks.modify newLeft _).foster leftNodup
          · intro p isRoot member
            exact leftApart p member p (.inl (root_mem_toList isRoot)) rfl
        · intro p isFather member
          exact leftApart p member p (.inr (onPath p isFather)) rfl
      · apply Links.hang
        · apply Links.foster
          · apply Links.foster_apart
            · exact rightLinks.modify newRight _
            · intro p isRoot member
              exact leftApart p (root_mem_toList isRoot) p (.inl member) rfl
          · exact rightNodup
        · intro p isFather member
          exact rightPath p member p (onPath p isFather) rfl
    · rw [newOrder.nodup_iff]
      have others := (nodup_cons.mp (order.nodup_iff.mp nodup)).2
      have notIn : repl ∉ left.toList ++ right.toList ++ labels path := by
        simp only [mem_append, not_or]
        exact ⟨⟨newLeft, newRight⟩, newPath⟩
      exact others.cons notIn
  · intro side
    cases side with
    | left =>
      rw [isLeft]
      exact ⟨fun isRoot => nLeft (root_mem_toList isRoot),
        fun isRoot => newLeft (root_mem_toList isRoot)⟩
    | right =>
      rw [isRight]
      exact ⟨fun isRoot => nRight (root_mem_toList isRoot),
        fun isRoot => newRight (root_mem_toList isRoot)⟩

theorem replaced_apart : n ∉ (Shape.node repl balance child).toList ++ labels path := by
  have differ : n ≠ repl := by
    rintro rfl
    apply fresh
    exact mem_append_left _ (root_mem_toList rfl)
  have order := zip.nodup
  simp only [Shape.toList, append_assoc, cons_append, nodup_middle, nodup_cons] at order
  simp only [Shape.toList, mem_append, mem_cons, not_or] at order ⊢
  obtain ⟨⟨notLeft, notRight, notPath⟩, -⟩ := order
  exact ⟨⟨notLeft, differ, notRight⟩, notPath⟩

end

theorem Zip.swap {inner : List (Frame NodePtr)} (zip : Zip tree (inner ++ frame :: path) subtree)
    (fresh : repl ∉ subtree.toList ++ labels (inner ++ frame :: path)) :
    Zip (avlReplace tree frame.label repl) (inner ++ { frame with label := repl } :: path) subtree ∧
      frame.label ∉ subtree.toList ++ labels (inner ++ { frame with label := repl } :: path) := by
  have order : ∀ frame : Frame NodePtr,
      ((frame.plug (plug inner subtree)).toList ++ labels path).Perm
        (subtree.toList ++ labels (inner ++ frame :: path)) := by
    intro frame
    have whole := plug_perm (inner ++ frame :: path) subtree
    rw [plug_append] at whole
    exact (plug_perm path _).symm.trans whole
  rw [zip_append, zip_cons] at zip
  rw [← (order frame).mem_iff] at fresh
  rw [zip_append, zip_cons, ← (order _).mem_iff]
  exact ⟨zip.replace fresh, replaced_apart zip fresh⟩

theorem avlDetach_eq {side place : Side} (isFather : (tree.nodes repl).father = some father)
    (isSide : (tree.nodes repl).side = place) (isMoved : (tree.nodes repl).child side = moved)
    (notFather : repl ≠ father) (notMoved : repl ∉ moved) :
    avlDetach tree repl father side =
      ((tree.hang (some father) place moved).adopt moved (some father)
        place).addBalance father (-1 * place.sign) := by
  have first : (tree.setChild father place moved).nodes repl = tree.nodes repl :=
    modify_ne _ _ notFather
  unfold avlDetach
  simp only [isSide, isMoved, first, isFather]
  rw [AvlTree.adopt_nodes _ notMoved, first, isSide, Int.neg_one_mul]
  rfl

theorem Zip.detach
    (zip : Zip tree (frame :: path) (.node repl balance (fork side.other .nil subtree))) :
    Zip (avlDetach tree repl frame.label side) path ((frame.shift (-1)).plug subtree) := by
  obtain ⟨isFather, atSide⟩ := zip.links.1
  have isSide := atSide _ rfl
  have isMoved := zip.node_child side
  have order := (toList_fork_perm side.other repl balance .nil
    subtree).append_right (labels (frame :: path))
  have distinct := (nodup_cons.mp (order.nodup_iff.mp zip.nodup)).1
  have unhooked := zip.unhook
  rw [fork_other, fork_near] at isMoved
  rw [isFather, isSide] at unhooked
  rw [avlDetach_eq isFather isSide isMoved]
  · exact unhooked.shift (-1)
  · rintro rfl
    apply distinct
    exact mem_append_right _ mem_cons_self
  · intro isRoot
    apply distinct
    exact mem_append_left _ (mem_append_right _ (root_mem_toList isRoot))

theorem detached_apart
    (zip : Zip tree (frame :: path) (.node repl balance (fork side .nil subtree))) :
    repl ∉ ((frame.shift (-1)).plug subtree).toList ++ labels path := by
  have order := (toList_fork_perm side repl balance .nil
    subtree).append_right (labels (frame :: path))
  rw [(frame_perm (frame.shift (-1)) path subtree).mem_iff]
  exact (nodup_cons.mp (order.nodup_iff.mp zip.nodup)).1

theorem avlDetach_relinked (tree : AvlTree κ δ) (repl father : NodePtr)
    (side : Side) : Relinked tree (avlDetach tree repl father side) := by
  unfold avlDetach
  dsimp only
  exact (Relinked.setChild ..).trans ((Relinked.adopt ..).trans (.addBalance ..))

/-- The neighbour of a node leaves its place and takes the one of the node. -/
theorem Zip.exchange {inner : List (Frame NodePtr)}
    (zip : Zip tree (inner ++ frame :: path) (.node repl balance (fork side.other .nil subtree))) :
    ∃ father upper outer,
      (tree.nodes repl).father = some father ∧
      inner ++ { frame with label := repl } :: path = upper :: outer ∧
      upper.label = (if father = frame.label then repl else father) ∧
      Zip (avlReplace (avlDetach tree repl father side) frame.label repl)
        outer ((upper.shift (-1)).plug subtree) ∧
      frame.label ∉ ((upper.shift (-1)).plug subtree).toList ++ labels outer := by
  cases inner with
  | nil =>
    have apart := detached_apart zip
    rw [(frame_perm (frame.shift (-1)) path subtree).mem_iff] at apart
    have detached : Zip (avlDetach tree repl frame.label side)
        ([] ++ frame.shift (-1) :: path) subtree :=
      zip_cons.mpr zip.detach
    obtain ⟨swapped, gone⟩ := detached.swap apart
    have order := frame_perm (Frame.shift { frame with label := repl } (-1)) path subtree
    exact ⟨frame.label, _, _, zip.links.1.1, rfl, (if_pos rfl).symm,
      zip_cons.mp swapped, order.mem_iff.not.mpr gone⟩
  | cons lower inner =>
    obtain ⟨swapped, gone⟩ := zip.detach.swap (detached_apart zip)
    have differ : lower.label ≠ frame.label := by
      intro same
      have distinct := (nodup_append.mp zip.nodup).2.1
      rw [cons_append, labels, nodup_cons, same] at distinct
      apply distinct.1
      apply mem_append_right
      apply label_mem_labels
      exact mem_append_right _ mem_cons_self
    exact ⟨lower.label, _, _, zip.links.1.1, rfl, (if_neg differ).symm, swapped, gone⟩

theorem avlRem_leaf (zip : Zip tree path (.node n balance child))
    (balanced : (plug path (.node n balance child)).Balanced)
    (empty : ∀ side, child side = .nil) (enough : path.length ≤ fuel) :
    ∃ later, avlRem tree fuel n = some later ∧
      Zip later [] (ascend false (-1) path .nil) ∧
      (ascend false (-1) path (.nil : Shape NodePtr)).Balanced ∧
      Relinked { tree with free := n :: tree.free } later := by
  have isLeaf : child = fork .left .nil .nil := by
    funext side
    rw [empty]
    cases side <;> rfl
  rw [balanced_plug] at balanced
  have fits : Fits path 1 := by
    have fits := balanced.2
    rw [Shape.height, empty, empty] at fits
    exact fits
  have outside : n ∉ labels path := by
    have distinct := zip.nodup
    rw [isLeaf] at distinct
    exact (nodup_cons.mp distinct).1
  have noChild : ∀ side, (tree.nodes n).child side = none := by
    intro side
    rw [zip.node_child, empty]
    rfl
  have single : (.nil : Shape NodePtr).Balanced := trivial
  have shrunk : (-1 : Int) = if false then 1 else -1 := rfl
  have unhooked : Zip (tree.hang (tree.nodes n).father (tree.nodes n).side none) path .nil := by
    rw [isLeaf] at zip
    exact zip.unhook
  obtain ⟨isFather, isSide⟩ := zip.links.1
  have isBalanced := ascend_balanced single rfl shrunk fits
  rw [avlRem, if_neg (by simp [noChild])]
  cases path with
  | nil =>
    replace isFather : (tree.nodes n).father = none := isFather
    rw [isFather] at unhooked ⊢
    refine ⟨_, rfl, unhooked.delete outside, isBalanced, ?_⟩
    exact (Relinked.hang tree none .left none).delete n
  | cons frame path =>
    replace isFather : (tree.nodes n).father = some frame.label := isFather
    replace isSide : (tree.nodes n).side = frame.side := isSide _ rfl
    have differ : n ≠ frame.label := by
      rintro rfl
      exact outside mem_cons_self
    have kept : ((tree.setChild frame.label frame.side none).nodes n).side =
        frame.side := by
      rw [setChild, modify_ne _ _ differ, isSide]
    have shifted := unhooked.shift (-1)
    rw [isFather, isSide, Int.neg_one_mul, AvlTree.hang_some] at shifted
    have deleted := shifted.delete (p := n) (by
      rw [(frame_perm (frame.shift (-1)) path .nil).mem_iff]
      exact outside)
    obtain ⟨later, performs, done, relinked⟩ :=
      avlBalance_ascend deleted single rfl shrunk fits enough
    rw [isFather, isSide]
    dsimp only
    rw [kept]
    refine ⟨later, performs, done, isBalanced, ?_⟩
    exact (((Relinked.setChild ..).trans (.addBalance ..)).delete n).trans relinked

theorem exchange_toList {inner : List (Frame NodePtr)} {child : Side → Shape NodePtr}
    (split : child side = plug inner (.node repl lower (fork side.other .nil subtree)))
    (along : ∀ frame ∈ inner, frame.side = side.other) :
    (plug (inner ++ ⟨repl, balance, side, child side.other⟩ :: path) subtree).toList =
      before path ++ ((child .left).toList ++ (child .right).toList) ++ after path := by
  have nothing := beside_of_side along
  have old := congrArg Shape.toList split
  rw [toList_plug, Shape.toList_fork] at old
  rw [plug_append, plug, toList_plug, Frame.plug, Shape.toList_fork, toList_plug]
  cases side with
  | left =>
    change after inner = [] at nothing
    simp only [Side.other, nothing] at old ⊢
    rw [old]
    simp [Shape.toList]
  | right =>
    change before inner = [] at nothing
    simp only [Side.other, nothing] at old ⊢
    rw [old]
    simp [Shape.toList]

section

variable (zip : Zip tree path (.node n balance child))
  (balanced : (plug path (.node n balance child)).Balanced)

include zip balanced

theorem avlRem_inner (nonempty : child side ≠ .nil)
    (enough : (plug path (.node n balance child)).toList.length ≤ fuel) :
    ∃ later shape, avlRem tree fuel n = some later ∧ Zip later [] shape ∧
      shape.Balanced ∧
      shape.toList = before path ++ ((child .left).toList ++ (child .right).toList) ++ after path ∧
      Relinked { tree with free := n :: tree.free } later := by
  have hasChild : (tree.nodes n).child .left ≠ none ∨ (tree.nodes n).child .right ≠ none := by
    rw [zip.node_child, zip.node_child]
    cases shape : child side with
    | nil => exact absurd shape nonempty
    | node _ _ _ =>
      cases side with
      | left => exact .inl (by rw [shape]; nofun)
      | right => exact .inr (by rw [shape]; nofun)
  have isHigh := (balanced_plug.mp balanced).1.high_ne_nil nonempty
  rw [avlRem, if_pos hasChild, zip.node_balance]
  generalize highSide balance = high at *
  obtain ⟨inner, repl, lower, subtree, split, along⟩ := exists_end high.other isHigh
  obtain ⟨top, isTop⟩ := exists_root_plug inner repl lower (fork high.other .nil subtree)
  have whole : Shape.node n balance child =
      Frame.plug ⟨n, balance, high, child high.other⟩
        (plug inner (.node repl lower (fork high.other .nil subtree))) := by
    rw [Frame.plug, ← split, fork_eta]
  have below : Zip tree (inner ++ ⟨n, balance, high, child high.other⟩ :: path)
      (.node repl lower (fork high.other .nil subtree)) := by
    rw [zip_append, zip_cons, ← whole]
    exact zip
  have shape : plug path (.node n balance child) =
      plug (inner ++ ⟨n, balance, high, child high.other⟩ :: path)
        (.node repl lower (fork high.other .nil subtree)) := by
    rw [plug_append, whole]
    rfl
  have depth := length_le_plug
    (inner ++ ⟨n, balance, high, child high.other⟩ :: path)
    (.node repl lower (fork high.other .nil subtree))
  rw [shape, balanced_plug, Shape.balanced_fork, Shape.height_fork] at balanced
  rw [← shape, length_append, length_cons] at depth
  obtain ⟨⟨-, -, -, -, subtreeBalanced⟩, fits⟩ := balanced
  have relabelled := fits.relabel repl
  have ends : avlExtreme tree.nodes high.other fuel top = some repl := by
    have links := (zip.links.2.2 high).2
    rw [split] at links
    exact avlExtreme_plug links along isTop (by omega)
  obtain ⟨father, upper, outer, isFather, isPath, isLabel, exchanged, gone⟩ := below.exchange
  have length := congrArg List.length isPath
  rw [length_append, length_cons, length_cons] at length
  rw [isPath] at relabelled
  have bound : outer.length < fuel := by omega
  have shrunk : (-1 : Int) = if false then 1 else -1 := rfl
  have heights : (subtree.height : Int) =
      (max (Shape.nil : Shape NodePtr).height subtree.height + 1 : Nat) + -1 := by
    rw [Shape.height]
    omega
  obtain ⟨later, performs, done, relinked⟩ := avlBalance_ascend
    (exchanged.delete gone) subtreeBalanced heights shrunk relabelled bound
  refine ⟨later, _, ?_, done, ascend_balanced subtreeBalanced heights shrunk relabelled, ?_, ?_⟩
  · dsimp only
    rw [zip.node_child, split, isTop, bind_some, ends, bind_some, isFather, bind_some, ← isLabel]
    exact performs
  · rw [ascend_toList, ← toList_plug, ← isPath]
    exact exchange_toList split along
  · exact (((avlDetach_relinked ..).trans (avlReplace_relinked ..)).delete n).trans relinked

theorem avlRem_zip (enough : (plug path (.node n balance child)).toList.length ≤ fuel) :
    ∃ later shape, avlRem tree fuel n = some later ∧ Zip later [] shape ∧
      shape.Balanced ∧
      shape.toList = before path ++ ((child .left).toList ++ (child .right).toList) ++ after path ∧
      Relinked { tree with free := n :: tree.free } later := by
  by_cases empty : ∀ side, child side = .nil
  · have depth := length_le_plug path (.node n balance child)
    have bound : path.length ≤ fuel := by omega
    obtain ⟨later, performs, done, isBalanced, relinked⟩ := avlRem_leaf zip balanced empty bound
    refine ⟨later, _, performs, done, isBalanced, ?_, relinked⟩
    rw [ascend_toList, empty, empty]
    rfl
  · obtain ⟨side, nonempty⟩ := not_forall.mp empty
    exact avlRem_inner zip balanced nonempty enough

end

end

section

variable {κ δ : Type} [LinearOrder κ] {tree : AvlTree κ δ} {path : List (Frame NodePtr)}

theorem avlAdd_absent (zip : Zip tree path .nil)
    (search : avlSearch tree fuel target hint = some (none, last, side))
    (isLast : last = (place path).map Prod.fst)
    (isSide : ∀ below ∈ place path, side = below.2) (fits : Fits path 0)
    (fresh : (avlNodeCreate tree).1 ∉ labels path) (enough : path.length ≤ fuel) :
    ∃ later, avlAdd tree fuel target hint = some (later, true, (avlNodeCreate tree).1) ∧
      Zip later [] (ascend true 1 path (leaf (avlNodeCreate tree).1)) ∧
      Added tree later target := by
  have created : Zip (avlNodeCreate tree).2 path .nil := by
    apply zip.congr (avlNodeCreate_root tree)
    intro p _
    rw [avlNodeCreate_nodes]
    exact .refl _
  let setup : AvlNode κ δ → AvlNode κ δ := fun it =>
    { it with
      father := last, child := fun _ => none, balance := 0, key := target
      side := side }
  have ready := created.modify fresh setup
  have isNew := (avlNodeCreate tree).2.modify_self (avlNodeCreate tree).1 setup
  have added : Added tree ((avlNodeCreate tree).2.modify (avlNodeCreate tree).1 setup) target := by
    apply added_modify
    · exact fun _ => rfl
    · exact fun _ => rfl
  obtain ⟨later, performs, done, relinked⟩ := avlInsert_zip ready fresh
    (isNew ▸ ⟨isLast, isSide⟩) (isNew ▸ rfl) (isNew ▸ rfl) fits enough
  rw [isNew] at performs
  refine ⟨later, ?_, done, added.relinked relinked⟩
  rw [avlAdd, search, bind_some]
  exact congrArg (Option.map _) performs

end

end Reverse.Decopus
