import Reverse.Library.AvlTree

/-!
# The AVL tree of Decopus

The tree of `avl.h` with its pool of nodes.  Each node has links to its father
and to its children and knows on which side of its father it is.  The functions
are written for any ordered type of keys.  A step that would follow a null
pointer gives no result.
-/

namespace Reverse.Decopus

open Avl

abbrev NodePtr := Nat

structure AvlNode (κ δ : Type) where
  father : Option NodePtr
  child : Side → Option NodePtr
  balance : Int
  side : Side
  key : κ
  data : δ

/-- The tree and its pool.  The free nodes of the pool are linked by their
fathers in the source. -/
structure AvlTree (κ δ : Type) where
  root : Option NodePtr
  nodes : NodePtr → AvlNode κ δ
  free : List NodePtr
  nbnode : Nat

def avlPoolArraySize : Nat := 100

namespace AvlTree

variable {κ δ : Type}

def modify (tree : AvlTree κ δ) (node : NodePtr)
    (change : AvlNode κ δ → AvlNode κ δ) : AvlTree κ δ :=
  { tree with
    nodes := Function.update tree.nodes node (change (tree.nodes node)) }

def setBalance (tree : AvlTree κ δ) (node : NodePtr) (balance : Int) : AvlTree κ δ :=
  tree.modify node fun it => { it with balance := balance }

def addBalance (tree : AvlTree κ δ) (node : NodePtr) (change : Int) : AvlTree κ δ :=
  tree.modify node fun it => { it with balance := it.balance + change }

def setChild (tree : AvlTree κ δ) (node : NodePtr) (side : Side)
    (child : Option NodePtr) : AvlTree κ δ :=
  tree.modify node fun it =>
    { it with child := Function.update it.child side child }

def setFather (tree : AvlTree κ δ) (node : NodePtr) (father : Option NodePtr)
    (side : Side) : AvlTree κ δ :=
  tree.modify node fun it => { it with father := father, side := side }

/-- Set the link that leads down to a place of the tree. -/
def hang (tree : AvlTree κ δ) (father : Option NodePtr) (side : Side)
    (node : Option NodePtr) : AvlTree κ δ :=
  match father with
  | some father => tree.setChild father side node
  | none => { tree with root := node }

/-- Set the father of a node if there is one. -/
def adopt (tree : AvlTree κ δ) (node : Option NodePtr)
    (father : Option NodePtr) (side : Side) : AvlTree κ δ :=
  match node with
  | some node => tree.setFather node father side
  | none => tree

/-- Change the father of a node if there is one. -/
def foster (tree : AvlTree κ δ) (node : Option NodePtr) (father : NodePtr) : AvlTree κ δ :=
  match node with
  | some node => tree.modify node fun it => { it with father := some father }
  | none => tree

end AvlTree

section

variable {κ δ : Type}

/-- The memory of the nodes is not initialised. -/
def avlInit (nodes : NodePtr → AvlNode κ δ) : AvlTree κ δ :=
  { root := none, nodes := nodes, free := [], nbnode := 0 }

def avlNodeCreate (tree : AvlTree κ δ) : NodePtr × AvlTree κ δ :=
  match tree.free with
  | node :: rest => (node, { tree with free := rest })
  | [] =>
    (tree.nbnode,
      { tree with
        free := (List.range (avlPoolArraySize - 1)).map (tree.nbnode + 1 + ·)
        nbnode := tree.nbnode + avlPoolArraySize })

def avlNodeDelete (tree : AvlTree κ δ) (node : NodePtr) : AvlTree κ δ :=
  let tree := tree.modify node fun it =>
    { it with father := tree.free.head? }
  { tree with free := node :: tree.free }

/-- Follow the links of one side to the end. -/
def avlExtreme (nodes : NodePtr → AvlNode κ δ) (side : Side) : Nat → NodePtr → Option NodePtr
  | 0, _ => none
  | fuel + 1, node =>
    match (nodes node).child side with
    | none => some node
    | some next => avlExtreme nodes side fuel next

/-- The loop of `AVL_first` and `AVL_last`. -/
def avlEnd (tree : AvlTree κ δ) (side : Side) (fuel : Nat) : Option (Option NodePtr) :=
  match tree.root with
  | none => some none
  | some root => (avlExtreme tree.nodes side fuel root).map some

def avlFirst (tree : AvlTree κ δ) (fuel : Nat) : Option (Option NodePtr) :=
  avlEnd tree .left fuel

def avlLast (tree : AvlTree κ δ) (fuel : Nat) : Option (Option NodePtr) :=
  avlEnd tree .right fuel

/-- Go up as long as the node is on the given side of its father. -/
def avlClimb (nodes : NodePtr → AvlNode κ δ) (off : Side) :
    Nat → Side → Option NodePtr → Option (Option NodePtr)
  | _, _, none => some none
  | 0, _, some _ => none
  | fuel + 1, side, some node =>
    if side = off then
      avlClimb nodes off fuel (nodes node).side (nodes node).father
    else some (some node)

/-- The neighbour of a node on a side. -/
def avlNeighbour (tree : AvlTree κ δ) (towards : Side) (fuel : Nat)
    (node : NodePtr) : Option (Option NodePtr) :=
  match (tree.nodes node).child towards with
  | some child => (avlExtreme tree.nodes towards.other fuel child).map some
  | none =>
    avlClimb tree.nodes towards fuel (tree.nodes node).side (tree.nodes node).father

def avlPrev (tree : AvlTree κ δ) (fuel : Nat) (node : NodePtr) : Option (Option NodePtr) :=
  avlNeighbour tree .left fuel node

def avlNext (tree : AvlTree κ δ) (fuel : Nat) (node : NodePtr) : Option (Option NodePtr) :=
  avlNeighbour tree .right fuel node

/-- The son on the other side takes the place of `root`, which goes down on the
side `side`. -/
def avlRot (tree : AvlTree κ δ) (root : NodePtr) (side : Side) : Option (AvlTree κ δ × NodePtr) :=
  let invside := side.other
  ((tree.nodes root).child invside).map fun node =>
    let tree := tree.setFather node (tree.nodes root).father (tree.nodes root).side
    let tree := tree.hang (tree.nodes node).father (tree.nodes node).side (some node)
    let tree := tree.setChild root invside ((tree.nodes node).child side)
    let tree := tree.adopt ((tree.nodes root).child invside) (some root) invside
    let tree := tree.setChild node side (some root)
    let tree := tree.setFather root (some node) side
    (tree, node)

/-- The cases `-2`, with the left child too high, and `2`, with the right
one.  The number is the change of the height. -/
def avlRebalance (tree : AvlTree κ δ) (node : NodePtr) (heavy : Side)
    (add : Bool) : Option (AvlTree κ δ × NodePtr × Int) :=
  ((tree.nodes node).child heavy).bind fun child =>
    let balance := (tree.nodes child).balance
    if balance = heavy.sign then
      (avlRot tree node heavy.other).bind fun (tree, node) =>
        let tree := tree.setBalance node 0
        ((tree.nodes node).child heavy.other).map fun lower =>
          (tree.setBalance lower 0, node, if add then 0 else -1)
    else if balance = 0 then
      (avlRot tree node heavy.other).bind fun (tree, node) =>
        let tree := tree.setBalance node (-heavy.sign)
        ((tree.nodes node).child heavy.other).map fun lower =>
          (tree.setBalance lower heavy.sign, node, if add then 1 else 0)
    else if balance = -heavy.sign then
      ((tree.nodes child).child heavy.other).bind fun inner =>
        let balance := (tree.nodes inner).balance
        (avlRot tree child heavy).bind fun (tree, _) =>
          (avlRot tree node heavy.other).bind fun (tree, node) =>
            let tree := tree.setBalance node 0
            ((tree.nodes node).child .left).bind fun left =>
              let tree := tree.setBalance left (innerBalance balance .left)
              ((tree.nodes node).child .right).map fun right =>
                (tree.setBalance right (innerBalance balance .right), node, if add then 0 else -1)
    else some (tree, node, 0)

/-- The body of the loop of `AVL_balance`, up to the test whether the height has
changed. -/
def avlRestore (tree : AvlTree κ δ) (node : NodePtr) (add : Bool) :
    Option (AvlTree κ δ × NodePtr × Int) :=
  let balance := (tree.nodes node).balance
  if balance = 0 then some (tree, node, if add then 0 else -1)
  else if balance = 1 ∨ balance = -1 then
    some (tree, node, if add then 1 else 0)
  else if balance = -2 then avlRebalance tree node .left add
  else if balance = 2 then avlRebalance tree node .right add
  else some (tree, node, 0)

def avlBalance (add : Bool) : Nat → AvlTree κ δ → Option NodePtr → Option (AvlTree κ δ)
  | _, tree, none => some tree
  | 0, _, some _ => none
  | fuel + 1, tree, some node =>
    (avlRestore tree node add).bind fun (tree, node, diff) =>
      if diff = 0 then some tree
      else
        match (tree.nodes node).father with
        | none => some tree
        | some father =>
          avlBalance add fuel
            (tree.addBalance father (diff * (tree.nodes node).side.sign)) (some father)

end

section

variable {κ δ : Type} [LinearOrder κ]

def avlFindLoop (nodes : NodePtr → AvlNode κ δ) (key : κ) :
    Nat → Option NodePtr → Option NodePtr → Option (Bool × Option NodePtr)
  | _, last, none => some (false, last)
  | 0, _, some _ => none
  | fuel + 1, _, some cur =>
    if key < (nodes cur).key then
      avlFindLoop nodes key fuel (some cur) ((nodes cur).child .left)
    else if (nodes cur).key < key then
      avlFindLoop nodes key fuel (some cur) ((nodes cur).child .right)
    else some (true, some cur)

/-- Whether there is a node with the key, and the node or one next to it. -/
def avlFind (tree : AvlTree κ δ) (fuel : Nat) (key : κ) : Option (Bool × Option NodePtr) :=
  avlFindLoop tree.nodes key fuel none tree.root

/-- The place where a key belongs: the node that has it, or the father and the
side. -/
def avlPlace (nodes : NodePtr → AvlNode κ δ) (key : κ) :
    Nat → Option NodePtr → Side → Option NodePtr → Option (Option NodePtr × Option NodePtr × Side)
  | _, last, side, none => some (none, last, side)
  | 0, _, _, some _ => none
  | fuel + 1, last, side, some cur =>
    if key < (nodes cur).key then
      avlPlace nodes key fuel (some cur) .left ((nodes cur).child .left)
    else if (nodes cur).key < key then
      avlPlace nodes key fuel (some cur) .right ((nodes cur).child .right)
    else some (some cur, last, side)

/-- The search of `AVL_add`, from the root or from the node that is given. -/
def avlSearch (tree : AvlTree κ δ) (fuel : Nat) (key : κ) (hint : Option NodePtr) :
    Option (Option NodePtr × Option NodePtr × Side) :=
  match hint with
  | none => avlPlace tree.nodes key fuel none .left tree.root
  | some node =>
    avlPlace tree.nodes key fuel (tree.nodes node).father (tree.nodes node).side (some node)

/-- The last part of `AVL_add`: the new node is hung below `last`. -/
def avlInsert (tree : AvlTree κ δ) (fuel : Nat) (cur : NodePtr)
    (last : Option NodePtr) (side : Side) : Option (AvlTree κ δ) :=
  match last with
  | none => some { tree with root := some cur }
  | some last =>
    let tree := tree.setChild last side (some cur)
    let tree := tree.addBalance last side.sign
    avlBalance true fuel tree (some last)

/-- Whether a node was added, and the node with the key. -/
def avlAdd (tree : AvlTree κ δ) (fuel : Nat) (key : κ)
    (hint : Option NodePtr) : Option (AvlTree κ δ × Bool × NodePtr) :=
  (avlSearch tree fuel key hint).bind fun (found, last, side) =>
    match found with
    | some node => some (tree, false, node)
    | none =>
      let (cur, tree) := avlNodeCreate tree
      let tree := tree.modify cur fun it =>
        { it with
          father := last, child := fun _ => none, balance := 0
          key := key, side := side }
      (avlInsert tree fuel cur last side).map fun tree => (tree, true, cur)

/-- The node `repl` leaves its place to its child on the side `side`. -/
def avlDetach (tree : AvlTree κ δ) (repl father : NodePtr) (side : Side) : AvlTree κ δ :=
  let tree := tree.setChild father (tree.nodes repl).side ((tree.nodes repl).child side)
  let tree := tree.adopt ((tree.nodes repl).child side)
    (tree.nodes repl).father (tree.nodes repl).side
  tree.addBalance father (-(tree.nodes repl).side.sign)

/-- The node `repl` takes the place of `node`. -/
def avlReplace (tree : AvlTree κ δ) (node repl : NodePtr) : AvlTree κ δ :=
  let tree := tree.modify repl fun it =>
    { it with
      father := (tree.nodes node).father, child := (tree.nodes node).child
      balance := (tree.nodes node).balance, side := (tree.nodes node).side }
  let tree := tree.foster ((tree.nodes repl).child .left) repl
  let tree := tree.foster ((tree.nodes repl).child .right) repl
  tree.hang (tree.nodes node).father (tree.nodes node).side (some repl)

def avlRem (tree : AvlTree κ δ) (fuel : Nat) (node : NodePtr) : Option (AvlTree κ δ) :=
  if (tree.nodes node).child .left ≠ none ∨ (tree.nodes node).child .right ≠ none then
    let side := highSide (tree.nodes node).balance
    ((tree.nodes node).child side).bind fun child =>
      (avlExtreme tree.nodes side.other fuel child).bind fun repl =>
        ((tree.nodes repl).father).bind fun father =>
          let bal := if father = node then repl else father
          let tree := avlReplace (avlDetach tree repl father side) node repl
          avlBalance false fuel (avlNodeDelete tree node) (some bal)
  else
    match (tree.nodes node).father with
    | some father =>
      let tree := tree.setChild father (tree.nodes node).side none
      let tree := tree.addBalance father (-(tree.nodes node).side.sign)
      avlBalance false fuel (avlNodeDelete tree node) (some father)
    | none => some (avlNodeDelete { tree with root := none } node)

end

end Reverse.Decopus
