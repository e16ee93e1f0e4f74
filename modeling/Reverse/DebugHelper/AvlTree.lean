import Mathlib.Data.List.Induction
import Mathlib.Data.Nat.Fib.Basic

/-!
# The tree of the debug helper

The file `avl_tree.c`.  A pointer to a node is the tree below it, and an access
through a null pointer gives no result.  The recursion of `avl_insert` hands
down the address of a pointer: what it leaves there is its result.
-/

namespace Reverse.DebugHelper

open List

/-- The fields of `avl_tree_t` without its pointers to children. -/
structure AvlNode (δ : Type) where
  key : Nat
  depth : Nat
  flags : Int
  data : δ

inductive AvlTree (δ : Type) where
  | null
  | node (fields : AvlNode δ) (left right : AvlTree δ)

variable {δ : Type}

namespace AvlTree

/-- The field `depth`, and 0 for a null pointer. -/
def depth : AvlTree δ → Nat
  | .null => 0
  | .node fields _ _ => fields.depth

def flags : AvlTree δ → Int
  | .null => 0
  | .node fields _ _ => fields.flags

/-- A node above two subtrees, with its depth and its flags computed from
theirs. -/
def update (fields : AvlNode δ) (left right : AvlTree δ) : AvlTree δ :=
  .node { fields with
    depth := max left.depth right.depth + 1
    flags := right.depth - left.depth } left right

end AvlTree

def avlRightRotate : AvlTree δ → Option (AvlTree δ)
  | .node node1 (.node node2 left2 right2) right1 =>
    some (.update node2 left2 (.update node1 right2 right1))
  | _ => none

def avlLeftRotate : AvlTree δ → Option (AvlTree δ)
  | .node node1 left1 (.node node2 left2 right2) =>
    some (.update node2 (.update node1 left1 left2) right2)
  | _ => none

/-- The messages are left out. -/
def avlBalance : AvlTree δ → Option (AvlTree δ)
  | .null => none
  | .node fields left right =>
    if fields.flags = -2 then
      match left with
      | .null => none
      | .node leftFields _ _ =>
        (if leftFields.flags = 1 then avlLeftRotate left
          else some left).bind fun left =>
            avlRightRotate (.node fields left right)
    else if fields.flags = 2 then
      match right with
      | .null => none
      | .node rightFields _ _ =>
        (if rightFields.flags = -1 then avlRightRotate right
          else some right).bind fun right =>
            avlLeftRotate (.node fields left right)
    else some (.node fields left right)

/-- A node that was made and is in no tree. -/
def avlNew (key : Nat) (data : δ) : AvlNode δ := ⟨key, 0, 0, data⟩

/-- The end of `avl_insert`, after the recursive call. -/
def avlUpdate (fields : AvlNode δ) (left right : AvlTree δ) : Option (AvlTree δ) :=
  let flags : Int := right.depth - left.depth
  if flags = -2 ∨ flags = 2 then avlBalance (.update fields left right)
  else some (.update fields left right)

def avlInsert : AvlTree δ → AvlNode δ → Option (AvlTree δ)
  | .null, node => some (.node { node with depth := 1 } .null .null)
  | .node fields left right, node =>
    if node.key < fields.key then
      (avlInsert left node).bind fun left => avlUpdate fields left right
    else if fields.key < node.key then
      (avlInsert right node).bind fun right => avlUpdate fields left right
    else some (.node fields left right)

def avlSearch : AvlTree δ → Nat → Option (AvlNode δ)
  | .null, _ => none
  | .node fields left right, search =>
    if search < fields.key then avlSearch left search
    else if fields.key < search then
      match avlSearch right search with
      | none => some fields
      | some res => some res
    else some fields

namespace AvlTree

/-- The nodes from left to right, with what avl_new gave them. -/
def entries : AvlTree δ → List (Nat × δ)
  | .null => []
  | .node fields left right =>
    left.entries ++ (fields.key, fields.data) :: right.entries

def height : AvlTree δ → Nat
  | .null => 0
  | .node _ left right => max left.height right.height + 1

/-- The stored heights and differences are exact, and no difference is larger
than one. -/
def Exact : AvlTree δ → Prop
  | .null => True
  | .node fields left right =>
    fields.depth = max left.height right.height + 1 ∧
    fields.flags = right.height - left.height ∧
    -1 ≤ fields.flags ∧ fields.flags ≤ 1 ∧ left.Exact ∧ right.Exact

def Ordered (tree : AvlTree δ) : Prop :=
  (tree.entries.map Prod.fst).Pairwise (· < ·)

theorem Exact.depth_eq {tree : AvlTree δ} (exact : tree.Exact) : tree.depth = tree.height := by
  cases tree with
  | null => rfl
  | node fields left right => exact exact.1

end AvlTree

open AvlTree

theorem exact_update (first : left.Exact)
    (second : right.Exact) (low : left.height ≤ right.height + 1)
    (high : right.height ≤ left.height + 1) :
    (AvlTree.update fields left right).Exact := by
  unfold AvlTree.update
  rw [first.depth_eq, second.depth_eq]
  refine ⟨rfl, rfl, ?_, ?_, first, second⟩
  · dsimp only
    omega
  · dsimp only
    omega

theorem height_update (fields : AvlNode δ) (left right : AvlTree δ) :
    (AvlTree.update fields left right).height = max left.height right.height + 1 :=
  rfl

theorem entries_update (fields : AvlNode δ) (left right : AvlTree δ) :
    (AvlTree.update fields left right).entries =
      left.entries ++ (fields.key, fields.data) :: right.entries :=
  rfl

theorem exact_heights (exact : (AvlTree.node fields left right).Exact) :
    left.height ≤ right.height + 1 ∧ right.height ≤ left.height + 1 := by
  obtain ⟨-, isFlags, low, high, -, -⟩ := exact
  omega

theorem AvlTree.Exact.fib_le {tree : AvlTree δ} (exact : tree.Exact) :
    Nat.fib (tree.height + 2) ≤ tree.entries.length + 1 := by
  have next (high : Nat) : Nat.fib (high + 1 + 2) = Nat.fib (high + 1) + Nat.fib (high + 2) :=
    Nat.fib_add_two
  induction tree with
  | null => exact Nat.le_refl 1
  | node fields left right ihLeft ihRight =>
    have near := exact_heights exact
    obtain ⟨-, -, -, -, leftExact, rightExact⟩ := exact
    have leftSize := ihLeft leftExact
    have rightSize := ihRight rightExact
    rw [height, entries, length_append, length_cons, next]
    rcases Nat.le_total left.height right.height with higher | higher
    · have smaller : Nat.fib (right.height + 1) ≤ Nat.fib (left.height + 2) :=
        Nat.fib_mono (by omega)
      rw [Nat.max_eq_right higher]
      omega
    · have smaller : Nat.fib (left.height + 1) ≤ Nat.fib (right.height + 2) :=
        Nat.fib_mono (by omega)
      rw [Nat.max_eq_left higher]
      omega

/-- A tree that was balanced is exact, is at most one level lower than the tree
before, and has the same nodes. -/
structure Rebalanced (high : Nat) (entries : List (Nat × δ))
    (later : AvlTree δ) : Prop where
  exact : later.Exact
  height : later.height = high ∨ later.height = high + 1
  entries : later.entries = entries

theorem avlBalance_left (first : left.Exact) (second : right.Exact)
    (isFlags : fields.flags = -2) (heavy : left.height = right.height + 2) :
    ∃ later, avlBalance (.node fields left right) = some later ∧
      Rebalanced left.height
        (left.entries ++ (fields.key, fields.data) :: right.entries)
        later := by
  cases left with
  | null => cases heavy
  | node leftFields outer inner =>
    have near := exact_heights first
    obtain ⟨-, leftFlags, -, -, outerExact, innerExact⟩ := first
    rw [height] at heavy
    unfold avlBalance
    dsimp only
    rw [if_pos isFlags]
    by_cases isInner : leftFields.flags = 1
    · -- The inner subtree is the higher one and becomes the root.
      rw [if_pos isInner]
      rw [leftFlags] at isInner
      cases inner with
      | null =>
        rw [height] at isInner
        omega
      | node innerFields innerLeft innerRight =>
        have innerNear := exact_heights innerExact
        obtain ⟨-, -, -, -, innerLeftExact, innerRightExact⟩ := innerExact
        rw [height] at isInner heavy near
        refine ⟨_, rfl, ?_, ?_, ?_⟩
        · apply exact_update
          · exact exact_update outerExact innerLeftExact (by omega) (by omega)
          · exact exact_update innerRightExact second (by omega) (by omega)
          · rw [height_update, height_update]
            omega
          · rw [height_update, height_update]
            omega
        · rw [height_update, height_update, height_update, height, height]
          omega
        · simp [entries_update, entries]
    · rw [if_neg isInner]
      rw [leftFlags] at isInner
      refine ⟨_, rfl, ?_, ?_, ?_⟩
      · apply exact_update outerExact
        · exact exact_update innerExact second (by omega) (by omega)
        · rw [height_update]
          omega
        · rw [height_update]
          omega
      · rw [height_update, height_update, height]
        omega
      · simp [entries_update, entries]

theorem avlBalance_right (first : left.Exact) (second : right.Exact)
    (isFlags : fields.flags = 2) (heavy : right.height = left.height + 2) :
    ∃ later, avlBalance (.node fields left right) = some later ∧
      Rebalanced right.height
        (left.entries ++ (fields.key, fields.data) :: right.entries)
        later := by
  cases right with
  | null => cases heavy
  | node rightFields inner outer =>
    have near := exact_heights second
    obtain ⟨-, rightFlags, -, -, innerExact, outerExact⟩ := second
    rw [height] at heavy
    unfold avlBalance
    dsimp only
    rw [if_neg (by rw [isFlags]; decide), if_pos isFlags]
    by_cases isInner : rightFields.flags = -1
    · rw [if_pos isInner]
      rw [rightFlags] at isInner
      cases inner with
      | null =>
        rw [height] at isInner
        omega
      | node innerFields innerLeft innerRight =>
        have innerNear := exact_heights innerExact
        obtain ⟨-, -, -, -, innerLeftExact, innerRightExact⟩ := innerExact
        rw [height] at isInner heavy near
        refine ⟨_, rfl, ?_, ?_, ?_⟩
        · apply exact_update
          · exact exact_update first innerLeftExact (by omega) (by omega)
          · exact exact_update innerRightExact outerExact (by omega) (by omega)
          · rw [height_update, height_update]
            omega
          · rw [height_update, height_update]
            omega
        · rw [height_update, height_update, height_update, height, height]
          omega
        · simp [entries_update, entries]
    · rw [if_neg isInner]
      rw [rightFlags] at isInner
      refine ⟨_, rfl, ?_, ?_, ?_⟩
      · refine exact_update ?_ outerExact ?_ ?_
        · exact exact_update first innerExact (by omega) (by omega)
        · rw [height_update]
          omega
        · rw [height_update]
          omega
      · rw [height_update, height_update, height]
        omega
      · simp [entries_update, entries]

/-- Two exact subtrees of which one may have grown. -/
theorem avlUpdate_spec (fields : AvlNode δ)
    (first : left.Exact) (second : right.Exact) (low : left.height ≤ right.height + 2)
    (high : right.height ≤ left.height + 2) :
    ∃ later, avlUpdate fields left right = some later ∧
      Rebalanced (max left.height right.height)
        (left.entries ++ (fields.key, fields.data) :: right.entries) later ∧
      (left.height ≤ right.height + 1 → right.height ≤ left.height + 1 →
        later.height = max left.height right.height + 1) := by
  have isFlags : (AvlTree.update fields left right).flags = (right.height : Int) - left.height := by
    rw [← first.depth_eq, ← second.depth_eq]
    rfl
  unfold avlUpdate
  dsimp only
  rw [first.depth_eq, second.depth_eq]
  by_cases isLeft : left.height = right.height + 2
  · rw [if_pos (Or.inl (by omega))]
    obtain ⟨later, isLater, rebalanced⟩ :
        ∃ later, avlBalance (.update fields left right) = some later ∧
          Rebalanced left.height
            (left.entries ++ (fields.key, fields.data) :: right.entries)
            later :=
      avlBalance_left first second (isFlags.trans (by omega)) isLeft
    refine ⟨later, isLater, ?_, fun near _ => by omega⟩
    rw [show max left.height right.height = left.height by omega]
    exact rebalanced
  · by_cases isRight : right.height = left.height + 2
    · rw [if_pos (Or.inr (by omega))]
      obtain ⟨later, isLater, rebalanced⟩ :
          ∃ later, avlBalance (.update fields left right) = some later ∧
            Rebalanced right.height
              (left.entries ++ (fields.key, fields.data) :: right.entries)
              later :=
        avlBalance_right first second (isFlags.trans (by omega)) isRight
      refine ⟨later, isLater, ?_, fun _ near => by omega⟩
      rw [show max left.height right.height = right.height by omega]
      exact rebalanced
    · rw [if_neg (by omega)]
      refine ⟨_, rfl, ⟨?_, Or.inr rfl, rfl⟩, fun _ _ => rfl⟩
      exact exact_update first second (by omega) (by omega)

/-- A new entry comes to its place; a key that is there keeps its entry. -/
def addEntry (entry : Nat × δ) : List (Nat × δ) → List (Nat × δ)
  | [] => [entry]
  | first :: rest =>
    if entry.1 < first.1 then entry :: first :: rest
    else if first.1 < entry.1 then first :: addEntry entry rest
    else first :: rest

theorem addEntry_before (less : entry.1 < middle.1) (before after : List (Nat × δ)) :
    addEntry entry (before ++ middle :: after) = addEntry entry before ++ middle :: after := by
  induction before with
  | nil => exact if_pos less
  | cons first before ih =>
    simp only [cons_append, addEntry]
    split
    · rfl
    · split
      · rw [ih]
        rfl
      · rfl

theorem addEntry_after (less : ∀ first ∈ before, first.1 < entry.1) (after : List (Nat × δ)) :
    addEntry entry (before ++ middle :: after) = before ++ addEntry entry (middle :: after) := by
  induction before with
  | nil => rfl
  | cons first before ih =>
    have isLess := less first mem_cons_self
    rw [cons_append, addEntry, if_neg (Nat.lt_asymm isLess),
      if_pos isLess, ih fun other member =>
        less other (mem_cons_of_mem _ member)]
    rfl

theorem addEntry_smallest {entries : List (Nat × δ)} (less : ∀ other ∈ entries, entry.1 < other.1) :
    addEntry entry entries = entry :: entries := by
  cases entries with
  | nil => rfl
  | cons first rest => exact if_pos (less first mem_cons_self)

theorem mem_addEntry {entries : List (Nat × δ)} (sorted : (entries.map Prod.fst).Pairwise (· < ·)) :
    other ∈ addEntry entry entries ↔
      other ∈ entries ∨ other = entry ∧ entry.1 ∉ entries.map Prod.fst := by
  induction entries with
  | nil => simp [addEntry]
  | cons first rest ih =>
    rw [map_cons, pairwise_cons] at sorted
    rw [addEntry]
    split
    next less =>
      have absent : entry.1 ∉ (first :: rest).map Prod.fst := by
        intro member
        rcases mem_cons.mp member with isFirst | isLater
        · omega
        · have more := sorted.1 _ isLater
          omega
      rw [mem_cons, or_comm]
      exact or_congr Iff.rfl (iff_self_and.mpr fun _ => absent)
    next notLess =>
      split
      next more =>
        rw [mem_cons, ih sorted.2, mem_cons, or_assoc, map_cons, mem_cons, not_or]
        have differ : entry.1 ≠ first.1 := Nat.ne_of_gt more
        tauto
      next notMore =>
        have same : entry.1 = first.1 := by omega
        have present : entry.1 ∈ (first :: rest).map Prod.fst := by
          rw [same]
          exact mem_cons_self
        exact ⟨Or.inl, fun either => either.elim id fun new => absurd present new.2⟩

theorem addEntry_sorted {entries : List (Nat × δ)}
    (sorted : (entries.map Prod.fst).Pairwise (· < ·)) :
    ((addEntry entry entries).map Prod.fst).Pairwise (· < ·) := by
  induction entries with
  | nil => exact pairwise_singleton _ _
  | cons first rest ih =>
    have whole := sorted
    rw [map_cons, pairwise_cons] at sorted
    rw [addEntry]
    split
    next less =>
      rw [map_cons, pairwise_cons]
      refine ⟨?_, whole⟩
      intro key member
      rcases mem_cons.mp member with isFirst | isLater
      · exact isFirst ▸ less
      · exact Nat.lt_trans less (sorted.1 key isLater)
    next notLess =>
      split
      next more =>
        rw [map_cons, pairwise_cons]
        refine ⟨?_, ih sorted.2⟩
        intro key member
        obtain ⟨other, isOther, rfl⟩ := mem_map.mp member
        rcases (mem_addEntry sorted.2).mp isOther with isOld | ⟨isNew, -⟩
        · exact sorted.1 _ (mem_map_of_mem isOld)
        · rw [isNew]
          exact more
      next => exact whole

theorem ordered_node (ordered : (AvlTree.node fields left right).Ordered) :
    left.Ordered ∧ right.Ordered ∧
      (∀ entry ∈ left.entries, entry.1 < fields.key) ∧
      ∀ entry ∈ right.entries, fields.key < entry.1 := by
  unfold Ordered at ordered
  rw [entries, map_append, map_cons, pairwise_append, pairwise_cons] at ordered
  obtain ⟨first, ⟨after, second⟩, across⟩ := ordered
  refine ⟨first, second, ?_, ?_⟩
  · intro entry member
    exact across _ (mem_map_of_mem member) _ mem_cons_self
  · intro entry member
    exact after _ (mem_map_of_mem member)

theorem avlInsert_spec (node : AvlNode δ) (exact : tree.Exact)
    (ordered : tree.Ordered) (isFresh : node.flags = 0) :
    ∃ later, avlInsert tree node = some later ∧
      Rebalanced tree.height (addEntry (node.key, node.data) tree.entries)
        later := by
  induction tree with
  | null =>
    refine ⟨_, rfl, ?_, Or.inr rfl, rfl⟩
    refine ⟨rfl, isFresh, ?_, ?_, trivial, trivial⟩
    · dsimp only
      omega
    · dsimp only
      omega
  | node fields left right ihLeft ihRight =>
    have whole := exact
    have near := exact_heights exact
    obtain ⟨-, -, -, -, leftExact, rightExact⟩ := exact
    obtain ⟨leftOrdered, rightOrdered, less, more⟩ := ordered_node ordered
    rw [avlInsert]
    by_cases isLess : node.key < fields.key
    · rw [if_pos isLess]
      obtain ⟨grown, isGrown, grownExact, grownHeight, grownEntries⟩ := ihLeft leftExact leftOrdered
      obtain ⟨later, isLater, rebalanced, same⟩ :=
        avlUpdate_spec fields grownExact rightExact (by omega) (by omega)
      refine ⟨later, ?_, rebalanced.exact, ?_, ?_⟩
      · rw [isGrown]
        exact isLater
      · have after := rebalanced.height
        rw [height]
        omega
      · rw [rebalanced.entries, grownEntries, entries]
        exact (addEntry_before isLess _ _).symm
    · rw [if_neg isLess]
      by_cases isMore : fields.key < node.key
      · rw [if_pos isMore]
        obtain ⟨grown, isGrown, grownExact, grownHeight, grownEntries⟩ :=
          ihRight rightExact rightOrdered
        obtain ⟨later, isLater, rebalanced, same⟩ :=
          avlUpdate_spec fields leftExact grownExact (by omega) (by omega)
        refine ⟨later, ?_, rebalanced.exact, ?_, ?_⟩
        · rw [isGrown]
          exact isLater
        · have after := rebalanced.height
          rw [height]
          omega
        · rw [rebalanced.entries, grownEntries, entries, addEntry_after,
            addEntry, if_neg (Nat.lt_asymm isMore), if_pos isMore]
          intro entry member
          exact Nat.lt_trans (less entry member) isMore
      · rw [if_neg isMore]
        refine ⟨_, rfl, whole, Or.inl rfl, ?_⟩
        have same : node.key = fields.key := by omega
        rw [entries, addEntry_after, addEntry, if_neg isLess, if_neg isMore]
        intro entry member
        rw [same]
        exact less entry member

/-- The entry with the greatest key that is not larger than the searched
one. -/
def Floor (entries : List (Nat × δ)) (search : Nat) : Option (Nat × δ) → Prop
  | none => ∀ entry ∈ entries, search < entry.1
  | some found => found ∈ entries ∧ found.1 ≤ search ∧
      ∀ entry ∈ entries, entry.1 ≤ search → entry.1 ≤ found.1

def AvlNode.entry (node : AvlNode δ) : Nat × δ := (node.key, node.data)

theorem Floor.before {entries after : List (Nat × δ)} (floor : Floor entries search found)
    (larger : ∀ entry ∈ after, search < entry.1) :
    Floor (entries ++ after) search found := by
  cases found with
  | none =>
    intro entry member
    rcases mem_append.mp member with isOld | isNew
    · exact floor entry isOld
    · exact larger entry isNew
  | some found =>
    obtain ⟨member, isFloor, greatest⟩ := floor
    refine ⟨mem_append_left _ member, isFloor, ?_⟩
    intro entry inside small
    rcases mem_append.mp inside with isOld | isNew
    · exact greatest entry isOld small
    · have large := larger entry isNew
      omega

theorem Floor.after {before entries : List (Nat × δ)} (floor : Floor entries search (some found))
    (smaller : ∀ entry ∈ before, entry.1 ≤ found.1) :
    Floor (before ++ entries) search (some found) := by
  obtain ⟨member, isFloor, greatest⟩ := floor
  refine ⟨mem_append_right _ member, isFloor, ?_⟩
  intro entry inside small
  rcases mem_append.mp inside with isOld | isNew
  · exact smaller entry isOld
  · exact greatest entry isNew small

theorem Floor.here {before after : List (Nat × δ)} (small : middle.1 ≤ search)
    (smaller : ∀ entry ∈ before, entry.1 ≤ middle.1) (larger : ∀ entry ∈ after, search < entry.1) :
    Floor (before ++ middle :: after) search (some middle) := by
  have own : Floor [middle] search (some middle) := by
    refine ⟨mem_cons_self, small, ?_⟩
    intro entry member _
    exact Nat.le_of_eq (congrArg Prod.fst (mem_singleton.mp member))
  exact (own.before larger).after smaller

theorem avlSearch_floor (ordered : tree.Ordered) (search : Nat) :
    Floor tree.entries search ((avlSearch tree search).map AvlNode.entry) := by
  induction tree with
  | null => nofun
  | node fields left right ihLeft ihRight =>
    obtain ⟨leftOrdered, rightOrdered, less, more⟩ := ordered_node ordered
    rw [avlSearch, entries]
    split
    next isLess =>
      apply (ihLeft leftOrdered).before
      intro entry member
      rcases mem_cons.mp member with rfl | isRight
      · exact isLess
      · exact Nat.lt_trans isLess (more entry isRight)
    next notLess =>
      have atMost : fields.key ≤ search := Nat.le_of_not_lt notLess
      have leftAtMost : ∀ entry ∈ left.entries, entry.1 ≤ fields.key :=
        fun entry member => Nat.le_of_lt (less entry member)
      split
      next isMore =>
        have floor := ihRight rightOrdered
        cases isFound : avlSearch right search with
        | none =>
          rw [isFound] at floor
          exact Floor.here atMost leftAtMost floor
        | some res =>
          rw [isFound] at floor
          have larger := more res.entry floor.1
          rw [← singleton_append, ← append_assoc]
          apply floor.after
          intro entry member
          rcases mem_append.mp member with isLeft | isOwn
          · exact Nat.le_trans (leftAtMost entry isLeft) (Nat.le_of_lt larger)
          · rw [mem_singleton.mp isOwn]
            exact Nat.le_of_lt larger
      next notMore =>
        have same : search = fields.key := by omega
        apply Floor.here atMost leftAtMost
        rw [same]
        exact more

/-- All nodes are made and inserted one after the other. -/
def insertAll (nodes : List (Nat × δ)) : Option (AvlTree δ) :=
  nodes.foldlM (fun tree node => avlInsert tree (avlNew node.1 node.2)) .null

/-- The tree holds the first node of each key. -/
theorem insertAll_spec (nodes : List (Nat × δ)) :
    ∃ tree, insertAll nodes = some tree ∧ tree.Exact ∧ tree.Ordered ∧
      ∀ entry, entry ∈ tree.entries ↔ nodes.find? (fun node => node.1 = entry.1) = some entry := by
  induction nodes using List.reverseRecOn with
  | nil => exact ⟨.null, rfl, trivial, .nil, fun _ => ⟨nofun, nofun⟩⟩
  | append_singleton nodes node ih =>
    obtain ⟨tree, isTree, exact, ordered, holds⟩ := ih
    obtain ⟨later, isLater, rebalanced⟩ := avlInsert_spec (avlNew node.1 node.2) exact ordered rfl
    refine ⟨later, ?_, rebalanced.exact, ?_, ?_⟩
    · unfold insertAll at isTree ⊢
      rw [foldlM_append, isTree]
      change (avlInsert tree (avlNew node.1 node.2)).bind some = some later
      rw [isLater]
      rfl
    · unfold Ordered
      rw [rebalanced.entries]
      exact addEntry_sorted ordered
    · intro entry
      rw [rebalanced.entries, mem_addEntry ordered, holds, List.find?_append]
      have present : ∀ other, nodes.find? (fun first =>
          first.1 = entry.1) = some other → entry.1 ∈ tree.entries.map Prod.fst := by
        intro other isOther
        have test := List.find?_some isOther
        have sameKey : other.1 = entry.1 := of_decide_eq_true test
        rw [← sameKey] at isOther ⊢
        exact mem_map_of_mem ((holds other).mpr isOther)
      cases isFound : nodes.find? fun first => first.1 = entry.1 with
      | some other =>
        rw [Option.some_or]
        refine ⟨fun either => either.elim id ?_, Or.inl⟩
        rintro ⟨rfl, absent⟩
        exact absurd (present other isFound) absent
      | none =>
        rw [Option.none_or, List.find?_singleton]
        constructor
        · rintro (isNone | ⟨rfl, -⟩)
          · cases isNone
          · exact if_pos (decide_eq_true rfl)
        · intro isNode
          split at isNode
          · have same := Option.some.inj isNode
            refine Or.inr ⟨same.symm, ?_⟩
            intro member
            obtain ⟨other, isOther, sameKey⟩ := mem_map.mp member
            have isFirst := (holds other).mp isOther
            rw [sameKey, same] at isFirst
            cases isFirst.symm.trans isFound
          · cases isNode

/-- The tree is ordered and exact after every sequence of insertions, holds the
first node of each key, and is searched for the greatest key that is not
larger. -/
theorem avl_tree_correct (nodes : List (Nat × δ)) :
    ∃ tree, insertAll nodes = some tree ∧ tree.Ordered ∧ tree.Exact ∧
      (∀ entry, entry ∈ tree.entries ↔ nodes.find? (fun node => node.1 = entry.1) = some entry) ∧
      ∀ search, Floor tree.entries search ((avlSearch tree search).map AvlNode.entry) := by
  obtain ⟨tree, isTree, exact, ordered, holds⟩ := insertAll_spec nodes
  exact ⟨tree, isTree, ordered, exact, holds, avlSearch_floor ordered⟩

end Reverse.DebugHelper
