import Reverse.Decopus.AvlEdit

/-!
# The tree as an ordered map

What `AVL_add` and `AVL_rem` do to the sorted list of the nodes with their keys
and data, and what the other functions read from it.
-/

namespace Reverse.Decopus

open Avl Relation AvlTree
open List hiding after

/-- A node of the tree with its key and its data. -/
structure Entry (κ δ : Type) where
  key : κ
  node : NodePtr
  data : δ

inductive AvlOp (κ δ : Type) where
  | add (key : κ) (hint : Option NodePtr)
  | rem (node : NodePtr)
  | store (node : NodePtr) (data : δ)

inductive AvlResult where
  | added (new : Bool) (node : NodePtr)
  | done
deriving DecidableEq

section

variable {κ δ : Type} [LinearOrder κ]

/-- What an operation does to the ordered map.  The data of a new node are
whatever its memory holds. -/
inductive MapStep : List (Entry κ δ) → AvlOp κ δ → AvlResult →
    List (Entry κ δ) → Prop
  | found {entries : List (Entry κ δ)} {entry : Entry κ δ}
      {hint : Option NodePtr} (member : entry ∈ entries) :
      MapStep entries (.add entry.key hint) (.added false entry.node) entries
  | insert {before after : List (Entry κ δ)} {entry : Entry κ δ}
      {hint : Option NodePtr}
      (lower : ∀ other ∈ before, other.key < entry.key)
      (upper : ∀ other ∈ after, entry.key < other.key)
      (fresh : ∀ other ∈ before ++ after, other.node ≠ entry.node) :
      MapStep (before ++ after) (.add entry.key hint)
        (.added true entry.node) (before ++ entry :: after)
  | rem {before after : List (Entry κ δ)} {entry : Entry κ δ} :
      MapStep (before ++ entry :: after) (.rem entry.node) .done
        (before ++ after)
  | store {before after : List (Entry κ δ)} {entry : Entry κ δ} {data : δ} :
      MapStep (before ++ entry :: after) (.store entry.node data) .done
        (before ++ { entry with data := data } :: after)

inductive MapRun : List (Entry κ δ) → List (AvlOp κ δ) → List AvlResult →
    List (Entry κ δ) → Prop
  | nil {entries : List (Entry κ δ)} : MapRun entries [] [] entries
  | cons {first second third : List (Entry κ δ)} {op : AvlOp κ δ}
      {ops : List (AvlOp κ δ)} {result : AvlResult} {results : List AvlResult}
      (step : MapStep first op result second)
      (run : MapRun second ops results third) :
      MapRun first (op :: ops) (result :: results) third

/-- Every loop goes along different nodes of the pool. -/
def AvlTree.loopBound (tree : AvlTree κ δ) : Nat :=
  tree.nbnode + 1

def avlStep (tree : AvlTree κ δ) : AvlOp κ δ → Option (AvlTree κ δ × AvlResult)
  | .add key hint =>
    (avlAdd tree tree.loopBound key hint).map fun (tree, new, node) =>
      (tree, .added new node)
  | .rem node => (avlRem tree tree.loopBound node).map (·, .done)
  | .store node data =>
    some (tree.modify node fun it => { it with data := data }, .done)

def avlRun (tree : AvlTree κ δ) : List (AvlOp κ δ) → Option (AvlTree κ δ × List AvlResult)
  | [] => some (tree, [])
  | op :: ops =>
    (avlStep tree op).bind fun (tree, result) =>
      (avlRun tree ops).map fun (tree, results) => (tree, result :: results)

/-- The node is an ancestor of another one, or the same. -/
def Ancestor (tree : AvlTree κ δ) (p above : NodePtr) : Prop :=
  ReflTransGen (fun q r => (tree.nodes q).father = some r) p above

/-- The node has the key, or it is the next one before or after the key. -/
def Closest (tree : AvlTree κ δ) (target : κ) (p : NodePtr) : Prop :=
  Present tree p ∧ ∀ q, Present tree q →
    ¬(tree.key p < tree.key q ∧ tree.key q ≤ target) ∧
      ¬(target ≤ tree.key q ∧ tree.key q < tree.key p)

/-- What `AVL_add` and `AVL_rem` demand. -/
def Valid (tree : AvlTree κ δ) : AvlOp κ δ → Prop
  | .add key hint =>
    ∀ above ∈ hint, ∃ p, Closest tree key p ∧ Ancestor tree p above
  | .rem node => Present tree node
  | .store node _ => Present tree node

def ValidRun (tree : AvlTree κ δ) : List (AvlOp κ δ) → Prop
  | [] => True
  | op :: ops =>
    Valid tree op ∧ ∀ later result, avlStep tree op = some (later, result) → ValidRun later ops

/-- The tree is a balanced search tree with the entries, and the functions that
read it agree with their order. -/
structure Agrees (tree : AvlTree κ δ) (entries : List (Entry κ δ)) : Prop where
  sorted : entries.Pairwise fun left right => left.key < right.key
  values : ∀ entry ∈ entries, (tree.nodes entry.node).key = entry.key ∧
    (tree.nodes entry.node).data = entry.data
  present : ∀ p, Present tree p ↔ p ∈ entries.map Entry.node
  shape : ∃ shape, Zip tree [] shape ∧ shape.Balanced ∧
    shape.toList = entries.map Entry.node
  find : ∀ target, ∃ found node,
    avlFind tree tree.loopBound target = some (found, node) ∧
      (found = true ↔ ∃ entry ∈ entries, entry.key = target) ∧
      (∀ entry ∈ entries, entry.key = target → node = some entry.node) ∧
      (node = none → entries = []) ∧ ∀ p ∈ node, Closest tree target p
  first : avlFirst tree tree.loopBound = some (entries.head?.map Entry.node)
  last : avlLast tree tree.loopBound = some (entries.getLast?.map Entry.node)
  prev : ∀ before entry after, entries = before ++ entry :: after →
    avlPrev tree tree.loopBound entry.node =
      some (before.getLast?.map Entry.node)
  next : ∀ before entry after, entries = before ++ entry :: after →
    avlNext tree tree.loopBound entry.node = some (after.head?.map Entry.node)

/-- The tree represents the map, and the free nodes are not in it. -/
structure Represents (tree : AvlTree κ δ) (entries : List (Entry κ δ))
    (shape : Shape NodePtr) : Prop where
  zip : Zip tree [] shape
  balanced : shape.Balanced
  labels : shape.toList = entries.map Entry.node
  sorted : entries.Pairwise fun left right => left.key < right.key
  key : ∀ entry ∈ entries, tree.key entry.node = entry.key
  data : ∀ entry ∈ entries, (tree.nodes entry.node).data = entry.data
  allocated : ∀ p ∈ shape.toList, p < tree.nbnode
  free : ∀ p ∈ tree.free, p < tree.nbnode ∧ p ∉ shape.toList
  distinct : tree.free.Nodup

variable {tree : AvlTree κ δ} {entries : List (Entry κ δ)} {shape : Shape NodePtr}

namespace Represents

section

variable (holds : Represents tree entries shape)

include holds

theorem nodup : shape.toList.Nodup := by
  have nodup := holds.zip.nodup
  rw [Decopus.labels, append_nil] at nodup
  exact nodup

theorem length_le : shape.toList.length ≤ tree.nbnode := by
  have inside : shape.toList ⊆ List.range tree.nbnode := by
    intro p member
    exact mem_range.mpr (holds.allocated p member)
  have bound := (holds.nodup.subperm inside).length_le
  rw [length_range] at bound
  exact bound

theorem length_le_loopBound : shape.toList.length ≤ tree.loopBound :=
  Nat.le_succ_of_le holds.length_le

theorem ordered : Ordered tree.key shape.toList := by
  unfold Ordered
  rw [holds.labels, pairwise_map]
  apply holds.sorted.imp_of_mem
  intro left right inLeft inRight less
  rw [holds.key left inLeft, holds.key right inRight]
  exact less

end

end Represents

theorem Zip.closest_iff (zip : Zip tree [] shape) :
    Closest tree target p ↔ Nearest tree.key target shape.toList p := by
  unfold Closest Nearest
  simp only [zip.present_iff]

/-- Where the search for a key ends. -/
structure Search (tree : AvlTree κ δ) (shape : Shape NodePtr) (target : κ)
    (path : List (Frame NodePtr)) (rest : Shape NodePtr) : Prop where
  split : shape = plug path rest
  leads : Leads tree.key target path
  stops : ∀ p ∈ rest.root?, tree.key p = target

namespace Represents

theorem search_depth (holds : Represents tree entries shape)
    (search : Search tree shape target path rest) :
    path.length < tree.loopBound := by
  have bound := holds.length_le
  have depth := length_le_plug path rest
  rw [← search.split] at depth
  unfold AvlTree.loopBound
  omega

theorem focus (holds : Represents tree (front ++ entry :: back) shape) :
    ∃ path balance child, shape = plug path (.node entry.node balance child) ∧
      following .left path child = front.map Entry.node ∧
      following .right path child = back.map Entry.node := by
  have isLabels := holds.labels
  have nodup := holds.nodup
  have member : entry.node ∈ shape.toList := by
    rw [isLabels]
    exact mem_map_of_mem (by simp)
  obtain ⟨path, balance, child, rfl⟩ := exists_plug member
  rw [toList_following, nodup_middle, nodup_cons, mem_append, not_or] at nodup
  rw [toList_following, map_append, map_cons] at isLabels
  obtain ⟨isFront, -, isBack⟩ := (append_cons_inj_of_notMem nodup.1.1 nodup.1.2).mp isLabels
  exact ⟨path, balance, child, rfl, isFront, isBack⟩

theorem prev_next (holds : Represents tree (front ++ entry :: back) shape) :
    avlPrev tree tree.loopBound entry.node = some (front.getLast?.map Entry.node) ∧
      avlNext tree tree.loopBound entry.node = some (back.head?.map Entry.node) := by
  obtain ⟨path, balance, child, rfl, isFront, isBack⟩ := holds.focus
  have zip := zip_plug.mp holds.zip
  have bound := holds.length_le_loopBound
  constructor
  · rw [avlPrev, avlNeighbour_zip zip bound, isFront, ← List.getLast?_map]
    rfl
  · rw [avlNext, avlNeighbour_zip zip bound, isBack, ← List.head?_map]
    rfl

section

variable (holds : Represents tree entries shape)

include holds

theorem search_absent (search : Search tree shape target path .nil) :
    (∀ p ∈ before path, tree.key p < target) ∧
      (∀ p ∈ after path, target < tree.key p) ∧
      shape.toList = before path ++ after path := by
  have ordered := holds.ordered
  have labels := toList_plug path (.nil : Shape NodePtr)
  rw [search.split] at ordered ⊢
  obtain ⟨lower, upper⟩ := search.leads.separates ordered
  refine ⟨lower, upper, ?_⟩
  rw [labels, Shape.toList, append_nil]

theorem closest_absent (search : Search tree shape target path .nil) :
    Closest tree target p ↔ (before path).getLast? = some p ∨ (after path).head? = some p := by
  obtain ⟨lower, upper, labels⟩ := holds.search_absent search
  have ordered := holds.ordered
  rw [holds.zip.closest_iff, labels]
  rw [labels] at ordered
  exact nearest_absent ordered lower upper

theorem find (target : κ) :
    ∃ found node,
      avlFind tree tree.loopBound target = some (found, node) ∧
        (found = true ↔ ∃ entry ∈ entries, entry.key = target) ∧
        (∀ entry ∈ entries, entry.key = target → node = some entry.node) ∧
        (node = none → entries = []) ∧
        ∀ p ∈ node, Closest tree target p := by
  obtain ⟨path, rest, split, leads, stops⟩ := exists_search tree.key target shape
  have search : Search tree shape target path rest := ⟨split, leads, stops⟩
  have isRoot : tree.root = shape.root? := holds.zip.above
  have finds : avlPlace tree.nodes target tree.loopBound none .left
      (plug path rest).root? =
        some (rest.root?, (place path).elim none (some ·.1), (place path).elim .left (·.2)) := by
    exact avlPlace_plug none .left (split ▸ holds.zip.links) leads stops (holds.search_depth search)
  have keys : ∀ entry ∈ entries, entry.node ∈ shape.toList ∧ tree.key entry.node = entry.key := by
    intro entry member
    rw [holds.labels]
    exact ⟨mem_map_of_mem member, holds.key entry member⟩
  rw [avlFind, avlFindLoop_eq _ _ _ _ _ .left, isRoot, split, finds]
  refine ⟨_, _, rfl, ?_⟩
  cases rest with
  | nil =>
    obtain ⟨lower, upper, labels⟩ := holds.search_absent search
    have absent : ∀ entry ∈ entries, entry.key ≠ target := by
      intro entry member isTarget
      obtain ⟨inside, isKey⟩ := keys entry member
      rw [labels, mem_append] at inside
      rcases inside with isBefore | isAfter
      · exact (lower _ isBefore).ne (isKey.trans isTarget)
      · exact (upper _ isAfter).ne' (isKey.trans isTarget)
    refine ⟨⟨by simp [Shape.root?], ?_⟩, ?_, ?_, ?_⟩
    · rintro ⟨entry, member, isTarget⟩
      exact absurd isTarget (absent entry member)
    · intro entry member isTarget
      exact absurd isTarget (absent entry member)
    · intro isNone
      cases path with
      | nil =>
        have nothing := holds.labels
        rw [split] at nothing
        exact map_eq_nil_iff.mp nothing.symm
      | cons frame path => cases isNone
    · intro p isLast
      rw [holds.closest_absent search]
      cases path with
      | nil => cases isLast
      | cons frame path =>
        cases isLast
        rw [before, after, Frame.before, Frame.after]
        cases frame.side with
        | left => exact .inr rfl
        | right => simp
  | node q balance child =>
    have isTarget := stops q rfl
    have inside : q ∈ shape.toList := by
      rw [split, toList_plug]
      exact mem_append_left _ (mem_append_right _ (root_mem_toList rfl))
    refine ⟨⟨fun _ => ?_, fun _ => rfl⟩, ?_, by simp [Shape.root?], ?_⟩
    · have member := inside
      rw [holds.labels, mem_map] at member
      obtain ⟨entry, isEntry, rfl⟩ := member
      exact ⟨entry, isEntry, (holds.key entry isEntry).symm.trans isTarget⟩
    · intro entry member isKey
      obtain ⟨alsoInside, sameKey⟩ := keys entry member
      have nearest := nearest_of_eq alsoInside (sameKey.trans isKey)
      exact congrArg some (nearest_present holds.ordered inside isTarget nearest).symm
    · intro p isFound
      cases isFound
      rw [holds.zip.closest_iff]
      exact nearest_of_eq inside isTarget

theorem agrees : Agrees tree entries where
  sorted := holds.sorted
  values entry member :=
    ⟨holds.key entry member, holds.data entry member⟩
  present p := by
    rw [holds.zip.present_iff, holds.labels]
  shape := ⟨shape, holds.zip, holds.balanced, holds.labels⟩
  find := holds.find
  first := by
    rw [avlFirst, avlEnd_zip holds.zip holds.length_le_loopBound, holds.labels, ← List.head?_map]
    rfl
  last := by
    rw [avlLast, avlEnd_zip holds.zip holds.length_le_loopBound, holds.labels, ← List.getLast?_map]
    rfl
  prev before entry after split := by
    subst split
    exact holds.prev_next.1
  next before entry after split := by
    subst split
    exact holds.prev_next.2

end

theorem on_path (holds : Represents tree entries shape)
    (search : Search tree shape target path rest)
    (closest : Closest tree target p) (ancestor : Ancestor tree p above) :
    above ∈ path.map Frame.label ∨ above ∈ rest.root? := by
  have zip : Zip tree path rest := zip_plug.mp (search.split ▸ holds.zip)
  induction ancestor with
  | refl =>
    cases rest with
    | nil =>
      left
      rcases (holds.closest_absent search).mp closest with
        isLast | isFirst
      · exact next_mem_path (show Side.left.other.end? (beside .left path) = _ from isLast)
      · exact next_mem_path (show Side.right.other.end? (beside .right path) = _ from isFirst)
    | node q balance child =>
      right
      have inside : q ∈ shape.toList := by
        rw [search.split, toList_plug]
        exact mem_append_left _ (mem_append_right _ (root_mem_toList rfl))
      rw [nearest_present holds.ordered inside (search.stops q rfl)
        (holds.zip.closest_iff.mp closest)]
      rfl
  | tail _ step onPath => exact .inl (zip.father_on_path onPath step)

theorem avlSearch_eq (holds : Represents tree entries shape)
    (search : Search tree shape target path rest) (valid : Valid tree (.add target hint)) :
    ∃ last side,
      avlSearch tree tree.loopBound target hint = some (rest.root?, last, side) ∧
      (rest = .nil → last = (place path).map Prod.fst ∧ ∀ below ∈ place path, side = below.2) := by
  have depth := holds.search_depth search
  have zip : Zip tree path rest := zip_plug.mp (search.split ▸ holds.zip)
  cases hint with
  | none =>
    have isRoot : tree.root = (plug path rest).root? := search.split ▸ holds.zip.above
    have walks := avlPlace_plug none .left
      (search.split ▸ holds.zip.links) search.leads search.stops depth
    rw [← isRoot] at walks
    refine ⟨_, _, walks, fun _ => ⟨?_, fun below isPlace => ?_⟩⟩
    · cases path <;> rfl
    · rw [Option.mem_def.mp isPlace]
      rfl
  | some above =>
    obtain ⟨p, closest, ancestor⟩ := valid above rfl
    rcases holds.on_path search closest ancestor with onPath | isRoot
    · obtain ⟨frame, member, rfl⟩ := mem_map.mp onPath
      obtain ⟨inner, outer, rfl⟩ := append_of_mem member
      have below : Zip tree outer (plug (inner ++ [frame]) rest) := by
        rw [← zip_append, append_assoc]
        exact zip
      have leads : Leads tree.key target (inner ++ [frame]) := by
        intro lower inside
        apply search.leads lower
        rw [mem_append, mem_singleton] at inside
        rcases inside with isInner | rfl
        · exact mem_append_left _ isInner
        · exact member
      have shorter : (inner ++ [frame]).length < tree.loopBound := by
        rw [length_append, length_cons] at depth
        rw [length_append, length_singleton]
        omega
      have walks := avlPlace_plug (tree.nodes frame.label).father
        (tree.nodes frame.label).side below.links leads search.stops shorter
      rw [plug_concat] at walks
      refine ⟨_, _, walks, fun _ => ⟨?_, fun below isPlace => ?_⟩⟩
      · cases inner <;> rfl
      · cases inner <;> cases isPlace <;> rfl
    · have found : rest.root? = some above := isRoot
      have nothing : Leads tree.key target [] := by simp [Leads]
      have walks := avlPlace_plug (tree.nodes above).father
        (tree.nodes above).side zip.links nothing search.stops
        (Nat.succ_pos tree.nbnode)
      rw [plug, found] at walks
      rw [found]
      refine ⟨_, _, walks, fun isNil => ?_⟩
      rw [isNil] at found
      cases found

section

variable (holds : Represents tree entries shape)

include holds

theorem create :
    (avlNodeCreate tree).1 ∉ shape.toList ∧
      (avlNodeCreate tree).1 < (avlNodeCreate tree).2.nbnode ∧
      tree.nbnode ≤ (avlNodeCreate tree).2.nbnode ∧
      (avlNodeCreate tree).2.free.Nodup ∧
      ∀ p ∈ (avlNodeCreate tree).2.free,
        p < (avlNodeCreate tree).2.nbnode ∧ p ≠ (avlNodeCreate tree).1 ∧ p ∉ shape.toList := by
  have free := holds.free
  have distinct := holds.distinct
  unfold avlNodeCreate
  cases isFree : tree.free with
  | nil =>
    have outside : ∀ p, tree.nbnode ≤ p → p ∉ shape.toList := by
      intro p large member
      exact absurd (holds.allocated p member) (not_lt_of_ge large)
    refine ⟨outside _ (Nat.le_refl _), ?_, Nat.le_add_right _ _, ?_, ?_⟩
    · exact Nat.lt_add_of_pos_right (by decide)
    · refine nodup_range.map ?_
      intro left right same
      exact Nat.add_left_cancel same
    · intro p member
      obtain ⟨i, inside, rfl⟩ := mem_map.mp member
      have small : i < 99 := mem_range.mp inside
      refine ⟨?_, ?_, outside _ ?_⟩
      · exact Nat.add_lt_add_left small (tree.nbnode + 1)
      · change tree.nbnode + 1 + i ≠ tree.nbnode
        omega
      · change tree.nbnode ≤ tree.nbnode + 1 + i
        omega
  | cons node rest =>
    rw [isFree] at free distinct
    rw [nodup_cons] at distinct
    have isFirst := free node mem_cons_self
    refine ⟨isFirst.2, isFirst.1, Nat.le_refl _, distinct.2, ?_⟩
    intro p member
    have isFree := free p (mem_cons_of_mem _ member)
    refine ⟨isFree.1, ?_, isFree.2⟩
    rintro rfl
    exact distinct.1 member

theorem add_found (search : Search tree shape target path (.node q balance child))
    (valid : Valid tree (.add target hint)) :
    avlStep tree (.add target hint) = some (tree, .added false q) ∧
      MapStep entries (.add target hint) (.added false q) entries := by
  obtain ⟨last, side, searches, -⟩ := holds.avlSearch_eq search valid
  constructor
  · rw [avlStep, avlAdd, searches]
    rfl
  · have inside : q ∈ shape.toList := by
      rw [search.split, toList_plug]
      exact mem_append_left _ (mem_append_right _ (root_mem_toList rfl))
    rw [holds.labels, mem_map] at inside
    obtain ⟨entry, member, rfl⟩ := inside
    rw [← search.stops _ rfl, holds.key entry member]
    exact .found member

theorem add_absent (search : Search tree shape target path .nil)
    (valid : Valid tree (.add target hint)) :
    ∃ later result now shape, avlStep tree (.add target hint) = some (later, result) ∧
      MapStep entries (.add target hint) result now ∧
      Represents later now shape := by
  obtain ⟨last, side, searches, places⟩ := holds.avlSearch_eq search valid
  obtain ⟨isLast, isSide⟩ := places rfl
  obtain ⟨lower, upper, labels⟩ := holds.search_absent search
  obtain ⟨fresh, inPool, morePool, distinct, free⟩ := holds.create
  have zip : Zip tree path .nil := zip_plug.mp (search.split ▸ holds.zip)
  have fits : Fits path 0 := (balanced_plug.mp (search.split ▸ holds.balanced)).2
  have outside : (avlNodeCreate tree).1 ∉ Decopus.labels path := by
    have order := plug_perm path .nil
    rw [← search.split] at order
    exact order.mem_iff.not.mp fresh
  obtain ⟨later, performs, done, added⟩ := avlAdd_absent zip searches isLast
    isSide fits outside (holds.search_depth search).le
  have entriesSplit := holds.labels.symm.trans labels
  obtain ⟨front, back, rfl, isBefore, isAfter⟩ := map_eq_append_iff.mp entriesSplit
  have kept : ∀ other ∈ front ++ back,
      other.node ≠ (avlNodeCreate tree).1 ∧ later.key other.node = other.key := by
    intro other member
    have differ : other.node ≠ (avlNodeCreate tree).1 := by
      intro same
      apply fresh
      rw [holds.labels, ← same]
      exact mem_map_of_mem member
    refine ⟨differ, ?_⟩
    rw [added.key, Function.update_of_ne differ]
    exact holds.key other member
  have smaller : ∀ other ∈ front, other.key < target := by
    intro other member
    rw [← holds.key other (mem_append_left _ member)]
    apply lower
    rw [← isBefore]
    exact mem_map_of_mem member
  have larger : ∀ other ∈ back, target < other.key := by
    intro other member
    rw [← holds.key other (mem_append_right _ member)]
    apply upper
    rw [← isAfter]
    exact mem_map_of_mem member
  have newLabels : (ascend true 1 path
      (leaf (avlNodeCreate tree).1)).toList =
        before path ++ (avlNodeCreate tree).1 :: after path := by
    rw [ascend_toList]
    simp [leaf, Shape.toList]
  have members : ∀ p, p ∈ (ascend true 1 path
      (leaf (avlNodeCreate tree).1)).toList ↔ p = (avlNodeCreate tree).1 ∨ p ∈ shape.toList := by
    intro p
    rw [newLabels, labels, perm_middle.mem_iff, mem_cons]
  let entry : Entry κ δ := ⟨target, (avlNodeCreate tree).1,
    (later.nodes (avlNodeCreate tree).1).data⟩
  have step : MapStep (front ++ back) (.add entry.key hint)
      (.added true entry.node) (front ++ entry :: back) :=
    .insert smaller larger fun other member => (kept other member).1
  have known : ∀ other ∈ front ++ entry :: back, other = entry ∨ other ∈ front ++ back := by
    intro other member
    rw [perm_middle.mem_iff, mem_cons] at member
    exact member
  refine ⟨later, _, _, _, ?_, step, done, ?_, ?_, ?_, ?_, ?_, ?_, ?_, ?_⟩
  · rw [avlStep, performs]
    rfl
  · exact ascend_balanced ⟨rfl, by decide, by decide, fun _ => trivial⟩ rfl rfl fits
  · rw [newLabels, ← isBefore, ← isAfter]
    simp [entry]
  · have sorted := pairwise_append.mp holds.sorted
    rw [pairwise_append, pairwise_cons]
    refine ⟨sorted.1, ⟨larger, sorted.2.1⟩, ?_⟩
    intro left inFront right inBack
    rcases mem_cons.mp inBack with rfl | isBack
    · exact smaller left inFront
    · exact sorted.2.2 left inFront right isBack
  · intro other member
    rcases known other member with rfl | old
    · rw [added.key]
      exact Function.update_self ..
    · exact (kept other old).2
  · intro other member
    rcases known other member with rfl | old
    · rfl
    · rw [added.data]
      exact holds.data other old
  · intro p member
    rw [added.nbnode]
    rcases (members p).mp member with rfl | old
    · exact inPool
    · exact Nat.lt_of_lt_of_le (holds.allocated p old) morePool
  · intro p member
    rw [added.free] at member
    obtain ⟨small, notNew, notOld⟩ := free p member
    rw [added.nbnode, members]
    exact ⟨small, fun either => either.elim notNew notOld⟩
  · rw [added.free]
    exact distinct

theorem split_at (present : Present tree p) :
    ∃ front entry back, entries = front ++ entry :: back ∧ entry.node = p := by
  rw [holds.zip.present_iff, holds.labels, mem_map] at present
  obtain ⟨entry, member, isNode⟩ := present
  obtain ⟨front, back, split⟩ := append_of_mem member
  exact ⟨front, entry, back, split, isNode⟩

theorem rem (present : Present tree p) :
    ∃ later result now shape, avlStep tree (.rem p) = some (later, result) ∧
      MapStep entries (.rem p) result now ∧ Represents later now shape := by
  obtain ⟨front, entry, back, rfl, rfl⟩ := holds.split_at present
  obtain ⟨path, balance, child, rfl, isFront, isBack⟩ := holds.focus
  obtain ⟨later, shape, performs, done, balanced, labels, relinked⟩ :=
    avlRem_zip (zip_plug.mp holds.zip) holds.balanced holds.length_le_loopBound
  have nodup := holds.nodup
  rw [toList_following, nodup_middle, nodup_cons] at nodup
  have rest : shape.toList = following .left path child ++ following .right path child := by
    rw [labels]
    simp [following]
  have old : ∀ q ∈ shape.toList, q ∈ (plug path (.node entry.node balance child)).toList := by
    intro q member
    rw [toList_following, perm_middle.mem_iff]
    exact mem_cons_of_mem _ (rest ▸ member)
  have kept : (front ++ back).Sublist (front ++ entry :: back) :=
    (List.Sublist.refl _).append (sublist_cons_self _ _)
  refine ⟨later, .done, front ++ back, shape, ?_, .rem, done, balanced, ?_,
    holds.sorted.sublist kept, ?_, ?_, ?_, ?_, ?_⟩
  · rw [avlStep, performs]
    rfl
  · rw [rest, isFront, isBack, map_append]
  · intro other member
    exact (relinked.key _).trans (holds.key other (kept.subset member))
  · intro other member
    exact (relinked.data _).trans (holds.data other (kept.subset member))
  · intro q member
    rw [relinked.nbnode]
    exact holds.allocated q (old q member)
  · intro q member
    rw [relinked.free] at member
    rw [relinked.nbnode]
    rcases mem_cons.mp member with rfl | isFree
    · refine ⟨holds.allocated _ ?_, ?_⟩
      · rw [toList_following]
        simp
      · rw [rest]
        exact nodup.1
    · obtain ⟨small, outside⟩ := holds.free q isFree
      exact ⟨small, fun member => outside (old q member)⟩
  · rw [relinked.free]
    refine holds.distinct.cons fun isFree => ?_
    apply (holds.free _ isFree).2
    rw [toList_following]
    simp

end

theorem store {data : δ} (holds : Represents tree entries shape) (present : Present tree p) :
    ∃ later result now shape,
      avlStep tree (.store p data) = some (later, result) ∧
      MapStep entries (.store p data) result now ∧
      Represents later now shape := by
  obtain ⟨front, entry, back, rfl, rfl⟩ := holds.split_at present
  have nodup := holds.nodup
  rw [holds.labels, map_append, map_cons, nodup_middle, nodup_cons, ← map_append] at nodup
  let later := tree.modify entry.node fun it => { it with data := data }
  have same : ∀ q, (later.nodes q).Same (tree.nodes q) ∧ later.key q = tree.key q := by
    intro q
    by_cases isNode : q = entry.node
    · rw [isNode, AvlTree.key, modify_self]
      exact ⟨⟨rfl, rfl, rfl, rfl⟩, rfl⟩
    · rw [AvlTree.key, modify_ne _ _ isNode]
      exact ⟨.refl _, rfl⟩
  have known : ∀ other ∈ front ++ { entry with data := data } :: back,
      other = { entry with data := data } ∨ other ∈ front ++ back := by
    intro other member
    rw [perm_middle.mem_iff, mem_cons] at member
    exact member
  have kept : (front ++ back).Sublist (front ++ entry :: back) :=
    (List.Sublist.refl _).append (sublist_cons_self _ _)
  have inside : entry ∈ front ++ entry :: back := by simp
  refine ⟨later, .done, _, shape, rfl, .store,
    holds.zip.congr rfl fun q _ => (same q).1, holds.balanced, ?_,
    ?_, ?_, ?_, holds.allocated, holds.free, holds.distinct⟩
  · rw [holds.labels]
    simp
  · have sorted := holds.sorted
    rw [pairwise_append, pairwise_cons] at sorted ⊢
    obtain ⟨inFront, inBack, across⟩ := sorted
    refine ⟨inFront, inBack, fun left isFront right member => ?_⟩
    rcases mem_cons.mp member with rfl | isBack
    · exact across left isFront entry mem_cons_self
    · exact across left isFront right (mem_cons_of_mem _ isBack)
  · intro other member
    rw [(same _).2]
    rcases known other member with rfl | old
    · exact holds.key entry inside
    · exact holds.key other (kept.subset old)
  · intro other member
    rcases known other member with rfl | old
    · exact congrArg AvlNode.data (modify_self ..)
    · have differ : other.node ≠ entry.node := by
        intro isNode
        apply nodup.1
        rw [← isNode]
        exact mem_map_of_mem old
      rw [modify_ne _ _ differ]
      exact holds.data other (kept.subset old)

theorem step (holds : Represents tree entries shape) (valid : Valid tree op) :
    ∃ later result now shape, avlStep tree op = some (later, result) ∧
      MapStep entries op result now ∧ Represents later now shape := by
  cases op with
  | add target hint =>
    obtain ⟨path, rest, split, leads, stops⟩ := exists_search tree.key target shape
    cases rest with
    | nil => exact holds.add_absent ⟨split, leads, stops⟩ valid
    | node q balance child =>
      obtain ⟨performs, maps⟩ := holds.add_found ⟨split, leads, stops⟩ valid
      exact ⟨tree, _, entries, shape, performs, maps, holds⟩
  | rem node => exact holds.rem valid
  | store node data => exact holds.store valid

theorem run (holds : Represents tree entries shape) (valid : ValidRun tree ops) :
    ∃ later results now shape, avlRun tree ops = some (later, results) ∧
      MapRun entries ops results now ∧ Represents later now shape := by
  induction ops generalizing tree entries shape with
  | nil => exact ⟨tree, [], entries, shape, rfl, .nil, holds⟩
  | cons op ops ih =>
    obtain ⟨middle, result, between, _, performs, maps, holds⟩ := holds.step valid.1
    obtain ⟨later, results, now, last, runs, mapsOn, final⟩ :=
      ih holds (valid.2 middle result performs)
    refine ⟨later, result :: results, now, last, ?_, .cons maps mapsOn, final⟩
    rw [avlRun, performs, Option.bind_some]
    exact congrArg (Option.map _) runs

end Represents

theorem represents_init (nodes : NodePtr → AvlNode κ δ) : Represents (avlInit nodes) [] .nil :=
  ⟨⟨rfl, trivial, .nil⟩, trivial, rfl, .nil, nofun, nofun, nofun, nofun, .nil⟩

/-- Every run of the tree is a run of the ordered map. -/
theorem avl_refines_map (nodes : NodePtr → AvlNode κ δ)
    (ops : List (AvlOp κ δ)) (valid : ValidRun (avlInit nodes) ops) :
    ∃ tree results entries,
      avlRun (avlInit nodes) ops = some (tree, results) ∧
        MapRun [] ops results entries ∧ Agrees tree entries := by
  obtain ⟨tree, results, entries, shape, performs, maps, holds⟩ := (represents_init nodes).run valid
  exact ⟨tree, results, entries, performs, maps, holds.agrees⟩

end

/-- Three keys are added, the second one with a hint, and the third one with a
rotation.  The node that was the root is removed. -/
def rotatingRun : List (AvlOp Nat Unit) :=
  [.add 5 none, .add 3 (some 0), .add 1 none, .rem 0]

def blankNodes (_ : NodePtr) : AvlNode Nat Unit :=
  { father := none, child := fun _ => none, balance := 0, side := .left
    key := 0, data := () }

theorem avl_refines_map_rotation :
    ValidRun (avlInit blankNodes) rotatingRun ∧
      ∃ tree results entries,
        avlRun (avlInit blankNodes) rotatingRun = some (tree, results) ∧ tree.root = some 1 ∧
          MapRun [] rotatingRun results entries ∧ Agrees tree entries := by
  have valid : ValidRun (avlInit blankNodes) rotatingRun := by
    refine ⟨nofun, ?_⟩
    intro first result step
    cases step
    refine ⟨?_, ?_⟩
    · rintro above ⟨⟩
      refine ⟨0, ⟨⟨0, rfl, .refl⟩, ?_⟩, .refl⟩
      rintro q ⟨root, ⟨⟩, reach⟩
      rcases ReflTransGen.cases_head reach with rfl | ⟨next, ⟨side, child⟩, _⟩
      · exact ⟨by decide, by decide⟩
      · cases side <;> cases child
    · intro second result step
      cases step
      refine ⟨nofun, ?_⟩
      intro third result step
      cases step
      exact ⟨⟨1, rfl, .single ⟨.right, rfl⟩⟩, fun _ _ _ => trivial⟩
  obtain ⟨tree, results, entries, ran, refined⟩ := avl_refines_map blankNodes rotatingRun valid
  refine ⟨valid, tree, results, entries, ran, ?_, refined⟩
  cases ran
  rfl

end Reverse.Decopus
