import Reverse.Library.AvlTree

/-!
# Walks in a binary tree

The way down to the place of a key, the way to an end of a subtree and what
lies beside a path.  Where the keys increase from left to right, the search for
a key separates the smaller keys from the larger ones.
-/

namespace Reverse.Avl

open List

variable {α : Type}

/-- The element at the left or at the right end. -/
def Side.end? : Side → List α → Option α
  | .left, labels => labels.head?
  | .right, labels => labels.getLast?

/-- What lies on one side of a path. -/
def beside : Side → List (Frame α) → List α
  | .left, path => before path
  | .right, path => after path

theorem beside_of_side {path : List (Frame α)}
    (along : ∀ frame ∈ path, frame.side = side) : beside side path = [] := by
  induction path with
  | nil => cases side <;> rfl
  | cons frame path ih =>
    have rest := ih fun frame member =>
      along frame (mem_cons_of_mem _ member)
    have here := along frame mem_cons_self
    cases side with
    | left =>
      change before path ++ frame.before = []
      change before path = [] at rest
      rw [rest, Frame.before, here]
      rfl
    | right =>
      change frame.after ++ after path = []
      change after path = [] at rest
      rw [rest, Frame.after, here]
      rfl

theorem exists_end (side : Side) (nonempty : tree ≠ .nil) :
    ∃ path label balance far,
      tree = plug path (.node label balance (fork side .nil far)) ∧
        ∀ frame ∈ path, frame.side = side := by
  induction tree with
  | nil => exact absurd rfl nonempty
  | node label balance child ih =>
    by_cases isEnd : child side = .nil
    · refine ⟨[], label, balance, child side.other, ?_, nofun⟩
      rw [← isEnd, fork_eta]
      rfl
    · obtain ⟨path, last, lastBalance, far, split, along⟩ := ih side isEnd
      refine ⟨path ++ [⟨label, balance, side, child side.other⟩], last, lastBalance, far, ?_, ?_⟩
      · rw [plug_concat, ← split]
        change _ = Shape.node label balance (fork side (child side) (child side.other))
        rw [fork_eta]
      · intro frame member
        rw [mem_append, mem_singleton] at member
        rcases member with inPath | rfl
        · exact along frame inPath
        · rfl

theorem end_plug {path : List (Frame α)} (along : ∀ frame ∈ path, frame.side = side) :
    side.end? (plug path (.node label balance (fork side .nil far))).toList = some label := by
  have nothing := beside_of_side along
  rw [toList_plug, Shape.toList_fork]
  cases side with
  | left =>
    change before path = [] at nothing
    rw [nothing]
    rfl
  | right =>
    change after path = [] at nothing
    rw [nothing]
    simp [Side.end?, Shape.toList]

theorem exists_root_plug (path : List (Frame α)) (label : α) (balance : Int)
    (child : Side → Shape α) :
    ∃ top, (plug path (.node label balance child)).root? = some top := by
  induction path generalizing label balance child with
  | nil => exact ⟨label, rfl⟩
  | cons frame path ih => exact ih ..

section

variable {κ : Type} [LinearOrder κ]

/-- The path leads to the place of the key. -/
def Leads (key : α → κ) (target : κ) (path : List (Frame α)) : Prop :=
  ∀ frame ∈ path,
    match frame.side with
    | .left => target < key frame.label
    | .right => key frame.label < target

variable {key : α → κ} {target : κ}

theorem exists_search (key : α → κ) (target : κ) (tree : Shape α) :
    ∃ path rest, tree = plug path rest ∧ Leads key target path ∧
      ∀ label ∈ rest.root?, key label = target := by
  induction tree with
  | nil => exact ⟨[], .nil, rfl, nofun, nofun⟩
  | node label balance child ih =>
    have below : ∀ side : Side,
        Leads key target [⟨label, balance, side, child side.other⟩] →
        ∃ path rest, .node label balance child = plug path rest ∧
          Leads key target path ∧
          ∀ label ∈ rest.root?, key label = target := by
      intro side leads
      obtain ⟨path, rest, split, inside, stops⟩ := ih side
      refine ⟨path ++ [⟨label, balance, side, child side.other⟩], rest, ?_, ?_, stops⟩
      · rw [plug_concat, ← split]
        change _ = Shape.node label balance (fork side (child side) (child side.other))
        rw [fork_eta]
      · intro frame member
        rw [mem_append] at member
        rcases member with inPath | isLast
        · exact inside frame inPath
        · exact leads frame isLast
    rcases lt_trichotomy target (key label) with less | equal | greater
    · apply below .left
      intro frame member
      rw [mem_singleton] at member
      rw [member]
      exact less
    · refine ⟨[], .node label balance child, rfl, nofun, ?_⟩
      intro found isRoot
      cases isRoot
      exact equal.symm
    · apply below .right
      intro frame member
      rw [mem_singleton] at member
      rw [member]
      exact greater

/-- The keys increase from left to right. -/
def Ordered (key : α → κ) (labels : List α) : Prop :=
  labels.Pairwise fun left right => key left < key right

/-- The label has the key, or it is the last one before the key or the first
one after it. -/
def Nearest (key : α → κ) (target : κ) (labels : List α) (label : α) : Prop :=
  label ∈ labels ∧ ∀ other ∈ labels,
    ¬(key label < key other ∧ key other ≤ target) ∧ ¬(target ≤ key other ∧ key other < key label)

theorem Ordered.around {before after : List α} (ordered : Ordered key (before ++ label :: after)) :
    (∀ other ∈ before, key other < key label) ∧ ∀ other ∈ after, key label < key other := by
  obtain ⟨-, rest, across⟩ := pairwise_append.mp ordered
  exact ⟨fun other member => across other member label mem_cons_self, (pairwise_cons.mp rest).1⟩

theorem nearest_of_eq (member : label ∈ labels)
    (isTarget : key label = target) : Nearest key target labels label := by
  refine ⟨member, fun other _ => ⟨fun between => ?_, fun between => ?_⟩⟩
  · exact not_lt_of_ge between.2 (isTarget ▸ between.1)
  · exact not_lt_of_ge between.1 (isTarget ▸ between.2)

theorem nearest_present (ordered : Ordered key labels)
    (member : found ∈ labels) (isTarget : key found = target)
    (nearest : Nearest key target labels label) : label = found := by
  obtain ⟨inside, nothing⟩ := nearest
  obtain ⟨notAfter, notBefore⟩ := nothing found member
  obtain ⟨before, after, rfl⟩ := append_of_mem member
  obtain ⟨lower, upper⟩ := ordered.around
  rw [mem_append, mem_cons] at inside
  rcases inside with isBefore | same | isAfter
  · exact absurd ⟨lower label isBefore, isTarget.le⟩ notAfter
  · exact same
  · exact absurd ⟨isTarget.ge, upper label isAfter⟩ notBefore

theorem nearest_absent {before after : List α} (ordered : Ordered key (before ++ after))
    (lower : ∀ label ∈ before, key label < target) (upper : ∀ label ∈ after, target < key label) :
    Nearest key target (before ++ after) label ↔
      before.getLast? = some label ∨ after.head? = some label := by
  constructor
  · rintro ⟨member, nothing⟩
    rcases mem_append.mp member with isBefore | isAfter
    · left
      obtain ⟨front, last, rfl⟩ := (eq_nil_or_concat before).resolve_left (ne_nil_of_mem isBefore)
      rw [concat_eq_append] at *
      have isLast : last ∈ front ++ [last] := by simp
      obtain ⟨notAfter, -⟩ := nothing last (mem_append_left _ isLast)
      rw [append_assoc] at ordered
      rw [mem_append, mem_singleton] at isBefore
      rcases isBefore with inFront | rfl
      · exact absurd ⟨ordered.around.1 label inFront, le_of_lt (lower last isLast)⟩ notAfter
      · exact List.getLast?_concat
    · right
      cases after with
      | nil => cases isAfter
      | cons first after =>
        have isFirst : first ∈ first :: after := mem_cons_self
        obtain ⟨-, notBefore⟩ := nothing first (mem_append_right _ isFirst)
        rcases mem_cons.mp isAfter with rfl | inAfter
        · rfl
        · exact absurd ⟨le_of_lt (upper first isFirst), ordered.around.2 label inAfter⟩ notBefore
  · rintro (isLast | isFirst)
    · obtain ⟨front, rfl⟩ := List.getLast?_eq_some_iff.mp isLast
      have inBefore : label ∈ front ++ [label] := by simp
      refine ⟨mem_append_left _ inBefore, fun other member => ?_⟩
      refine ⟨fun between => ?_, fun between => ?_⟩
      · rw [append_assoc] at ordered member
        rw [mem_append, singleton_append, mem_cons] at member
        rcases member with inFront | rfl | isAfter
        · exact lt_asymm between.1 (ordered.around.1 other inFront)
        · exact lt_irrefl _ between.1
        · exact not_lt_of_ge between.2 (upper other isAfter)
      · exact lt_asymm (lower label inBefore) (lt_of_le_of_lt between.1 between.2)
    · cases after with
      | nil => cases isFirst
      | cons first after =>
        cases isFirst
        have inAfter : label ∈ label :: after := mem_cons_self
        refine ⟨mem_append_right _ inAfter, fun other member => ?_⟩
        refine ⟨fun between => ?_, fun between => ?_⟩
        · exact lt_asymm (upper label inAfter) (lt_of_lt_of_le between.1 between.2)
        · rw [mem_append, mem_cons] at member
          rcases member with isBefore | rfl | inside
          · exact not_lt_of_ge between.1 (lower other isBefore)
          · exact lt_irrefl _ between.2
          · exact lt_asymm between.2 (ordered.around.2 other inside)

theorem Leads.separates (leads : Leads key target path)
    (ordered : Ordered key (plug path subtree).toList) :
    (∀ label ∈ before path, key label < target) ∧ ∀ label ∈ after path, target < key label := by
  induction path generalizing subtree with
  | nil => exact ⟨nofun, nofun⟩
  | cons frame path ih =>
    have outer := ih
      (fun frame member => leads frame (mem_cons_of_mem _ member))
      ordered
    have here := leads frame mem_cons_self
    have inner : Ordered key (frame.plug subtree).toList := by
      rw [plug, toList_plug] at ordered
      exact ((pairwise_append.mp ordered).1).sublist (sublist_append_right _ _)
    rw [Frame.plug, Shape.toList_fork] at inner
    unfold before after Frame.before Frame.after
    cases side : frame.side with
    | left =>
      simp only [side] at here inner ⊢
      have sibling := (pairwise_append.mp inner).2.1
      rw [pairwise_cons] at sibling
      refine ⟨?_, ?_⟩
      · simpa using outer.1
      · intro label member
        rw [mem_append, mem_cons] at member
        rcases member with (rfl | inSibling) | inOuter
        · exact here
        · exact lt_trans here (sibling.1 label inSibling)
        · exact outer.2 label inOuter
    | right =>
      simp only [side] at here inner ⊢
      have sibling := (pairwise_append.mp inner).2.2
      refine ⟨?_, ?_⟩
      · intro label member
        rw [mem_append, mem_append, mem_singleton] at member
        rcases member with inOuter | inSibling | rfl
        · exact outer.1 label inOuter
        · exact lt_trans (sibling label inSibling frame.label mem_cons_self) here
        · exact here
      · simpa using outer.2

end

/-- What lies next to the end of a path is on the path. -/
theorem next_mem_path {side : Side} (isNext : side.other.end? (beside side path) = some label) :
    label ∈ path.map Frame.label := by
  induction path with
  | nil => cases side <;> cases isNext
  | cons frame path ih =>
    rw [map_cons, mem_cons]
    by_cases isHere : label = frame.label
    · exact .inl isHere
    · right
      apply ih
      cases side with
      | left =>
        change (before path ++ frame.before).getLast? = some label at isNext
        unfold Frame.before at isNext
        cases frameSide : frame.side with
        | left =>
          rw [frameSide, append_nil] at isNext
          exact isNext
        | right =>
          rw [frameSide] at isNext
          simp only [← append_assoc, List.getLast?_concat, Option.some.injEq] at isNext
          exact absurd isNext.symm isHere
      | right =>
        change (frame.after ++ after path).head? = some label at isNext
        unfold Frame.after at isNext
        cases frameSide : frame.side with
        | left =>
          rw [frameSide] at isNext
          exact absurd (Option.some.inj isNext).symm isHere
        | right =>
          rw [frameSide] at isNext
          exact isNext

end Reverse.Avl
