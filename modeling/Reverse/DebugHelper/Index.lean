import Mathlib.Data.List.Nodup
import Reverse.DebugHelper.AvlTree

/-!
# The index of the debug helper

The files `debug_helper.c`, `insn_tree.c` and `generic_olist.c`.  Instructions
are in a list that is ordered by their addresses, and a tree leads from an
address to an element of the list.  Elements are addressed by numbers, and each
has its instruction with it.
-/

namespace Reverse.DebugHelper

open Function
open List hiding after

abbrev EltPtr := Nat

/-- The fields of `insn_t` that the search looks at. -/
structure Insn where
  flags : BitVec 32
  addr : BitVec 32

structure OlistElt where
  next : Option EltPtr
  key : Nat
  data : Insn

structure DebugHelper where
  insnList : Option EltPtr
  insnTree : AvlTree EltPtr
  elts : EltPtr → OlistElt
  /-- How many elements were made. -/
  nelts : Nat

def dhInit : DebugHelper where
  insnList := none
  insnTree := .null
  elts := fun _ => ⟨none, 0, ⟨0, 0⟩⟩
  nelts := 0

def insnNew (pc : BitVec 32) : Insn := ⟨0, pc⟩

def ilistNew (insn : Insn) : OlistElt := ⟨none, insn.addr.toNat, insn⟩

def setNext (elts : EltPtr → OlistElt) (elt : EltPtr) (next : Option EltPtr) : EltPtr → OlistElt :=
  update elts elt { elts elt with next := next }

/-- The recursion goes along the list, with a bound on its depth. -/
def olistAdd : Nat → (EltPtr → OlistElt) → Option EltPtr → EltPtr →
    Option (EltPtr × (EltPtr → OlistElt))
  | 0, _, _, _ => none
  | _ + 1, elts, none, new => some (new, setNext elts new none)
  | depth + 1, elts, some list, new =>
    if (elts new).key < (elts list).key then
      some (new, setNext elts new (some list))
    else
      (olistAdd depth elts (elts list).next new).map fun (rest, elts) =>
        (list, setNext elts list (some rest))

/-- A new element, which is in no list. -/
def newElt (dh : DebugHelper) (key : BitVec 32) : EltPtr × DebugHelper :=
  (dh.nelts, { dh with
    elts := update dh.elts dh.nelts (ilistNew (insnNew key))
    nelts := dh.nelts + 1 })

/-- A new element is put behind the one that was found, or at the head. -/
def linkElt (dh : DebugHelper) (found : Option (AvlNode EltPtr))
    (key : BitVec 32) (res : EltPtr) : Option DebugHelper :=
  match found with
  | some found =>
    if found.key < key.toNat then
      (olistAdd (dh.nelts + 1) dh.elts (some found.data) res).bind
        fun (_, elts) =>
          (avlInsert dh.insnTree (avlNew key.toNat res)).map fun insnTree =>
            { dh with elts := elts, insnTree := insnTree }
    else some dh
  | none =>
    (olistAdd (dh.nelts + 1) dh.elts dh.insnList res).bind
      fun (insnList, elts) =>
        (avlInsert dh.insnTree (avlNew key.toNat res)).map fun insnTree =>
          { dh with
            insnList := some insnList, elts := elts, insnTree := insnTree }

/-- The new element is given back when the key is there. -/
def dhAdd (dh : DebugHelper) (key : BitVec 32) : Option (EltPtr × DebugHelper) :=
  let (res, made) := newElt dh key
  match avlSearch made.insnTree key.toNat with
  | some found =>
    if found.key = key.toNat then some (found.data, dh)
    else (linkElt made (some found) key res).map fun dh => (res, dh)
  | none => (linkElt made none key res).map fun dh => (res, dh)

def dhSearchAdd (dh : DebugHelper) (addr : BitVec 32) : Option (EltPtr × DebugHelper) :=
  match avlSearch dh.insnTree addr.toNat with
  | some found =>
    if found.key = addr.toNat then some (found.data, dh)
    else
      let (res, made) := newElt dh addr
      (linkElt made (some found) addr res).map fun dh => (res, dh)
  | none =>
    let (res, made) := newElt dh addr
    (linkElt made none addr res).map fun dh => (res, dh)

def passes (elts : EltPtr → OlistElt) (sfilter : BitVec 64) (elt : EltPtr) :
    Bool :=
  (elts elt).data.flags.setWidth 64 &&& sfilter ≠ 0

def itreeSearchFilteredL (elts : EltPtr → OlistElt) (skey : Nat)
    (sfilter : BitVec 64) : AvlTree EltPtr → Option EltPtr
  | .null => none
  | .node fields left right =>
    if fields.key = skey ∧ passes elts sfilter fields.data then
      some fields.data
    else if fields.key < skey then
      match itreeSearchFilteredL elts skey sfilter right with
      | some res => some res
      | none =>
        if passes elts sfilter fields.data then some fields.data
        else itreeSearchFilteredL elts skey sfilter left
    else itreeSearchFilteredL elts skey sfilter left

/-- What clients do: they add addresses, and change the flags of instructions
through the elements they were given. -/
inductive DhCall where
  | add (key : BitVec 32)
  | searchAdd (addr : BitVec 32)
  | mark (elt : EltPtr) (flags : BitVec 32)

def dhStep (dh : DebugHelper) : DhCall → Option DebugHelper
  | .add key => (dhAdd dh key).map Prod.snd
  | .searchAdd addr => (dhSearchAdd dh addr).map Prod.snd
  | .mark elt flags =>
    some { dh with
      elts := update dh.elts elt
        { dh.elts elt with
          data := { (dh.elts elt).data with flags := flags } } }

def dhRun (calls : List DhCall) : Option DebugHelper :=
  calls.foldlM dhStep dhInit

def DhCall.adds : DhCall → List (BitVec 32)
  | .add key => [key]
  | .searchAdd addr => [addr]
  | .mark _ _ => []

/-- The elements that are reached from a pointer. -/
def Linked (elts : EltPtr → OlistElt) : Option EltPtr → List EltPtr → Prop
  | list, [] => list = none
  | list, elt :: chain => list = some elt ∧ Linked elts (elts elt).next chain

theorem Linked.congr (linked : Linked elts list chain)
    (same : ∀ elt ∈ chain, (later elt).next = (elts elt).next) :
    Linked later list chain := by
  induction chain generalizing list with
  | nil => exact linked
  | cons elt chain ih =>
    refine ⟨linked.1, ?_⟩
    rw [same elt mem_cons_self]
    exact ih linked.2 fun other member =>
      same other (mem_cons_of_mem _ member)

theorem setNext_self (elts : EltPtr → OlistElt) (elt : EltPtr)
    (next : Option EltPtr) : (setNext elts elt next elt).next = next := by
  unfold setNext
  rw [update_self]

theorem setNext_other (differ : other ≠ elt) (next : Option EltPtr) :
    setNext elts elt next other = elts other :=
  update_of_ne differ ..

theorem setNext_rest (elts : EltPtr → OlistElt) (elt other : EltPtr) (next : Option EltPtr) :
    (setNext elts elt next other).key = (elts other).key ∧
      (setNext elts elt next other).data = (elts other).data := by
  unfold setNext
  by_cases same : other = elt
  · rw [same, update_self]
    exact ⟨rfl, rfl⟩
  · rw [update_of_ne same]
    exact ⟨rfl, rfl⟩

theorem olistAdd_front (linked : Linked elts list chain)
    (less : ∀ elt ∈ chain, (elts new).key < (elts elt).key) (depth : Nat) :
    olistAdd (depth + 1) elts list new = some (new, setNext elts new list) := by
  cases chain with
  | nil =>
    rw [show list = none from linked]
    rfl
  | cons elt chain =>
    rw [linked.1, olistAdd, if_pos (less elt mem_cons_self)]

theorem olistAdd_behind (linked : Linked elts (elts elt).next chain)
    (notLess : ¬(elts new).key < (elts elt).key)
    (less : ∀ other ∈ chain, (elts new).key < (elts other).key) (depth : Nat) :
    olistAdd (depth + 2) elts (some elt) new =
      some (elt, setNext (setNext elts new (elts elt).next) elt (some new)) := by
  rw [olistAdd, if_neg notLess, olistAdd_front linked less]
  rfl

theorem Linked.rest (linked : Linked elts list (before ++ elt :: after)) :
    Linked elts (elts elt).next after := by
  induction before generalizing list with
  | nil => exact linked.2
  | cons first before ih => exact ih linked.2

theorem Linked.cons_new (linked : Linked elts list chain) (fresh : new ∉ chain) :
    Linked (setNext elts new list) (some new) (new :: chain) := by
  refine ⟨rfl, ?_⟩
  rw [setNext_self]
  apply linked.congr
  intro elt member
  have differ : elt ≠ new := fun same => fresh (same ▸ member)
  rw [setNext_other differ]

theorem Linked.insert_new :
    ∀ {list : Option EltPtr}, Linked elts list (before ++ elt :: after) →
      (before ++ elt :: after).Nodup → new ∉ before ++ elt :: after →
      Linked (setNext (setNext elts new (elts elt).next) elt (some new)) list
        (before ++ elt :: new :: after) := by
  induction before with
  | nil =>
    intro list linked nodup fresh
    have notElt : new ≠ elt := fun same =>
      fresh (same ▸ mem_cons_self)
    refine ⟨linked.1, ?_⟩
    rw [setNext_self]
    refine ⟨rfl, ?_⟩
    rw [setNext_other notElt, setNext_self]
    apply linked.2.congr
    intro other member
    have otherElt : other ≠ elt := fun same =>
      (nodup_cons.mp nodup).1 (same ▸ member)
    have otherNew : other ≠ new := fun same =>
      fresh (mem_cons_of_mem _ (same ▸ member))
    rw [setNext_other otherElt, setNext_other otherNew]
  | cons first before ih =>
    intro list linked nodup fresh
    rw [cons_append] at nodup fresh
    obtain ⟨notInside, rest⟩ := nodup_cons.mp nodup
    have firstElt : first ≠ elt := fun same =>
      notInside (same ▸ mem_append_right _ mem_cons_self)
    have firstNew : first ≠ new := fun same =>
      fresh (same ▸ mem_cons_self)
    refine ⟨linked.1, ?_⟩
    rw [setNext_other firstElt, setNext_other firstNew]
    exact ih linked.2 rest fun member =>
      fresh (mem_cons_of_mem _ member)

/-- The entries that the tree has to have for a list. -/
def listed (elts : EltPtr → OlistElt) (chain : List EltPtr) : List (Nat × EltPtr) :=
  chain.map fun elt => ((elts elt).key, elt)

/-- The list and the tree have the same keys, and each node of the tree points
to the element of its key. -/
structure Indexed (dh : DebugHelper) (chain : List EltPtr) : Prop where
  linked : Linked dh.elts dh.insnList chain
  made : ∀ elt ∈ chain, elt < dh.nelts
  keyed : ∀ elt ∈ chain, (dh.elts elt).key = (dh.elts elt).data.addr.toNat
  exact : dh.insnTree.Exact
  ordered : dh.insnTree.Ordered
  entries : dh.insnTree.entries = listed dh.elts chain

theorem listed_congr (same : ∀ elt ∈ chain, (later elt).key = (elts elt).key) :
    listed later chain = listed elts chain := by
  apply map_congr_left
  intro elt member
  rw [same elt member]

theorem listed_keys (elts : EltPtr → OlistElt) (chain : List EltPtr) :
    (listed elts chain).map Prod.fst = chain.map fun elt => (elts elt).key := by
  unfold listed
  rw [map_map]
  rfl

theorem Indexed.ascending (indexed : Indexed dh chain) :
    (chain.map fun elt => (dh.elts elt).key).Pairwise (· < ·) := by
  have ordered := indexed.ordered
  unfold AvlTree.Ordered at ordered
  rw [indexed.entries, listed_keys] at ordered
  exact ordered

theorem Indexed.nodup (indexed : Indexed dh chain) : chain.Nodup := by
  apply List.Nodup.of_map fun elt => (dh.elts elt).key
  exact indexed.ascending.imp Nat.ne_of_lt

theorem listed_setNext (elts : EltPtr → OlistElt) (elt : EltPtr)
    (next : Option EltPtr) (chain : List EltPtr) :
    listed (setNext elts elt next) chain = listed elts chain :=
  listed_congr fun other _ => (setNext_rest elts elt other next).1

/-- The tree takes the new element as the list does. -/
theorem Indexed.grow (indexed : Indexed dh chain) (linked : Linked elts insnList later)
    (made : ∀ elt ∈ later, elt < dh.nelts)
    (keyed : ∀ elt ∈ later, (elts elt).key = (elts elt).data.addr.toNat)
    (entries : addEntry (key, res) (listed dh.elts chain) = listed elts later) :
    ∃ insnTree, avlInsert dh.insnTree (avlNew key res) = some insnTree ∧
      Indexed { dh with
        insnList := insnList, elts := elts, insnTree := insnTree } later := by
  obtain ⟨insnTree, isTree, rebalanced⟩ :=
    avlInsert_spec (avlNew key res) indexed.exact indexed.ordered rfl
  have isEntries : insnTree.entries = listed elts later := by
    rw [rebalanced.entries, indexed.entries]
    exact entries
  have sorted := indexed.ordered
  unfold AvlTree.Ordered at sorted
  refine ⟨insnTree, isTree, linked, made, keyed, rebalanced.exact, ?_, isEntries⟩
  unfold AvlTree.Ordered
  rw [rebalanced.entries]
  exact addEntry_sorted sorted

theorem newElt_other (key : BitVec 32) (made : elt < dh.nelts) :
    (newElt dh key).2.elts elt = dh.elts elt :=
  update_of_ne (Nat.ne_of_lt made) ..

theorem newElt_own (dh : DebugHelper) (key : BitVec 32) :
    (newElt dh key).2.elts dh.nelts = ilistNew (insnNew key) :=
  update_self ..

theorem Indexed.newElt (indexed : Indexed dh chain) (key : BitVec 32) :
    Indexed (newElt dh key).2 chain := by
  obtain ⟨linked, made, keyed, exact, ordered, entries⟩ := indexed
  refine ⟨?_, ?_, ?_, exact, ordered, ?_⟩
  · apply linked.congr
    intro elt member
    rw [newElt_other key (made elt member)]
  · intro elt member
    exact Nat.lt_succ_of_lt (made elt member)
  · intro elt member
    rw [newElt_other key (made elt member)]
    exact keyed elt member
  · refine entries.trans (listed_congr ?_).symm
    intro elt member
    rw [newElt_other key (made elt member)]

theorem Indexed.link (indexed : Indexed dh chain)
    (isRes : dh.elts res = ilistNew (insnNew key)) (fresh : res ∉ chain)
    (made : res < dh.nelts) (isFound : avlSearch dh.insnTree key.toNat = found)
    (absent : ∀ node ∈ found, node.key ≠ key.toNat) :
    ∃ later before after, linkElt dh found key res = some later ∧
      Indexed later (before ++ res :: after) ∧ chain = before ++ after ∧
        ∀ elt, (later.elts elt).data = (dh.elts elt).data := by
  have isKey : (dh.elts res).key = key.toNat := by rw [isRes]; rfl
  have allMade : ∀ elt ∈ res :: chain, elt < dh.nelts := forall_mem_cons.mpr ⟨made, indexed.made⟩
  have keyed : ∀ elt ∈ res :: chain, (dh.elts elt).key = (dh.elts elt).data.addr.toNat :=
    forall_mem_cons.mpr ⟨by rw [isRes]; rfl, indexed.keyed⟩
  have floor := avlSearch_floor indexed.ordered key.toNat
  rw [isFound, indexed.entries] at floor
  have own : ((dh.elts res).key, res) = (key.toNat, res) := by rw [isKey]
  cases found with
  | none =>
    have larger : ∀ entry ∈ listed dh.elts chain, key.toNat < entry.1 := floor
    have less : ∀ elt ∈ chain, (dh.elts res).key < (dh.elts elt).key := by
      intro elt member
      rw [isKey]
      exact larger _ (mem_map_of_mem member)
    have added := olistAdd_front indexed.linked less dh.nelts
    have entries : addEntry (key.toNat, res) (listed dh.elts chain) =
        listed (setNext dh.elts res dh.insnList) (res :: chain) := by
      rw [listed_setNext, addEntry_smallest larger, ← own]
      rfl
    obtain ⟨insnTree, isTree, later⟩ := indexed.grow (indexed.linked.cons_new fresh)
      allMade (by
        intro elt member
        rw [(setNext_rest ..).1, (setNext_rest ..).2]
        exact keyed elt member) entries
    refine ⟨_, [], chain, ?_, later, rfl, fun elt => (setNext_rest ..).2⟩
    unfold linkElt
    rw [added]
    dsimp only [Option.bind_some]
    rw [isTree]
    rfl
  | some found =>
    obtain ⟨member, small, greatest⟩ := floor
    obtain ⟨elt, inside, isEntry⟩ := mem_map.mp member
    obtain ⟨sameKey, sameElt⟩ := Prod.mk.inj isEntry
    obtain ⟨before, after, rfl⟩ := append_of_mem inside
    have less : found.key < key.toNat := Nat.lt_of_le_of_ne small (absent found rfl)
    have isElt : elt = found.data := sameElt
    have eltKey : (dh.elts elt).key = found.key := sameKey
    have ascending := indexed.ascending
    rw [map_append, map_cons, pairwise_append, pairwise_cons] at ascending
    obtain ⟨-, ⟨eltFirst, -⟩, across⟩ := ascending
    have larger : ∀ entry ∈ listed dh.elts after, key.toNat < entry.1 := by
      intro entry isAfter
      obtain ⟨other, isOther, rfl⟩ := mem_map.mp isAfter
      by_contra notLess
      have atMost := greatest ((dh.elts other).key, other)
        (mem_map_of_mem (mem_append_right _ (mem_cons_of_mem _ isOther)))
        (Nat.le_of_not_lt notLess)
      have more := eltFirst _ (mem_map_of_mem isOther)
      have isKey : (AvlNode.entry found).1 = found.key := rfl
      omega
    have added := olistAdd_behind indexed.linked.rest
      (show ¬(dh.elts res).key < (dh.elts elt).key by omega)
      (fun other isOther => by
        rw [isKey]
        exact larger _ (mem_map_of_mem isOther)) (dh.nelts - 1)
    have entries : addEntry (key.toNat, res)
        (listed dh.elts (before ++ elt :: after)) =
          listed (setNext (setNext dh.elts res (dh.elts elt).next) elt
            (some res)) (before ++ elt :: res :: after) := by
      rw [listed_setNext, listed_setNext]
      unfold listed at larger ⊢
      rw [map_append, map_cons, map_append, map_cons,
        map_cons, own, addEntry_after, addEntry,
        if_neg (by dsimp only; omega), if_pos (by dsimp only; omega),
        addEntry_smallest larger]
      intro first isFirst
      obtain ⟨other, isOther, rfl⟩ := mem_map.mp isFirst
      have smaller := across _ (mem_map_of_mem isOther) _ mem_cons_self
      dsimp only
      omega
    have members : ∀ other ∈ before ++ elt :: res :: after,
        other ∈ res :: (before ++ elt :: after) := by
      intro other isOther
      simp only [mem_append, mem_cons] at isOther ⊢
      tauto
    obtain ⟨insnTree, isTree, later⟩ := indexed.grow
      (indexed.linked.insert_new indexed.nodup fresh)
      (fun other isOther => allMade other (members other isOther)) (by
        intro other isOther
        rw [(setNext_rest ..).1, (setNext_rest ..).1, (setNext_rest ..).2, (setNext_rest ..).2]
        exact keyed other (members other isOther)) entries
    refine ⟨_, before ++ [elt], after, ?_, by rw [append_cons] at later; exact later,
      append_cons .., fun other => (setNext_rest ..).2.trans (setNext_rest ..).2⟩
    have depth : dh.nelts - 1 + 2 = dh.nelts + 1 := by
      have positive : 0 < dh.nelts := Nat.zero_lt_of_lt made
      omega
    rw [depth] at added
    unfold linkElt
    dsimp only
    rw [if_pos less, ← isElt, added]
    dsimp only [Option.bind_some]
    rw [isTree]
    rfl

/-- The element of an address is in the list, where it was or where a new one
was put. -/
structure SearchAdded (dh : DebugHelper) (chain : List EltPtr) (addr : BitVec 32)
    (later : DebugHelper) (before : List EltPtr) (elt : EltPtr) (after : List EltPtr) : Prop where
  indexed : Indexed later (before ++ elt :: after)
  own : (later.elts elt).data.addr = addr
  kept : ∀ other ∈ chain, (later.elts other).data = (dh.elts other).data
  place : chain = before ++ elt :: after ∨
    chain = before ++ after ∧ (later.elts elt).data = insnNew addr

theorem Indexed.addNew (indexed : Indexed dh chain)
    (isFound : avlSearch dh.insnTree addr.toNat = found)
    (absent : ∀ node ∈ found, node.key ≠ addr.toNat) :
    ∃ later before after,
      linkElt (Reverse.DebugHelper.newElt dh addr).2 found addr dh.nelts = some later ∧
      SearchAdded dh chain addr later before dh.nelts after := by
  have fresh : dh.nelts ∉ chain := fun member =>
    Nat.lt_irrefl _ (indexed.made _ member)
  obtain ⟨later, before, after, isLater, indexedLater, split, data⟩ :=
    (indexed.newElt addr).link (newElt_own dh addr) fresh (Nat.lt_succ_self dh.nelts) isFound absent
  have isNew : (later.elts dh.nelts).data = insnNew addr := by
    rw [data, newElt_own]
    rfl
  refine ⟨later, before, after, isLater, indexedLater, by rw [isNew]; rfl, ?_,
    Or.inr ⟨split, isNew⟩⟩
  intro other member
  rw [data, newElt_other addr (indexed.made other member)]

theorem Indexed.searchAdd (indexed : Indexed dh chain) (addr : BitVec 32) :
    ∃ elt later before after, dhSearchAdd dh addr = some (elt, later) ∧
      SearchAdded dh chain addr later before elt after := by
  have floor := avlSearch_floor indexed.ordered addr.toNat
  cases isFound : avlSearch dh.insnTree addr.toNat with
  | none =>
    obtain ⟨later, before, after, isLater, added⟩ := indexed.addNew isFound nofun
    refine ⟨dh.nelts, later, before, after, ?_, added⟩
    unfold dhSearchAdd
    rw [isFound]
    exact congrArg (Option.map _) isLater
  | some found =>
    by_cases sameKey : found.key = addr.toNat
    · rw [isFound, indexed.entries] at floor
      obtain ⟨elt, inside, isEntry⟩ := mem_map.mp floor.1
      obtain ⟨isKey, isElt⟩ := Prod.mk.inj isEntry
      have isAddr : (dh.elts elt).data.addr.toNat = addr.toNat := by
        rw [← indexed.keyed elt inside, isKey]
        exact sameKey
      obtain ⟨before, after, split⟩ := append_of_mem inside
      refine ⟨elt, dh, before, after, ?_, split ▸ indexed, BitVec.eq_of_toNat_eq isAddr,
        fun _ _ => rfl, Or.inl split⟩
      unfold dhSearchAdd
      rw [isFound, isElt]
      exact if_pos sameKey
    · obtain ⟨later, before, after, isLater, added⟩ := indexed.addNew isFound (by
        intro node isNode
        rw [← Option.some.inj isNode]
        exact sameKey)
      refine ⟨dh.nelts, later, before, after, ?_, added⟩
      unfold dhSearchAdd
      rw [isFound]
      refine (if_neg sameKey).trans ?_
      exact congrArg (Option.map _) isLater

theorem SearchAdded.keys (added : SearchAdded dh chain addr later before elt after)
    (indexed : Indexed dh chain) (key : Nat) :
    (key ∈ (before ++ elt :: after).map fun elt => (later.elts elt).key) ↔
      key = addr.toNat ∨ key ∈ chain.map fun elt => (dh.elts elt).key := by
  have inLater := added.indexed.keyed
  have isKey : (later.elts elt).key = addr.toNat := by
    rw [inLater elt (mem_append_right _ mem_cons_self), added.own]
  have same : (chain.map fun elt => (dh.elts elt).key) =
      chain.map fun elt => (later.elts elt).key := by
    apply map_congr_left
    intro other member
    have stays : other ∈ before ++ elt :: after := by
      rcases added.place with rfl | ⟨rfl, -⟩
      · exact member
      · simp only [mem_append, mem_cons] at member ⊢
        tauto
    rw [indexed.keyed other member, inLater other stays, added.kept other member]
  rw [same, ← isKey]
  rcases added.place with rfl | ⟨rfl, -⟩
  · simp only [map_append, map_cons, mem_append, mem_cons]
    tauto
  · simp only [map_append, map_cons, mem_append, mem_cons]
    tauto

/-- The two functions differ only in when they make the element. -/
theorem dhAdd_eq (dh : DebugHelper) (key : BitVec 32) : dhAdd dh key = dhSearchAdd dh key := by
  unfold dhAdd dhSearchAdd newElt
  dsimp only

/-- Flags are not part of the index. -/
theorem Indexed.mark (indexed : Indexed dh chain)
    (same : ∀ elt, (elts elt).key = (dh.elts elt).key ∧
      (elts elt).next = (dh.elts elt).next ∧ (elts elt).data.addr = (dh.elts elt).data.addr) :
    Indexed { dh with elts := elts } chain :=
  ⟨indexed.linked.congr fun elt _ => (same elt).2.1, indexed.made,
    (fun elt member => by
      dsimp only
      rw [(same elt).1, (same elt).2.2]
      exact indexed.keyed elt member), indexed.exact, indexed.ordered,
    indexed.entries.trans (listed_congr fun elt _ => (same elt).1).symm⟩

/-- Exactly the added keys are new. -/
theorem Indexed.step (indexed : Indexed dh chain) (call : DhCall) :
    ∃ later longer, dhStep dh call = some later ∧ Indexed later longer ∧
      ∀ key, (key ∈ longer.map fun elt => (later.elts elt).key) ↔
        key ∈ call.adds.map BitVec.toNat ∨ key ∈ chain.map fun elt => (dh.elts elt).key := by
  have added : ∀ addr, ∃ later longer,
      (dhSearchAdd dh addr).map Prod.snd = some later ∧
      Indexed later longer ∧
      ∀ key, (key ∈ longer.map fun elt => (later.elts elt).key) ↔
        key ∈ [addr].map BitVec.toNat ∨ key ∈ chain.map fun elt => (dh.elts elt).key := by
    intro addr
    obtain ⟨elt, later, before, after, isLater, added⟩ := indexed.searchAdd addr
    refine ⟨later, _, by rw [isLater]; rfl, added.indexed, ?_⟩
    intro key
    rw [map_singleton, mem_singleton]
    exact added.keys indexed key
  cases call with
  | searchAdd addr => exact added addr
  | add key =>
    rw [dhStep, dhAdd_eq]
    exact added key
  | mark elt flags =>
    have same : ∀ other,
        let later := update dh.elts elt { dh.elts elt with
          data := { (dh.elts elt).data with flags := flags } }
        (later other).key = (dh.elts other).key ∧ (later other).next = (dh.elts other).next ∧
          (later other).data.addr = (dh.elts other).data.addr := by
      intro other later
      by_cases isElt : other = elt
      · rw [isElt, show later elt = _ from update_self ..]
        exact ⟨rfl, rfl, rfl⟩
      · rw [show later other = _ from update_of_ne isElt ..]
        exact ⟨rfl, rfl, rfl⟩
    refine ⟨_, chain, rfl, indexed.mark same, ?_⟩
    intro key
    have keys := map_congr_left fun other (_ : other ∈ chain) =>
      (same other).1
    dsimp only
    rw [keys]
    exact ⟨Or.inr, fun either => either.elim nofun id⟩

theorem dhRun_indexed (calls : List DhCall) :
    ∃ dh chain, dhRun calls = some dh ∧ Indexed dh chain ∧
      ∀ key, (key ∈ chain.map fun elt => (dh.elts elt).key) ↔
        key ∈ (calls.flatMap DhCall.adds).map BitVec.toNat := by
  induction calls using List.reverseRecOn with
  | nil =>
    refine ⟨dhInit, [], rfl, ⟨rfl, nofun, nofun, trivial, .nil, rfl⟩, ?_⟩
    exact fun key => Iff.rfl
  | append_singleton calls call ih =>
    obtain ⟨dh, chain, isRun, indexed, keys⟩ := ih
    obtain ⟨later, longer, isLater, indexedLater, gains⟩ := indexed.step call
    refine ⟨later, longer, ?_, indexedLater, ?_⟩
    · unfold dhRun at isRun ⊢
      rw [foldlM_append, isRun]
      change (dhStep dh call).bind some = some later
      rw [isLater]
      rfl
    · intro key
      rw [gains, keys, flatMap_append, map_append, mem_append, flatMap_singleton, or_comm]

/-- The stored depth of the tree is logarithmic in the length of the list. -/
theorem index_depth (calls : List DhCall) :
    ∃ dh chain, dhRun calls = some dh ∧ Linked dh.elts dh.insnList chain ∧
      Nat.fib (dh.insnTree.depth + 2) ≤ chain.length + 1 := by
  obtain ⟨dh, chain, isRun, indexed, -⟩ := dhRun_indexed calls
  refine ⟨dh, chain, isRun, indexed.linked, ?_⟩
  have size := indexed.exact.fib_le
  rwa [indexed.entries, listed, length_map, ← indexed.exact.depth_eq] at size

theorem itreeSearchFilteredL_floor (ordered : tree.Ordered)
    (own : ∀ entry ∈ tree.entries, (elts entry.2).key = entry.1) (skey : Nat)
    (sfilter : BitVec 64) :
    Floor (tree.entries.filter fun entry => passes elts sfilter entry.2) skey
      ((itreeSearchFilteredL elts skey sfilter tree).map fun elt =>
        ((elts elt).key, elt)) := by
  induction tree with
  | null => nofun
  | node fields left right ihLeft ihRight =>
    obtain ⟨leftOrdered, rightOrdered, less, more⟩ := ordered_node ordered
    rw [AvlTree.entries] at own
    have ownKey : (elts fields.data).key = fields.key := own
      (fields.key, fields.data)
      (mem_append_right _ mem_cons_self)
    have floorLeft := ihLeft leftOrdered fun entry member =>
      own entry (mem_append_left _ member)
    have floorRight := ihRight rightOrdered fun entry member =>
      own entry (mem_append_right _ (mem_cons_of_mem _ member))
    rw [itreeSearchFilteredL, AvlTree.entries, filter_append]
    have leftSmall : ∀ entry ∈ left.entries.filter fun entry =>
        passes elts sfilter entry.2, entry.1 ≤ fields.key :=
      fun entry member =>
        Nat.le_of_lt (less entry (mem_filter.mp member).1)
    have rightLarge : ∀ entry ∈ right.entries.filter fun entry =>
        passes elts sfilter entry.2, fields.key < entry.1 :=
      fun entry member => more entry (mem_filter.mp member).1
    split
    next hit =>
      rw [filter_cons, if_pos hit.2, Option.map_some, ownKey]
      apply Floor.here (Nat.le_of_eq hit.1) leftSmall
      rw [← hit.1]
      exact rightLarge
    next miss =>
    split
    next isLess =>
      cases isFound : itreeSearchFilteredL elts skey sfilter right with
      | some res =>
        rw [isFound] at floorRight
        have larger := rightLarge _ floorRight.1
        dsimp only
        rw [← singleton_append, filter_append, ← append_assoc]
        apply floorRight.after
        intro entry member
        rcases mem_append.mp member with isLeft | isOwn
        · exact Nat.le_trans (leftSmall entry isLeft) (Nat.le_of_lt larger)
        · rw [mem_singleton.mp (mem_filter.mp isOwn).1]
          exact Nat.le_of_lt larger
      | none =>
        rw [isFound] at floorRight
        dsimp only
        split
        next passing =>
          rw [filter_cons, if_pos passing, Option.map_some, ownKey]
          exact Floor.here (Nat.le_of_lt isLess) leftSmall floorRight
        next failing =>
          rw [filter_cons, if_neg failing]
          exact floorLeft.before floorRight
    next notLess =>
      apply floorLeft.before
      intro entry member
      obtain ⟨inside, passing⟩ := mem_filter.mp member
      rcases mem_cons.mp inside with rfl | isRight
      · have differ : fields.key ≠ skey := fun same =>
          miss ⟨same, passing⟩
        dsimp only
        omega
      · have larger := more entry isRight
        omega

/-- After every sequence of calls the list is strictly ascending, the tree has
its keys and leads to its elements, the keys are the added addresses, and the
search with a filter finds the greatest key that is not larger and passes. -/
theorem debug_index_correct (calls : List DhCall) :
    ∃ dh chain, dhRun calls = some dh ∧
      Linked dh.elts dh.insnList chain ∧
      (chain.map fun elt => (dh.elts elt).key).Pairwise (· < ·) ∧
      dh.insnTree.entries = listed dh.elts chain ∧
      (∀ key, (key ∈ chain.map fun elt => (dh.elts elt).key) ↔
        key ∈ (calls.flatMap DhCall.adds).map BitVec.toNat) ∧
      ∀ skey sfilter,
        Floor ((listed dh.elts chain).filter fun entry =>
            passes dh.elts sfilter entry.2) skey
          ((itreeSearchFilteredL dh.elts skey sfilter dh.insnTree).map
            fun elt => ((dh.elts elt).key, elt)) := by
  obtain ⟨dh, chain, isRun, indexed, keys⟩ := dhRun_indexed calls
  refine ⟨dh, chain, isRun, indexed.linked, indexed.ascending, indexed.entries, keys, ?_⟩
  intro skey sfilter
  rw [← indexed.entries]
  apply itreeSearchFilteredL_floor indexed.ordered
  intro entry member
  rw [indexed.entries] at member
  obtain ⟨elt, -, rfl⟩ := mem_map.mp member
  rfl

end Reverse.DebugHelper
