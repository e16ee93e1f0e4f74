import Mathlib.Data.List.Forall2
import Reverse.DebugHelper.Index

/-!
# Functions without a known end

The elements that `dh_function_register` puts into the list of instructions,
and the walk of `dh_fix_functions` over them.  The list is a list in the order
of the addresses, in which `dh_search_add` finds or inserts an element.  The
walk ends an open function at the element behind its own, whatever that is.
-/

namespace Reverse.DebugHelper

open Function
open List hiding after

/-- The fields of `function_t` that `function_copy` copies and the walk
uses. -/
structure FunctionCopy where
  type : BitVec 8
  lowpc : BitVec 32
  highpc : BitVec 32
  deriving DecidableEq, Repr

/-- A function of the debug information; the number of its ranges is their
count. -/
structure FunctionNfo extends FunctionCopy where
  declaration : Int
  ranges : List (BitVec 32 × BitVec 32)

/-- The fields of `insn_t` that the walk uses. -/
structure FuncElt where
  addr : BitVec 32
  flags : BitVec 32
  func : List FunctionCopy
  deriving DecidableEq, Repr

def functionTypeFunc : BitVec 8 := 0x01

def eltFlagsUnused : BitVec 32 := 0x01

def eltFlagsFuncEntry : BitVec 32 := 0x02

def eltFlagsFuncEnd : BitVec 32 := 0x04

def eltFlagsFuncRange : BitVec 32 := 0x40

/-- The end address of a function whose end is not known. -/
def unknownEnd : BitVec 32 := 0xFFFFFFFF

/-- What `dh_search_add` and a change of the element it gives make of the
list. -/
def searchAddChange (addr : BitVec 32) (change : FuncElt → FuncElt) : List FuncElt → List FuncElt
  | [] => [change ⟨addr, 0, []⟩]
  | elt :: rest =>
    if elt.addr = addr then change elt :: rest
    else if addr < elt.addr then change ⟨addr, 0, []⟩ :: elt :: rest
    else elt :: searchAddChange addr change rest

/-- The flags are set and the function is put in front. -/
def FuncElt.mark (flags : BitVec 32) (func : List FunctionCopy) (elt : FuncElt) : FuncElt :=
  { elt with
    flags := elt.flags ||| (eltFlagsUnused ||| flags), func := func ++ elt.func }

def dhFunctionRegister (elts : List FuncElt) (func : FunctionNfo) : List FuncElt :=
  if func.declaration = 1 then elts
  else if func.ranges ≠ [] then
    func.ranges.foldl (fun elts range =>
      searchAddChange range.1 (FuncElt.mark eltFlagsFuncRange [func.toFunctionCopy]) elts) elts
  else
    searchAddChange func.highpc (FuncElt.mark eltFlagsFuncEnd [])
      (searchAddChange func.lowpc (FuncElt.mark eltFlagsFuncEntry [func.toFunctionCopy]) elts)

def FuncElt.isEntry (elt : FuncElt) : Bool :=
  elt.flags &&& eltFlagsFuncEntry ≠ 0

/-- The walk over the list; `none` is an entry without a function. -/
def dhFixFunctions : List FuncElt → Option (List FuncElt)
  | [] => some []
  | pelt :: next =>
    if pelt.isEntry then
      match pelt.func with
      | [] => none
      | func :: others =>
        if func.type = functionTypeFunc ∧ func.highpc = unknownEnd then
          -- The inner loop tests the type of `pelt` and so stops at once.
          match next with
          | [] => some [pelt]
          | after :: rest =>
            (dhFixFunctions (after :: rest)).map
              ({ pelt with
                func := { func with highpc := after.addr } :: others } :: ·)
        else (dhFixFunctions next).map (pelt :: ·)
    else (dhFixFunctions next).map (pelt :: ·)

def nextEntry (rest : List FuncElt) : Option (BitVec 32) :=
  (rest.find? FuncElt.isEntry).map FuncElt.addr

/-- A function with a known end is kept, and one without ends at the next
function entry. -/
def Ends (rest : List FuncElt) (func later : FunctionCopy) : Prop :=
  later.type = func.type ∧ later.lowpc = func.lowpc ∧
  (func.highpc ≠ unknownEnd → later.highpc = func.highpc) ∧
  (func.highpc = unknownEnd → ∀ entry ∈ nextEntry rest, later.highpc = entry)

/-- The elements are the same up to the ends of their functions, which are
right. -/
def Fixed : List FuncElt → List FuncElt → Prop
  | [], [] => True
  | elt :: rest, later :: others =>
    (later.addr = elt.addr ∧ later.flags = elt.flags ∧
      List.Forall₂ (Ends rest) elt.func later.func) ∧ Fixed rest others
  | _, _ => False

/-- A function that the walk does not change has a known end, or no entry
follows, or the entry that follows has the address of the unknown end. -/
def MayStay (rest : List FuncElt) (func : FunctionCopy) : Prop :=
  func.highpc = unknownEnd → ∀ entry ∈ nextEntry rest, unknownEnd = entry

def FuncElt.Changes (elt : FuncElt) (func : FunctionCopy) : Prop :=
  elt.isEntry = true ∧ func.type = functionTypeFunc ∧ func.highpc = unknownEnd

instance (elt : FuncElt) (func : FunctionCopy) : Decidable (elt.Changes func) :=
  inferInstanceAs (Decidable (_ ∧ _))

/-- If the walk changes the first function of the element, the element behind
is the next function entry; all others may stay. -/
def FuncElt.Closes (elt : FuncElt) (rest : List FuncElt) : Prop :=
  match elt.func with
  | [] => True
  | func :: others =>
    (if elt.Changes func then
      ∀ entry ∈ nextEntry rest, rest.head?.map FuncElt.addr = some entry
    else MayStay rest func) ∧ ∀ other ∈ others, MayStay rest other

def AllClose : List FuncElt → Prop
  | [] => True
  | elt :: rest => elt.Closes rest ∧ AllClose rest

/-- Every entry has a function. -/
def EntriesNamed (elts : List FuncElt) : Prop :=
  ∀ elt ∈ elts, elt.isEntry = true → elt.func ≠ []

/-- What the walk makes of one element. -/
def FuncElt.fix (elt : FuncElt) (rest : List FuncElt) : FuncElt :=
  match elt.func, rest with
  | func :: others, after :: _ =>
    if elt.Changes func then
      { elt with func := { func with highpc := after.addr } :: others }
    else elt
  | _, _ => elt

theorem FuncElt.fix_unchanged (elt : FuncElt) (rest : List FuncElt)
    (unchanged : ∀ func ∈ elt.func.head?, ¬elt.Changes func) :
    elt.fix rest = elt := by
  unfold FuncElt.fix
  split
  · rename_i func others after behind funcs
    exact if_neg (unchanged func (by rw [funcs]; rfl))
  · rfl

theorem dhFixFunctions_cons (named : elt.isEntry = true → elt.func ≠ []) (rest : List FuncElt) :
    dhFixFunctions (elt :: rest) = (dhFixFunctions rest).map (elt.fix rest :: ·) := by
  conv_lhs => unfold dhFixFunctions
  by_cases isEntry : elt.isEntry = true
  · rw [if_pos isEntry]
    cases funcs : elt.func with
    | nil => exact absurd funcs (named isEntry)
    | cons func others =>
      dsimp only
      by_cases opened : func.type = functionTypeFunc ∧ func.highpc = unknownEnd
      · rw [if_pos opened]
        cases rest with
        | nil =>
          unfold FuncElt.fix
          rw [funcs]
          rfl
        | cons after rest =>
          unfold FuncElt.fix
          simp only [funcs, if_pos (show elt.Changes func from ⟨isEntry, opened⟩)]
      · rw [if_neg opened, elt.fix_unchanged rest]
        rw [funcs]
        rintro _ ⟨⟩ changes
        exact opened changes.2
  · rw [if_neg isEntry, elt.fix_unchanged rest]
    exact fun _ _ changes => isEntry changes.1

theorem ends_self_iff (rest : List FuncElt) (func : FunctionCopy) :
    Ends rest func func ↔ MayStay rest func := by
  constructor
  · rintro ⟨-, -, -, atEntry⟩ isOpen entry next
    rw [← atEntry isOpen entry next, isOpen]
  · intro stays
    refine ⟨rfl, rfl, fun _ => rfl, ?_⟩
    intro isOpen entry next
    rw [isOpen]
    exact stays isOpen entry next

theorem forall₂_ends_self_iff (rest : List FuncElt) (funcs : List FunctionCopy) :
    List.Forall₂ (Ends rest) funcs funcs ↔ ∀ func ∈ funcs, MayStay rest func := by
  rw [forall₂_same]
  exact forall₂_congr fun func _ => ends_self_iff rest func

theorem FuncElt.fix_rest (elt : FuncElt) (rest : List FuncElt) :
    (elt.fix rest).addr = elt.addr ∧ (elt.fix rest).flags = elt.flags := by
  unfold FuncElt.fix
  split
  · split
    · exact ⟨rfl, rfl⟩
    · exact ⟨rfl, rfl⟩
  · exact ⟨rfl, rfl⟩

theorem FuncElt.fix_iff (elt : FuncElt) (rest : List FuncElt) :
    List.Forall₂ (Ends rest) elt.func (elt.fix rest).func ↔ elt.Closes rest := by
  unfold FuncElt.Closes
  cases funcs : elt.func with
  | nil => simp [FuncElt.fix, funcs]
  | cons func others =>
    have others_iff := forall₂_ends_self_iff rest others
    by_cases changes : elt.Changes func
    · cases rest with
      | nil =>
        have noEntry : ∀ func, MayStay [] func := fun _ _ _ none => nomatch none
        simp [FuncElt.fix, funcs, ends_self_iff, noEntry, changes, nextEntry]
      | cons after rest =>
        simp only [FuncElt.fix, funcs, if_pos changes, forall₂_cons, others_iff]
        apply and_congr_left'
        constructor
        · rintro ⟨-, -, -, atEntry⟩ entry next
          exact congrArg some (atEntry changes.2.2 entry next)
        · intro isNext
          refine ⟨rfl, rfl, fun known => absurd changes.2.2 known, ?_⟩
          intro _ entry next
          exact Option.some.inj (isNext entry next)
    · have kept : elt.fix rest = elt := by
        apply elt.fix_unchanged
        rw [funcs]
        rintro _ ⟨⟩
        exact changes
      dsimp only
      rw [kept, funcs, if_neg changes, forall₂_cons, others_iff, ends_self_iff]

theorem dhFixFunctions_fixed_iff (named : EntriesNamed elts) :
    (∃ later, dhFixFunctions elts = some later ∧ Fixed elts later) ↔ AllClose elts := by
  induction elts with
  | nil => exact iff_of_true ⟨[], rfl, trivial⟩ trivial
  | cons elt rest ih =>
    have restNamed : EntriesNamed rest := fun other member =>
      named other (mem_cons_of_mem elt member)
    rw [dhFixFunctions_cons (named elt mem_cons_self), AllClose, ← ih restNamed, ← elt.fix_iff rest]
    constructor
    · rintro ⟨later, walked, fixed⟩
      obtain ⟨others, isOthers, rfl⟩ := Option.map_eq_some_iff.mp walked
      exact ⟨fixed.1.2.2, others, isOthers, fixed.2⟩
    · rintro ⟨ends, others, isOthers, fixed⟩
      obtain ⟨sameAddr, sameFlags⟩ := elt.fix_rest rest
      refine ⟨elt.fix rest :: others, ?_, ⟨sameAddr, sameFlags, ends⟩, fixed⟩
      rw [isOthers]
      rfl

/-- An instruction of the index, with its functions. -/
def DebugHelper.funcElt (dh : DebugHelper) (func : EltPtr → List FunctionCopy) (elt : EltPtr) :
    FuncElt :=
  ⟨(dh.elts elt).data.addr, (dh.elts elt).data.flags, func elt⟩

theorem searchAddChange_after (less : ∀ elt ∈ before, elt.addr < addr)
    (change : FuncElt → FuncElt) (after : List FuncElt) :
    searchAddChange addr change (before ++ after) =
      before ++ searchAddChange addr change after := by
  induction before with
  | nil => rfl
  | cons first before ih =>
    have isLess := less first mem_cons_self
    rw [cons_append, searchAddChange, if_neg (BitVec.ne_of_lt isLess),
      if_neg (BitVec.lt_asymm isLess), ih fun elt member => less elt (mem_cons_of_mem _ member)]
    rfl

theorem searchAddChange_front (less : ∀ elt ∈ elts, addr < elt.addr) (change : FuncElt → FuncElt) :
    searchAddChange addr change elts = change ⟨addr, 0, []⟩ :: elts := by
  cases elts with
  | nil => rfl
  | cons first rest =>
    have isLess := less first mem_cons_self
    rw [searchAddChange, if_neg (BitVec.ne_of_lt isLess).symm, if_pos isLess]

/-- The list is the one of the index: `dhSearchAdd` and a change of the element
it gives do to the index what `searchAddChange` does to its instructions. -/
theorem Indexed.searchAddChange (indexed : Indexed dh chain) (func : EltPtr → List FunctionCopy)
    (fresh : ∀ elt ∉ chain, func elt = []) (addr : BitVec 32) (change : FuncElt → FuncElt) :
    ∃ elt later longer, dhSearchAdd dh addr = some (elt, later) ∧ Indexed later longer ∧
      longer.map (update (later.funcElt func) elt (change (later.funcElt func elt))) =
        Reverse.DebugHelper.searchAddChange addr change (chain.map (dh.funcElt func)) := by
  obtain ⟨elt, later, before, after, isLater, added⟩ := indexed.searchAdd addr
  refine ⟨elt, later, before ++ elt :: after, isLater, added.indexed, ?_⟩
  have sorted : (before ++ elt :: after).Pairwise fun first second =>
      (later.funcElt func first).addr < (later.funcElt func second).addr := by
    refine (pairwise_map.mp added.indexed.ascending).imp_of_mem ?_
    intro first second isFirst isSecond less
    rwa [added.indexed.keyed first isFirst, added.indexed.keyed second isSecond] at less
  obtain ⟨-, isElt, across⟩ := pairwise_append.mp sorted
  have own : (later.funcElt func elt).addr = addr := added.own
  have smaller : ∀ first ∈ before.map (later.funcElt func), first.addr < addr := by
    intro first member
    obtain ⟨other, isOther, rfl⟩ := mem_map.mp member
    exact own ▸ across other isOther elt mem_cons_self
  have larger : ∀ second ∈ after.map (later.funcElt func), addr < second.addr := by
    intro second member
    obtain ⟨other, isOther, rfl⟩ := mem_map.mp member
    exact own ▸ rel_of_pairwise_cons isElt isOther
  have same : chain.map (dh.funcElt func) = chain.map (later.funcElt func) := by
    apply map_congr_left
    intro other member
    unfold DebugHelper.funcElt
    rw [added.kept other member]
  obtain ⟨notBefore, notAfter⟩ := not_or.mp (mt mem_append.mpr
    (nodup_middle.mp added.indexed.nodup).notMem)
  have others : ∀ part : List EltPtr, elt ∉ part →
      part.map (update (later.funcElt func) elt (change (later.funcElt func elt))) =
        part.map (later.funcElt func) := by
    intro part outside
    apply map_congr_left
    intro other member
    exact update_of_ne (ne_of_mem_of_not_mem member outside) ..
  rw [same, map_append, map_cons, update_self, others before notBefore, others after notAfter]
  rcases added.place with rfl | ⟨rfl, isNew⟩
  · rw [map_append, searchAddChange_after smaller, map_cons, Reverse.DebugHelper.searchAddChange,
      if_pos own]
  · have none : later.funcElt func elt = ⟨addr, 0, []⟩ := by
      unfold DebugHelper.funcElt
      rw [isNew, fresh elt (mt mem_append.mp (not_or.mpr ⟨notBefore, notAfter⟩))]
      rfl
    rw [map_append, searchAddChange_after smaller, searchAddChange_front larger, none]

theorem mem_searchAddChange (member : elt ∈ searchAddChange addr change elts) :
    elt ∈ elts ∨ elt = change ⟨addr, 0, []⟩ ∨ ∃ old ∈ elts, elt = change old := by
  induction elts with
  | nil => exact Or.inr (Or.inl (mem_singleton.mp member))
  | cons first rest ih =>
    unfold searchAddChange at member
    split at member
    · rcases mem_cons.mp member with isFirst | inRest
      · exact Or.inr (Or.inr ⟨first, mem_cons_self, isFirst⟩)
      · exact Or.inl (mem_cons_of_mem first inRest)
    split at member
    · rcases mem_cons.mp member with isNew | isOld
      · exact Or.inr (Or.inl isNew)
      · exact Or.inl isOld
    · rcases mem_cons.mp member with isFirst | inRest
      · exact Or.inl (isFirst ▸ mem_cons_self)
      · rcases ih inRest with isOld | isNew | ⟨old, isOld, isChanged⟩
        · exact Or.inl (mem_cons_of_mem first isOld)
        · exact Or.inr (Or.inl isNew)
        · exact Or.inr (Or.inr ⟨old, mem_cons_of_mem first isOld, isChanged⟩)

theorem EntriesNamed.searchAdd (named : EntriesNamed elts) (addr : BitVec 32)
    (enough : flags &&& eltFlagsFuncEntry = 0 ∨ func ≠ []) :
    EntriesNamed (searchAddChange addr (FuncElt.mark flags func) elts) := by
  have marked : ∀ elt : FuncElt, (elt.isEntry = true → elt.func ≠ []) →
      (elt.mark flags func).isEntry = true → (elt.mark flags func).func ≠ [] := by
    intro elt wasNamed isEntry
    rcases enough with noEntry | isFunc
    · have before : elt.isEntry = true := by
        apply decide_eq_true
        intro none
        apply of_decide_eq_true isEntry
        change (elt.flags ||| (eltFlagsUnused ||| flags)) &&& eltFlagsFuncEntry = 0
        rw [BitVec.and_or_distrib_right, BitVec.and_or_distrib_right, none, noEntry]
        decide
      exact append_ne_nil_of_right_ne_nil _ (wasNamed before)
    · exact append_ne_nil_of_left_ne_nil isFunc _
  intro elt member isEntry
  rcases mem_searchAddChange member with isOld | rfl | ⟨old, isOld, rfl⟩
  · exact named elt isOld isEntry
  · have plain : FuncElt.isEntry ⟨addr, 0, []⟩ = false := by
      simp [FuncElt.isEntry]
    exact marked _ (fun none => nomatch plain.symm.trans none) isEntry
  · exact marked old (named old isOld) isEntry

theorem EntriesNamed.register (named : EntriesNamed elts)
    (func : FunctionNfo) : EntriesNamed (dhFunctionRegister elts func) := by
  unfold dhFunctionRegister
  split
  · exact named
  split
  · exact List.foldlRecOn func.ranges _ named fun _ kept range _ =>
      kept.searchAdd range.1 (Or.inr (cons_ne_nil _ _))
  · apply EntriesNamed.searchAdd
    · exact named.searchAdd func.lowpc (Or.inr (cons_ne_nil _ _))
    · exact Or.inl (by decide)

theorem entriesNamed_built (funcs : List FunctionNfo) :
    EntriesNamed (funcs.foldl dhFunctionRegister []) :=
  List.foldlRecOn funcs _ nofun fun _ named func _ => named.register func

/-- In every list that `dh_function_register` builds, the walk keeps the
functions with a known end and ends the others at the next function entry,
exactly if every function that it changes is followed at once by a function
entry and every open one that it does not change may stay. -/
theorem open_functions_closed_iff (funcs : List FunctionNfo) :
    (∃ later, dhFixFunctions (funcs.foldl dhFunctionRegister []) =
        some later ∧ Fixed (funcs.foldl dhFunctionRegister []) later) ↔
      AllClose (funcs.foldl dhFunctionRegister []) :=
  dhFixFunctions_fixed_iff (entriesNamed_built funcs)

/-- The end of another function lies between an open function and the next
entry: the open one ends there. -/
theorem ended_at_other_end :
    let elts := [(⟨⟨functionTypeFunc, 0x100, unknownEnd⟩, 0, []⟩ :
        FunctionNfo), ⟨⟨functionTypeFunc, 0x80, 0x140⟩, 0, []⟩,
      ⟨⟨functionTypeFunc, 0x200, 0x300⟩, 0, []⟩].foldl dhFunctionRegister []
    (elts.map FuncElt.addr = [0x80, 0x100, 0x140, 0x200, 0x300, unknownEnd] ∧
      nextEntry (elts.drop 2) = some 0x200) ∧
      (dhFixFunctions elts).map (fun later =>
        later[1]?.map FuncElt.func) = some (some [⟨functionTypeFunc, 0x100, 0x140⟩]) := by
  decide

end Reverse.DebugHelper
