import Reverse.Decopus.EventChain

/-!
# The list of references

Each container of an event has sixteen slots for references and its own count.
The handler adds the counts up and looks for a reference in the container that
its index leads to, so that it sees one list only if no container is partly
filled before another one with references.  `HWE_HEAD_set_nrefs` does not look
at the containers behind the last one that it needs.
-/

namespace Reverse.Decopus

open Function List Option BitVec

/-- References that have been asked for; `none` is one that was not set. -/
abbrev RefList := List (Option Ref)

def RefList.resize (list : RefList) (count : Nat) : RefList :=
  list.take count ++ List.replicate (count - list.length) none

theorem RefList.length_resize (list : RefList) (count : Nat) :
    (list.resize count).length = count := by
  simp only [resize, length_append, length_take, length_replicate]
  omega

theorem RefList.drop_resize (list : RefList) (count size : Nat) :
    (list.resize count).drop size = RefList.resize (list.drop size) (count - size) := by
  rw [resize, resize, drop_append, drop_take, drop_replicate, length_take, length_drop]
  congr 2
  omega

theorem RefList.set_of_resize {list : RefList} {count idx : Nat}
    (found : (list.resize count)[idx]? = some (some href)) :
    list[idx]? = some (some href) := by
  rw [resize, List.getElem?_append] at found
  split at found
  · rw [List.getElem?_take] at found
    split at found
    · exact found
    · cases found
  · rw [List.getElem?_replicate] at found
    split at found <;> cases found

inductive RefCall where
  | reset (type : BitVec 4) (nrefs : BitVec 32) (ndates : BitVec 2)
  | setNrefs (nrefs : BitVec 32)
  | addRef (href : Ref)
  | setRef (ind : BitVec 32) (href : Ref)

def RefCall.apply (pool : Pool) (chain : List Part) : RefCall → List Part
  | .reset type nrefs ndates =>
    hweHeadReset pool 0 chain type nrefs.toNat ndates
  | .setNrefs nrefs => hweHeadSetNrefs pool 0 chain nrefs.toNat
  | .addRef href => hweHeadAddRef pool 0 chain href
  | .setRef ind href => hweHeadSetRef chain ind.toNat href

def RefCall.meant (list : RefList) : RefCall → RefList
  | .reset _ nrefs _ => list.resize nrefs.toNat
  | .setNrefs nrefs => list.resize nrefs.toNat
  | .addRef href => list ++ [some href]
  | .setRef ind href => list.set ind.toNat (some href)

/-- The handler sees the list: its length, a reference at each index, which is
the one that was set, and none behind the last one. -/
def Sees (chain : List Part) (list : RefList) : Prop :=
  handleCount chain = list.length ∧
    ∀ idx, match list[idx]? with
      | none => eventRef chain idx = some none
      | some entry => ∃ href, eventRef chain idx = some (some href) ∧
          ∀ set ∈ entry, href = set

/-- All containers but the last one with references are full. -/
def Holds : List Part → RefList → Prop
  | [], list => list = []
  | cont :: rest, list =>
    cont.nrefs = min hweRefMax list.length ∧
      (∀ idx < hweRefMax, ∀ href, list[idx]? = some (some href) → cont.refs idx = href) ∧
      Holds rest (list.drop hweRefMax)

theorem Holds.sum (holds : Holds chain list) : (chain.map Part.nrefs).sum = list.length := by
  induction chain generalizing list with
  | nil =>
    cases holds
    rfl
  | cons cont rest ih =>
    obtain ⟨count, _, behind⟩ := holds
    rw [map_cons, sum_cons, count, ih behind, length_drop]
    omega

theorem Holds.slot (holds : Holds chain list) (found : list[idx]? = some entry) :
    ∃ href, refSlot chain idx = some href ∧ ∀ set ∈ entry, href = set := by
  induction chain generalizing list idx with
  | nil =>
    cases holds
    cases found
  | cons cont rest ih =>
    obtain ⟨_, slots, behind⟩ := holds
    unfold refSlot
    split
    · next inside =>
        refine ⟨_, rfl, fun set isSet => ?_⟩
        cases isSet
        exact slots idx inside set found
    · next outside =>
        apply ih behind
        rw [List.getElem?_drop, Nat.add_sub_cancel' (Nat.not_lt.mp outside)]
        exact found

theorem Holds.sees (holds : Holds chain list) (fits : list.length < 2 ^ 31) : Sees chain list := by
  have count : handleCount chain = list.length := by
    rw [handleCount, holds.sum, toInt_eq_toNat_of_lt]
    all_goals
      rw [toNat_ofNat]
      omega
  refine ⟨count, fun idx => ?_⟩
  split
  · next outside =>
      have behind : list.length ≤ idx := List.getElem?_eq_none_iff.mp outside
      rw [eventRef, count, if_pos (by omega)]
  · next entry found =>
      obtain ⟨inside, _⟩ := List.getElem?_eq_some_iff.mp found
      obtain ⟨href, slot, isSet⟩ := holds.slot found
      refine ⟨href, ?_, isSet⟩
      rw [eventRef, count, if_neg (by omega), slot]
      rfl

/-- An empty chain stands for the containers that are not linked yet. -/
theorem Holds.current (holds : Holds chain list) (pool : Pool) (pos : Nat) :
    Holds (current pool pos chain :: chain.tail) list := by
  cases chain with
  | nil =>
    cases holds
    refine ⟨rfl, ?_, rfl⟩
    simp
  | cons cont rest => exact holds

theorem Holds.setCount (holds : Holds (cont :: rest) list) (refs : later.refs = cont.refs)
    (count : later.nrefs = min hweRefMax nrefs) (tail : Holds behind
      (RefList.resize (list.drop hweRefMax) (nrefs - hweRefMax))) :
    Holds (later :: behind) (list.resize nrefs) := by
  refine ⟨?_, fun idx inside href found => ?_, ?_⟩
  · rw [RefList.length_resize, count]
  · rw [refs]
    exact holds.2.1 idx inside href (RefList.set_of_resize found)
  · rw [RefList.drop_resize]
    exact tail

theorem Holds.reset (holds : Holds chain list) (pool : Pool) (pos : Nat)
    (type : BitVec 4) (nrefs : Nat) (ndates : BitVec 2) :
    Holds (hweHeadReset pool pos chain type nrefs ndates) (list.resize nrefs) := by
  induction pos, chain, type, nrefs, ndates
      using hweHeadReset.induct pool generalizing list with
  | case1 pos chain type nrefs ndates stops =>
    rw [hweHeadReset, if_pos stops]
    have here := holds.current pool pos
    have single : chain.tail = [] := by
      rw [← length_eq_zero_iff, length_tail]
      omega
    rw [single] at here
    have last : list.drop hweRefMax = [] := here.2.2
    refine here.setCount rfl rfl ?_
    rw [last, Nat.sub_eq_zero_of_le stops.1]
    rfl
  | case2 pos chain type nrefs ndates goes ih =>
    rw [hweHeadReset, if_neg goes]
    have here := holds.current pool pos
    exact here.setCount rfl rfl (ih here.2.2)

/-- The number of references that `HWE_HEAD_set_nrefs` has containers for. -/
def reach (nrefs : Nat) : Nat :=
  hweRefMax * max 1 ((nrefs + 15) / hweRefMax)

theorem reach_of_lt (large : hweRefMax < nrefs) :
    reach nrefs = hweRefMax + reach (nrefs - hweRefMax) := by
  unfold reach hweRefMax at *
  omega

theorem reach_of_le (small : nrefs ≤ hweRefMax) : reach nrefs = hweRefMax := by
  unfold reach hweRefMax at *
  omega

theorem Holds.setNrefs (holds : Holds chain list) (pool : Pool)
    (pos : Nat) (reached : list.length ≤ reach nrefs) :
    Holds (hweHeadSetNrefs pool pos chain nrefs) (list.resize nrefs) := by
  induction pos, chain, nrefs using hweHeadSetNrefs.induct pool generalizing list with
  | case1 pos chain nrefs large ih =>
    rw [hweHeadSetNrefs, if_pos large]
    have here := holds.current pool pos
    rw [reach_of_lt large] at reached
    refine here.setCount rfl (Nat.min_eq_left (Nat.le_of_lt large)).symm (ih here.2.2 ?_)
    rw [length_drop]
    omega
  | case2 pos chain nrefs small =>
    rw [hweHeadSetNrefs, if_neg small]
    have here := holds.current pool pos
    have small : nrefs ≤ hweRefMax := Nat.not_lt.mp small
    rw [reach_of_le small] at reached
    refine here.setCount rfl (Nat.min_eq_right small).symm ?_
    rw [drop_eq_nil_of_le reached, Nat.sub_eq_zero_of_le small]
    have behind := here.2.2
    rw [drop_eq_nil_of_le reached] at behind
    exact behind

theorem Holds.sum_setNrefs (holds : Holds chain list) (pool : Pool) (pos nrefs : Nat) :
    ((hweHeadSetNrefs pool pos chain nrefs).map Part.nrefs).sum =
      nrefs + (list.length - reach nrefs) := by
  induction pos, chain, nrefs using hweHeadSetNrefs.induct pool generalizing list with
  | case1 pos chain nrefs large ih =>
    rw [hweHeadSetNrefs, if_pos large]
    have here := holds.current pool pos
    rw [map_cons, sum_cons, ih here.2.2, reach_of_lt large, length_drop]
    dsimp only
    omega
  | case2 pos chain nrefs small =>
    rw [hweHeadSetNrefs, if_neg small]
    have here := holds.current pool pos
    have small : nrefs ≤ hweRefMax := Nat.not_lt.mp small
    rw [map_cons, sum_cons, here.2.2.sum, reach_of_le small, length_drop]

/-- A container that is not full and has none with references behind it takes
another reference. -/
theorem Holds.push (holds : Holds (cont :: rest) list)
    (room : list.length < hweRefMax) (href : Ref) :
    Holds (cont.push href :: rest) (list ++ [some href]) := by
  obtain ⟨count, slots, behind⟩ := holds
  have filled : cont.nrefs = list.length := by
    rw [count, Nat.min_eq_right (Nat.le_of_lt room)]
  refine ⟨?_, fun idx inside set found => ?_, ?_⟩
  · rw [length_append, length_singleton, Nat.min_eq_right room]
    exact congrArg Nat.succ filled
  · rw [List.getElem?_append] at found
    rw [Part.push, filled]
    dsimp only
    split at found
    · next before =>
        rw [update_of_ne (Nat.ne_of_lt before)]
        exact slots idx inside set found
    · next after =>
        obtain ⟨last, same⟩ := List.getElem?_eq_some_iff.mp found
        have at_end : idx = list.length := by
          rw [length_singleton] at last
          omega
        rw [getElem_singleton] at same
        rw [at_end, update_self]
        exact some.inj same
  · rw [drop_eq_nil_of_le (Nat.le_of_lt room)] at behind
    rw [drop_eq_nil_of_le]
    · exact behind
    · rw [length_append, length_singleton]
      exact room

theorem Holds.addRef (holds : Holds chain list) (pool : Pool) (pos : Nat) (href : Ref) :
    Holds (hweHeadAddRef pool pos chain href) (list ++ [some href]) := by
  induction chain generalizing list pos with
  | nil =>
    have here := holds.current pool pos
    cases holds
    exact here.push (by decide) href
  | cons cont rest ih =>
    obtain ⟨count, slots, behind⟩ := holds
    unfold hweHeadAddRef
    split
    · next full =>
        have long : hweRefMax ≤ list.length := by omega
        refine ⟨?_, fun idx inside set found => ?_, ?_⟩
        · rw [full, length_append, Nat.min_eq_left]
          omega
        · rw [List.getElem?_append_left (by omega)] at found
          exact slots idx inside set found
        · rw [drop_append_of_le_length long]
          exact ih behind (pos + 1)
    · next room =>
        exact Holds.push ⟨count, slots, behind⟩ (by omega) href

theorem Holds.setRef (holds : Holds chain list) (ind : Nat) (href : Ref) :
    Holds (hweHeadSetRef chain ind href) (list.set ind (some href)) := by
  induction chain generalizing list ind with
  | nil =>
    cases holds
    rfl
  | cons cont rest ih =>
    obtain ⟨count, slots, behind⟩ := holds
    unfold hweHeadSetRef
    split
    · next outside =>
        refine ⟨by rw [length_set, count], ?_, ?_⟩
        · intro idx inside set found
          rw [List.getElem?_set_ne (by omega)] at found
          exact slots idx inside set found
        · rw [drop_set, if_neg (Nat.not_lt.mpr outside)]
          exact ih behind _
    · next inside =>
        refine ⟨by rw [length_set]; exact count, ?_, ?_⟩
        · intro idx within set found
          dsimp only
          by_cases same : ind = idx
          · subst same
            have bounded : ind < list.length := by
              rw [← length_set]
              exact (List.getElem?_eq_some_iff.mp found).1
            rw [List.getElem?_set_self bounded] at found
            rw [update_self]
            exact some.inj (some.inj found)
          · rw [List.getElem?_set_ne same] at found
            rw [update_of_ne (Ne.symm same)]
            exact slots idx within set found
        · rw [drop_set, if_pos (Nat.not_le.mp inside)]
          exact behind

/-- The list fits the counter of the handler, and a new count does not leave
references behind the containers that it reaches. -/
def RefCall.Fine (list : RefList) (call : RefCall) : Prop :=
  (call.meant list).length < 2 ^ 31 ∧
    ∀ nrefs, call = .setNrefs nrefs → list.length ≤ reach nrefs.toNat

theorem RefCall.Fine.holds {call : RefCall} (fine : call.Fine list)
    (holds : Holds chain list) (pool : Pool) : Holds (call.apply pool chain) (call.meant list) := by
  cases call with
  | reset type nrefs ndates => exact holds.reset pool 0 type _ ndates
  | setNrefs nrefs => exact holds.setNrefs pool 0 (fine.2 nrefs rfl)
  | addRef href => exact holds.addRef pool 0 href
  | setRef ind href => exact holds.setRef ind.toNat href

/-- The handler would see another count. -/
theorem Holds.fine_of_sees (holds : Holds chain list) (fits : list.length < 2 ^ 31) {call : RefCall}
    (sees : Sees (call.apply pool chain) (call.meant list)) :
    call.Fine list := by
  have count := sees.1
  constructor
  · have bounded : handleCount (call.apply pool chain) < 2 ^ 31 := toInt_lt
    omega
  · rintro nrefs rfl
    have total := holds.sum_setNrefs pool 0 nrefs.toNat
    have bounded := nrefs.isLt
    simp only [handleCount, RefCall.apply, RefCall.meant,
      RefList.length_resize, total, toInt_eq_toNat_cond,
      toNat_ofNat] at count
    split at count <;> omega

def refChain (pool : Pool) (calls : List RefCall) : List Part :=
  calls.foldl (RefCall.apply pool) (hweInit pool)

def refList (calls : List RefCall) : RefList :=
  calls.foldl RefCall.meant []

theorem refChain_concat (pool : Pool) (calls : List RefCall) (call : RefCall) :
    refChain pool (calls ++ [call]) = call.apply pool (refChain pool calls) := by
  simp [refChain]

theorem refList_concat (calls : List RefCall) (call : RefCall) :
    refList (calls ++ [call]) = call.meant (refList calls) := by
  simp [refList]

theorem refChain_holds (pool : Pool) {calls : List RefCall}
    (fine : ∀ m < n, ∀ call : RefCall, calls[m]? = some call → call.Fine (refList (calls.take m))) :
    Holds (refChain pool (calls.take n)) (refList (calls.take n)) ∧
      (refList (calls.take n)).length < 2 ^ 31 := by
  induction n with
  | zero =>
    have empty : Holds [] [] := rfl
    exact ⟨empty.current pool 0, Nat.two_pow_pos 31⟩
  | succ n ih =>
    obtain ⟨holds, fits⟩ := ih fun m before =>
      fine m (Nat.lt_succ_of_lt before)
    rw [take_add_one]
    cases found : calls[n]? with
    | none => simpa using ⟨holds, fits⟩
    | some call =>
      have here := fine n (Nat.lt_succ_self n) call found
      rw [toList_some, refChain_concat, refList_concat]
      exact ⟨here.holds holds pool, here.1⟩

/-- The handler sees the references that were asked for, after each call of a
sequence, exactly if all calls are fine. -/
theorem references_seen_iff (pool : Pool) (calls : List RefCall) :
    (∀ n, Sees (refChain pool (calls.take n)) (refList (calls.take n))) ↔
      ∀ n (call : RefCall), calls[n]? = some call → call.Fine (refList (calls.take n)) := by
  constructor
  · intro sees n
    induction n using Nat.strong_induction_on with
    | _ n ih =>
      intro call found
      obtain ⟨holds, fits⟩ := refChain_holds pool ih
      have next := sees (n + 1)
      rw [take_add_one, found, toList_some, refChain_concat, refList_concat] at next
      exact holds.fine_of_sees fits next
  · intro fine n
    obtain ⟨holds, fits⟩ := refChain_holds pool fun m (_ : m < n) => fine m
    exact holds.sees fits

/-- Seventeen references are asked for, then one. -/
theorem shrunk_count_seen :
    ∃ pool : Pool,
      handleCount (refChain pool [.setNrefs 17, .setNrefs 1]) = 2 ∧
      refList [.setNrefs 17, .setNrefs 1] = [none] ∧
      ¬ Sees (refChain pool [.setNrefs 17, .setNrefs 1]) (refList [.setNrefs 17, .setNrefs 1]) := by
  let empty : Part :=
    { type := 0, ndates := 0, nrefs := 0, expected := 0, refs := fun _ => 0
      mem32 := ⟨0, 0, 0, 0, 0, 0, 0, 0, 0⟩, data := fun _ => 0 }
  have count : handleCount (refChain (fun _ => empty) [.setNrefs 17, .setNrefs 1]) = 2 := by
    simp [refChain, RefCall.apply, hweHeadSetNrefs, hweRefMax, current, hweInit, handleCount]
  refine ⟨fun _ => empty, count, rfl, fun sees => ?_⟩
  have other := sees.1
  rw [count] at other
  revert other
  decide

end Reverse.Decopus
