import Mathlib.Algebra.BigOperators.Group.List.Basic
import Mathlib.Algebra.Group.Prod
import Mathlib.Data.BitVec
import Reverse.DebugHelper.CallStack

/-!
# The costs of returned calls

A return and the final `callstack_dump` pop contexts and merge their calls into
a list with one entry for each callee.  A call whose callee is in the list
already adds the costs of the head of the list instead of its own, so the costs
of an entry are those of its calls only if the two happen to agree.
-/

namespace Reverse.DebugHelper

open List hiding lookup

/-- The loop of `callstack_dump`; a call without a caller is dropped. -/
def dumpContexts : List Ctxt → List Call → Option (List Call)
  | [], calls => some calls
  | ctxt :: lower, calls =>
    match ctxt.call.caller with
    | none => dumpContexts lower calls
    | some _ =>
      match ctxt.call.callee with
      | none => none
      | some callee =>
        dumpContexts lower (returnCall calls { ctxt.call with func := callee.func } callee.addr)

def callstackDump (cs : Callstack) : Option (List Call) :=
  dumpContexts cs.stack []

/-- The counters of the costs, without the repetitions. -/
abbrev Spent :=
  BitVec 32 × BitVec 32 × BitVec 32 × BitVec 32 × BitVec 64 × BitVec 64 × BitVec 64

def Counters.spent (costs : Counters) : Spent :=
  (costs.nbICMiss, costs.nbDCMiss, costs.nbITMiss, costs.nbDTMiss,
    costs.totalIr, costs.totalEn, costs.totalCyc)

/-- A callee and the counters of a call. -/
abbrev CallRecord := Option (BitVec 32) × Counters

def Call.record (call : Call) : CallRecord :=
  (call.callee.map fun callee => callee.addr, call.costs)

/-- The records of the contexts that have a callee: all but the native one. -/
def callRecords (stack : List Ctxt) : List CallRecord :=
  (stack.filter fun ctxt => ctxt.call.callee.isSome).map
    fun ctxt => ctxt.call.record

def recordsOf (callee : Option (BitVec 32)) (records : List CallRecord) : List CallRecord :=
  records.filter fun record => record.1 = callee

/-- One entry for each callee, with the sum of the costs of its calls, and the
repetitions of the first of them increased by their number. -/
structure Merged (popped merged : List CallRecord) : Prop where
  distinct : (merged.map Prod.fst).Nodup
  callees : ∀ callee, callee ∈ merged.map Prod.fst ↔
    callee ∈ popped.map Prod.fst
  spent : ∀ entry ∈ merged, entry.2.spent =
    ((recordsOf entry.1 popped).map fun record => record.2.spent).sum
  counted : ∀ entry ∈ merged, ∃ first ∈ (recordsOf entry.1 popped).head?,
    entry.2.repCounter = first.2.repCounter +
      BitVec.ofNat 32 (recordsOf entry.1 popped).length

/-- The callees, the one that came up last in front. -/
def calleesOf (records : List CallRecord) : List (Option (BitVec 32)) :=
  (records.map Prod.fst).reverse.dedup

/-- The costs of the first call, doubled for each further one. -/
def doubled : List CallRecord → Spent
  | [] => 0
  | first :: again => 2 ^ again.length • first.2.spent

/-- The costs that a call after others adds to the entry of its callee: its own,
but if the callee is known already those of the callee that came up last. -/
def charge (before : List CallRecord) (record : CallRecord) : Spent :=
  if record.1 ∈ before.map Prod.fst then
    ((calleesOf before).head?.map fun latest => doubled (recordsOf latest before)).getD 0
  else record.2.spent

/-- The callees and the charges of popped calls, in their order. -/
def charges (before : List CallRecord) : List CallRecord → List (Option (BitVec 32) × Spent)
  | [] => []
  | record :: popped => (record.1, charge before record) :: charges (before ++ [record]) popped

/-- The sum of the charges to one callee. -/
def chargedTo (callee : Option (BitVec 32)) (charged : List (Option (BitVec 32) × Spent)) : Spent :=
  ((charged.filter fun item => item.1 = callee).map Prod.snd).sum

/-- For each callee, the costs that are charged to its entry are those of its
calls. -/
def CostsMeet (popped : List CallRecord) : Prop :=
  ∀ callee ∈ popped.map Prod.fst, chargedTo callee (charges [] popped) =
    ((recordsOf callee popped).map fun record => record.2.spent).sum

instance (popped : List CallRecord) : Decidable (CostsMeet popped) :=
  @List.decidableBAll _ _ (fun _ => instDecidableEqProd _ _) _

theorem chargedTo_concat (callee key : Option (BitVec 32))
    (charged : List (Option (BitVec 32) × Spent)) (value : Spent) :
    chargedTo callee (charged ++ [(key, value)]) =
      chargedTo callee charged + if key = callee then value else 0 := by
  unfold chargedTo
  rw [filter_append, map_append, sum_append]
  by_cases same : key = callee <;> simp [same]

theorem recordsOf_concat (callee : Option (BitVec 32))
    (popped : List CallRecord) (record : CallRecord) :
    recordsOf callee (popped ++ [record]) =
      recordsOf callee popped ++ if record.1 = callee then [record] else [] := by
  unfold recordsOf
  rw [filter_append]
  by_cases same : record.1 = callee <;> simp [same]

theorem recordsOf_ne_nil (known : callee ∈ List.map Prod.fst popped) :
    recordsOf callee popped ≠ [] := by
  obtain ⟨record, member, same⟩ := mem_map.mp known
  exact ne_nil_of_mem (mem_filter.mpr ⟨member, decide_eq_true same⟩)

theorem calleesOf_concat (records : List CallRecord) (record : CallRecord) :
    calleesOf (records ++ [record]) =
      if record.1 ∈ records.map Prod.fst then calleesOf records
      else record.1 :: calleesOf records := by
  unfold calleesOf
  rw [map_append, reverse_append]
  split
  · next known => exact dedup_cons_of_mem (mem_reverse.mpr known)
  · next new => exact dedup_cons_of_notMem (mt mem_reverse.mp new)

theorem mem_calleesOf : callee ∈ calleesOf records ↔ callee ∈ records.map Prod.fst := by
  rw [calleesOf, mem_dedup, mem_reverse]

theorem doubled_concat (some : calls ≠ []) (record : CallRecord) :
    doubled (calls ++ [record]) = doubled calls + doubled calls := by
  obtain ⟨first, again, rfl⟩ := exists_cons_of_ne_nil some
  simp only [doubled, cons_append, length_append, length_singleton, pow_succ, mul_two, add_nsmul]

def Counters.bump (costs : Counters) : Counters :=
  { costs with repCounter := costs.repCounter + 1 }

/-- What `returnCall` does to the records of a list. -/
def addRecord (records : List CallRecord) (record : CallRecord) : List CallRecord :=
  if record.1 ∈ records.map Prod.fst then
    records.map fun entry =>
      if entry.1 = record.1 then
        (entry.1, (countersSum entry.2 ((records.head?.map Prod.snd).getD entry.2)).bump)
      else entry
  else (record.1, record.2.bump) :: records

/-- The costs that were charged to an entry, and its repetitions. -/
structure Tally (popped : List CallRecord) (entry : CallRecord) : Prop where
  spent : entry.2.spent = chargedTo entry.1 (charges [] popped)
  counted : ∃ first ∈ (recordsOf entry.1 popped).head?,
    entry.2.repCounter = first.2.repCounter +
      BitVec.ofNat 32 (recordsOf entry.1 popped).length

/-- The entries of a merged list, with the costs that were charged.  The first
entry was doubled by each further call of its callee. -/
structure Tallied (popped merged : List CallRecord) : Prop where
  callees : merged.map Prod.fst = calleesOf popped
  entries : ∀ entry ∈ merged, Tally popped entry
  latest : ∀ entry ∈ merged.head?, entry.2.spent = doubled (recordsOf entry.1 popped)

theorem charges_concat (before popped : List CallRecord) (record : CallRecord) :
    charges before (popped ++ [record]) =
      charges before popped ++ [(record.1, charge (before ++ popped) record)] := by
  induction popped generalizing before with
  | nil =>
    rw [append_nil]
    rfl
  | cons first popped ih =>
    rw [cons_append, charges, ih, append_assoc]
    rfl

theorem chargedTo_new (before popped : List CallRecord) (new : callee ∉ popped.map Prod.fst) :
    chargedTo callee (charges before popped) = 0 := by
  induction popped generalizing before with
  | nil => rfl
  | cons record popped ih =>
    obtain ⟨other, later⟩ := not_or.mp (mt mem_cons.mpr new)
    unfold charges chargedTo
    rw [filter_cons_of_neg (by simpa using Ne.symm other)]
    exact ih _ later

theorem rep_succ (start : BitVec 32) (count : Nat) :
    start + BitVec.ofNat 32 count + 1 = start + BitVec.ofNat 32 (count + 1) := by
  rw [BitVec.add_assoc, BitVec.ofNat_add]
  rfl

theorem Tally.other (tally : Tally popped entry) (other : record.1 ≠ entry.1) :
    Tally (popped ++ [record]) entry := by
  constructor
  · rw [charges_concat, chargedTo_concat, if_neg other, add_zero]
    exact tally.spent
  · rw [recordsOf_concat, if_neg other, append_nil]
    exact tally.counted

theorem Tally.again (tally : Tally popped entry) (same : record.1 = entry.1)
    (charged : charge popped record = costs.spent) :
    Tally (popped ++ [record]) (entry.1, (countersSum entry.2 costs).bump) := by
  obtain ⟨first, isFirst, count⟩ := tally.counted
  refine ⟨?_, first, ?_, ?_⟩
  · rw [charges_concat, chargedTo_concat, if_pos same, ← tally.spent, nil_append, charged]
    rfl
  · rw [recordsOf_concat, List.head?_append_of_ne_nil]
    · exact isFirst
    · exact ne_nil_of_mem (mem_of_mem_head? isFirst)
  · rw [recordsOf_concat, if_pos same, length_append, length_singleton, ← rep_succ, ← count]
    rfl

theorem addRecord_keys (present : record.1 ∈ merged.map Prod.fst) :
    (addRecord merged record).map Prod.fst = merged.map Prod.fst := by
  unfold addRecord
  rw [if_pos present, map_map]
  apply map_congr_left
  intro entry _
  dsimp only [Function.comp]
  split <;> rfl

theorem addRecord_distinct (distinct : (merged.map Prod.fst).Nodup)
    (record : CallRecord) : ((addRecord merged record).map Prod.fst).Nodup := by
  by_cases present : record.1 ∈ merged.map Prod.fst
  · rw [addRecord_keys present]
    exact distinct
  · unfold addRecord
    rw [if_neg present]
    exact nodup_cons.mpr ⟨present, distinct⟩

section

variable (tallied : Tallied popped merged)

include tallied

/-- A call of a callee that is not in the list is put in front of it. -/
theorem Tallied.new (new : record.1 ∉ merged.map Prod.fst) :
    Tallied (popped ++ [record]) (addRecord merged record) := by
  have isNew : record.1 ∉ popped.map Prod.fst := by
    rwa [← mem_calleesOf, ← tallied.callees]
  have noRecords : recordsOf record.1 popped = [] := by
    apply filter_eq_nil_iff.mpr
    intro old member same
    exact isNew (of_decide_eq_true same ▸ mem_map_of_mem member)
  have records : recordsOf record.1 (popped ++ [record]) = [record] := by
    rw [recordsOf_concat, noRecords, if_pos rfl]
    rfl
  rw [addRecord, if_neg new]
  refine ⟨?_, fun entry member => ?_, ?_⟩
  · rw [calleesOf_concat, if_neg isNew, map_cons, tallied.callees]
  · rcases mem_cons.mp member with rfl | isOld
    · constructor
      · rw [charges_concat, chargedTo_concat, chargedTo_new [] popped isNew, if_pos rfl, zero_add,
          nil_append, charge, if_neg isNew]
        rfl
      · rw [records]
        exact ⟨record, rfl, rfl⟩
    · apply (tallied.entries entry isOld).other
      exact fun same => new (same ▸ mem_map_of_mem isOld)
  · rintro _ ⟨⟩
    rw [records]
    exact (one_nsmul _).symm

/-- A call of a callee that is in the list already adds the costs of its head. -/
theorem Tallied.again (known : record.1 ∈ merged.map Prod.fst) :
    Tallied (popped ++ [record]) (addRecord merged record) := by
  have isKnown : record.1 ∈ popped.map Prod.fst := by
    rwa [← mem_calleesOf, ← tallied.callees]
  cases merged with
  | nil => cases known
  | cons head rest =>
    have charged : charge popped record = head.2.spent := by
      rw [charge, if_pos isKnown, ← tallied.callees]
      exact (tallied.latest head rfl).symm
    refine ⟨?_, ?_, ?_⟩
    · rw [addRecord_keys known, calleesOf_concat, if_pos isKnown]
      exact tallied.callees
    · intro entry member
      rw [addRecord, if_pos known] at member
      obtain ⟨old, isOld, rfl⟩ := mem_map.mp member
      have tally := tallied.entries old isOld
      split
      · next same => exact tally.again same.symm charged
      · next other => exact tally.other (Ne.symm other)
    · intro entry isHead
      have latest := tallied.latest head rfl
      rw [addRecord, if_pos known] at isHead
      cases isHead
      dsimp only
      split
      · next same =>
          have present : head.1 ∈ popped.map Prod.fst := same ▸ isKnown
          rw [recordsOf_concat, if_pos same.symm, doubled_concat (recordsOf_ne_nil present),
            ← latest]
          rfl
      · next other =>
          rw [recordsOf_concat, if_neg (Ne.symm other), append_nil]
          exact latest

theorem Tallied.addAll (more : List CallRecord) :
    Tallied (popped ++ more) (more.foldl addRecord merged) := by
  induction more generalizing popped merged with
  | nil =>
    rw [append_nil]
    exact tallied
  | cons record more ih =>
    rw [append_cons]
    apply ih
    by_cases known : record.1 ∈ merged.map Prod.fst
    · exact tallied.again known
    · exact tallied.new known

theorem Tallied.merged_iff : Merged popped merged ↔ CostsMeet popped := by
  have isCallee (callee : Option (BitVec 32)) :
      callee ∈ merged.map Prod.fst ↔ callee ∈ popped.map Prod.fst := by
    rw [tallied.callees, mem_calleesOf]
  constructor
  · intro isMerged callee member
    obtain ⟨entry, isEntry, rfl⟩ := mem_map.mp ((isCallee callee).mpr member)
    rw [← (tallied.entries entry isEntry).spent]
    exact isMerged.spent entry isEntry
  · intro meets
    refine ⟨?_, isCallee, fun entry isEntry => ?_,
      fun entry isEntry => (tallied.entries entry isEntry).counted⟩
    · rw [tallied.callees]
      exact nodup_dedup _
    · rw [(tallied.entries entry isEntry).spent]
      exact meets entry.1 ((isCallee entry.1).mp (mem_map_of_mem isEntry))

/-- Calls that are not counted do not fit in, since their repetitions are
missing. -/
theorem Tallied.lost {lost : List CallRecord} (few : lost.length < 2 ^ 32)
    (isMerged : Merged (popped ++ lost) merged) : lost = [] := by
  refine eq_nil_iff_forall_not_mem.mpr fun record member => ?_
  have isKnown : record.1 ∈ merged.map Prod.fst :=
    (isMerged.callees _).mpr (mem_map_of_mem (mem_append_right _ member))
  obtain ⟨entry, isEntry, same⟩ := mem_map.mp isKnown
  obtain ⟨first, isFirst, counted⟩ := (tallied.entries entry isEntry).counted
  obtain ⟨first', isFirst', counted'⟩ := isMerged.counted entry isEntry
  have some : recordsOf entry.1 popped ≠ [] := ne_nil_of_mem (mem_of_mem_head? isFirst)
  have split : recordsOf entry.1 (popped ++ lost) =
      recordsOf entry.1 popped ++ recordsOf entry.1 lost := filter_append ..
  rw [split, List.head?_append_of_ne_nil _ some] at isFirst'
  cases isFirst.symm.trans isFirst'
  rw [counted, split, length_append, BitVec.ofNat_add, ← BitVec.add_assoc] at counted'
  have none : BitVec.ofNat 32 (recordsOf entry.1 lost).length = 0#32 :=
    BitVec.self_eq_add_right.mp counted'
  have bound : (recordsOf entry.1 lost).length ≤ lost.length := length_filter_le ..
  have positive : 0 < (recordsOf entry.1 lost).length :=
    length_pos_of_mem (mem_filter.mpr ⟨member, decide_eq_true same.symm⟩)
  have size := congrArg BitVec.toNat none
  rw [BitVec.toNat_ofNat, Nat.mod_eq_of_lt (by omega)] at size
  exact absurd size (Nat.ne_of_gt positive)

end

theorem tallied_merge (popped : List CallRecord) : Tallied popped (popped.foldl addRecord []) := by
  have start : Tallied [] [] := ⟨rfl, nofun, nofun⟩
  exact start.addAll popped

theorem modify_found [DecidableEq κ] [BEq κ] [LawfulBEq κ] {key : α → κ} {list : List α}
    (distinct : (list.map key).Nodup)
    (found : list.findIdx? (fun item => key item == wanted) = some place) (change : α → α) :
    list.modify place change =
      list.map fun item => if key item = wanted then change item else item := by
  induction list generalizing place with
  | nil => cases found
  | cons head rest ih =>
    obtain ⟨notLater, restDistinct⟩ := nodup_cons.mp distinct
    rw [List.findIdx?_cons] at found
    by_cases same : key head = wanted
    · simp only [same, BEq.rfl, if_true, Option.some.injEq] at found
      subst found
      rw [modify_zero_cons, map_cons, if_pos same]
      congr 1
      symm
      rw [map_congr_left, map_id]
      intro item member
      apply if_neg
      intro again
      exact notLater (same.trans again.symm ▸ mem_map_of_mem member)
    · simp only [beq_iff_eq, same, if_false] at found
      obtain ⟨earlier, isEarlier, rfl⟩ := Option.map_eq_some_iff.mp found
      rw [modify_succ_cons, map_cons, if_neg same, ih restDistinct isEarlier]

theorem returnCall_record (distinct : ((calls.map Call.record).map Prod.fst).Nodup) (pcall : Call)
    (hasCallee : pcall.callee = some callee) :
    (returnCall calls pcall callee.addr).map Call.record =
      addRecord (calls.map Call.record) pcall.record := by
  have isKey : pcall.record.1 = some callee.addr := by
    unfold Call.record
    rw [hasCallee]
    rfl
  unfold returnCall addRecord
  rw [isKey]
  cases found : calls.findIdx? (fun call =>
      call.callee.map (fun callee => callee.addr) == some callee.addr) with
  | none =>
    have absent : some callee.addr ∉ (calls.map Call.record).map Prod.fst := by
      intro member
      rw [map_map] at member
      obtain ⟨call, isCall, same⟩ := mem_map.mp member
      have differs := List.findIdx?_eq_none_iff.mp found call isCall
      exact absurd same (beq_eq_false_iff_ne.mp differs)
    rw [if_neg absent, ← isKey]
    rfl
  | some place =>
    have present : some callee.addr ∈ (calls.map Call.record).map Prod.fst := by
      obtain ⟨inside, same, -⟩ := List.findIdx?_eq_some_iff_getElem.mp found
      rw [map_map]
      exact mem_map.mpr ⟨calls[place], getElem_mem inside, beq_iff_eq.mp same⟩
    rw [map_map] at distinct
    rw [if_pos present]
    dsimp only
    rw [modify_found distinct found, map_map, map_map]
    apply map_congr_left
    intro call _
    dsimp only [Function.comp]
    rw [apply_ite Call.record]
    congr 1
    cases calls <;> rfl

theorem callRecords_cons (hasCallee : ctxt.call.callee = some callee) (lower : List Ctxt) :
    callRecords (ctxt :: lower) = ctxt.call.record :: callRecords lower := by
  unfold callRecords
  rw [filter_cons_of_pos, map_cons]
  simp [hasCallee]

theorem popContexts_records (distinct : ((calls.map Call.record).map Prod.fst).Nodup)
    (pops : popContexts depth stack calls = some (later, merged, false)) :
    ∃ popped, stack = popped ++ later ∧ merged.map Call.record =
      (callRecords popped).foldl addRecord (calls.map Call.record) := by
  induction depth generalizing stack calls with
  | zero =>
    cases pops
    exact ⟨[], rfl, rfl⟩
  | succ depth ih =>
    cases stack with
    | nil => cases pops
    | cons ctxt lower =>
      unfold popContexts at pops
      cases hasCaller : ctxt.call.caller with
      | none =>
        rw [hasCaller] at pops
        cases pops
      | some caller =>
        rw [hasCaller] at pops
        dsimp only at pops
        split at pops
        case h_2 => exact nomatch pops
        case h_1 callee func hasCallee _ =>
          have record := returnCall_record distinct { ctxt.call with func := some func } hasCallee
          obtain ⟨popped, rfl, records⟩ := ih (record ▸ addRecord_distinct distinct _) pops
          refine ⟨ctxt :: popped, rfl, ?_⟩
          rw [records, record, callRecords_cons hasCallee]
          rfl

/-- The context holds a call from one instruction to another. -/
def Ctxt.Called (ctxt : Ctxt) : Prop :=
  ctxt.call.caller.isSome ∧ ctxt.call.callee.isSome

instance (ctxt : Ctxt) : Decidable ctxt.Called :=
  inferInstanceAs (Decidable (_ ∧ _))

theorem dumpContexts_bottom (uncalled : ∀ ctxt ∈ bottom, ctxt.call.caller = none)
    (calls : List Call) : dumpContexts bottom calls = some calls := by
  induction bottom with
  | nil => rfl
  | cons ctxt lower ih =>
    obtain ⟨noCaller, below⟩ := forall_mem_cons.mp uncalled
    rw [dumpContexts, noCaller]
    exact ih below

theorem dumpContexts_records (distinct : ((calls.map Call.record).map Prod.fst).Nodup)
    (called : ∀ ctxt ∈ front, ctxt.Called) (uncalled : ∀ ctxt ∈ bottom, ctxt.call.caller = none) :
    ∃ merged, dumpContexts (front ++ bottom) calls = some merged ∧
      merged.map Call.record = (callRecords front).foldl addRecord (calls.map Call.record) := by
  induction front generalizing calls with
  | nil => exact ⟨calls, dumpContexts_bottom uncalled calls, rfl⟩
  | cons ctxt lower ih =>
    obtain ⟨⟨hasCaller, hasCallee⟩, below⟩ := forall_mem_cons.mp called
    obtain ⟨caller, isCaller⟩ := Option.isSome_iff_exists.mp hasCaller
    obtain ⟨callee, isCallee⟩ := Option.isSome_iff_exists.mp hasCallee
    have record := returnCall_record distinct { ctxt.call with func := callee.func } isCallee
    obtain ⟨merged, dumped, records⟩ := ih (record ▸ addRecord_distinct distinct _) below
    refine ⟨merged, ?_, ?_⟩
    · rw [cons_append, dumpContexts, isCaller, isCallee]
      exact dumped
    · rw [records, record, callRecords_cons isCallee]
      rfl

theorem lookupReturn_pops (looked : lookupReturn cs addr curr = some lookup)
    (isRet : lookup.answer = .ret) :
    ∃ depth, popContexts depth cs.stack [] = some (lookup.cs.stack, lookup.calls, false) := by
  unfold lookupReturn at looked
  split at looked
  · cases looked
    cases isRet
  · rename_i depth _
    obtain ⟨⟨stack, calls, native⟩, pops, isLookup⟩ := Option.map_eq_some_iff.mp looked
    cases native with
    | true =>
      cases isLookup
      cases isRet
    | false =>
      cases isLookup
      exact ⟨depth, pops⟩

theorem callstackLookup_pops (looked : callstackLookup dhSearch cs insn = some lookup)
    (isRet : lookup.answer = .ret) :
    ∃ depth, popContexts depth cs.stack [] = some (lookup.cs.stack, lookup.calls, false) := by
  unfold callstackLookup at looked
  split at looked
  · cases looked
    unfold lookupUninitialized at isRet
    split at isRet
    · cases isRet
    · dsimp only at isRet
      split at isRet <;> cases isRet
  · unfold lookupInitialized at looked
    split at looked
    · cases looked
      cases isRet
    split at looked
    · cases looked
    split at looked
    · unfold lookupCall at looked
      split at looked
      · cases looked
      · cases looked
        cases isRet
    split at looked
    · cases looked
      cases isRet
    · exact lookupReturn_pops looked isRet
  · cases looked
    cases isRet

/-- The costs of returned calls: for every call stack, a return merges the calls
that it pops as it should exactly if the costs charged to each callee meet those
of its calls, and `callstack_dump` if also no context without a caller has a
callee. -/
theorem call_costs_iff (dhSearch : BitVec 32 → Option FuncInsn) (cs : Callstack) :
    (∀ insn lookup, callstackLookup dhSearch cs insn = some lookup →
      lookup.answer = .ret → ∃ popped, cs.stack = popped ++ lookup.cs.stack ∧
        (Merged (callRecords popped) (lookup.calls.map Call.record) ↔
          CostsMeet (callRecords popped))) ∧
    ∀ front bottom, cs.stack = front ++ bottom → (∀ ctxt ∈ front, ctxt.Called) →
      (∀ ctxt ∈ bottom, ctxt.call.caller = none) → bottom.length < 2 ^ 32 →
      ∃ calls, callstackDump cs = some calls ∧
        (Merged (callRecords cs.stack) (calls.map Call.record) ↔
          CostsMeet (callRecords front) ∧ ∀ ctxt ∈ bottom, ctxt.call.callee = none) := by
  have noCalls : ((([] : List Call).map Call.record).map Prod.fst).Nodup := nodup_nil
  constructor
  · intro insn lookup looked isRet
    obtain ⟨depth, pops⟩ := callstackLookup_pops looked isRet
    obtain ⟨popped, stack, records⟩ := popContexts_records noCalls pops
    refine ⟨popped, stack, ?_⟩
    rw [records]
    exact (tallied_merge _).merged_iff
  · intro front bottom stack called uncalled few
    obtain ⟨calls, dumped, records⟩ := dumpContexts_records noCalls called uncalled
    refine ⟨calls, (congrArg (dumpContexts · []) stack).trans dumped, ?_⟩
    have tallied := tallied_merge (callRecords front)
    have both : callRecords (front ++ bottom) = callRecords front ++ callRecords bottom := by
      simp [callRecords]
    have lost : callRecords bottom = [] ↔ ∀ ctxt ∈ bottom, ctxt.call.callee = none := by
      simp [callRecords]
    rw [stack, records, both, ← lost]
    constructor
    · intro merged
      have none : callRecords bottom = [] := by
        refine tallied.lost (Nat.lt_of_le_of_lt ?_ few) merged
        rw [callRecords, length_map]
        exact length_filter_le ..
      rw [none, append_nil] at merged
      exact ⟨tallied.merged_iff.mp merged, none⟩
    · rintro ⟨meets, none⟩
      rw [none, append_nil]
      exact tallied.merged_iff.mpr meets

/-- A context for a call of a function from the first one, with its number of
instructions. -/
def calledCtxt (addr level : BitVec 32) (ir : BitVec 64) : Ctxt where
  call :=
    { callNew (twoFunctions 0x100) (some ⟨⟨3, addr⟩, some ⟨addr, addr + 0x80⟩⟩)
        with costs := { countersNew with totalIr := ir } }
  level := level
  func := some ⟨addr, addr + 0x80⟩

/-- The call stack with calls above the first function. -/
def calledStack (called : List Ctxt) : Callstack where
  state := .initialized
  prevInsn := twoFunctions 0x200
  stack := called ++ [⟨callNew none (twoFunctions 0x100), 1, some ⟨0x100, 0x180⟩⟩, nativeCtxt]

/-- The last two calls of one callee have the same costs. -/
def equalCosts : List Ctxt := [calledCtxt 0x300 4 5, calledCtxt 0x200 3 1, calledCtxt 0x200 2 1]

theorem call_costs_iff_equal_costs :
    ∃ lookup, callstackLookup twoFunctions (calledStack equalCosts) ⟨0x104, 1⟩ = some lookup ∧
      Merged (callRecords equalCosts) (lookup.calls.map Call.record) := by
  refine ⟨_, rfl, ?_⟩
  obtain ⟨popped, stack, merged⟩ :=
    (call_costs_iff twoFunctions (calledStack equalCosts)).1 ⟨0x104, 1⟩ _ rfl rfl
  cases append_cancel_right stack
  exact merged.mpr (by decide)

/-- Two calls of one instruction each are merged into an entry with six, since
the head of the list is the call with five that was returned between them, and
`callstack_dump` drops the context of the first instruction. -/
theorem head_costs_added :
    (∃ lookup popped, callstackLookup twoFunctions (calledStack
        [calledCtxt 0x200 4 1, calledCtxt 0x300 3 5, calledCtxt 0x200 2 1])
        ⟨0x104, 1⟩ = some lookup ∧
      lookup.answer = .ret ∧
      popped ++ lookup.cs.stack = (calledStack
        [calledCtxt 0x200 4 1, calledCtxt 0x300 3 5, calledCtxt 0x200 2 1]).stack ∧
      (lookup.calls.map Call.record).map
        (fun record => (record.1, record.2.totalIr)) =
          [(some 0x300, 5), (some 0x200, 6)] ∧
      ¬ Merged (callRecords popped) (lookup.calls.map Call.record)) ∧
    callstackDump (calledStack []) = some [] ∧
      ¬ Merged (callRecords (calledStack []).stack) [] := by
  refine ⟨⟨_, [calledCtxt 0x200 4 1, calledCtxt 0x300 3 5,
    calledCtxt 0x200 2 1], rfl, rfl, rfl, by decide, ?_⟩, rfl, ?_⟩
  · intro merged
    have differs := merged.spent _ (mem_cons_of_mem _ mem_cons_self)
    exact absurd differs (by decide)
  · intro merged
    have called := (merged.callees (some 0x100)).mpr mem_cons_self
    cases called

end Reverse.DebugHelper
