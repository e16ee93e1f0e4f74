import Mathlib.Data.List.Infix
import Reverse.DebugHelper.CallStack

/-!
# The call stack and the nesting of the calls

A well nested trace calls functions at their entries and returns to the
instruction after the call.  The call stack recognises a return by the ranges
of the functions alone, so it follows the nesting as long as no function
returns to itself and no jump or return goes to the entry of a function.
-/

namespace Reverse.DebugHelper

open List

/-- The addresses of the instructions of a function; `highpc` is the address
after the last one. -/
def Func.Occupies (func : Func) (addr : BitVec 32) : Prop :=
  func.lowpc ≤ addr ∧ addr < func.highpc

/-- The addresses that follow an instruction of a function. -/
def Func.Follows (func : Func) (addr : BitVec 32) : Prop :=
  func.lowpc < addr ∧ addr ≤ func.highpc

/-- An index of functions with disjoint ranges, as it is after
`dh_function_register`: the search finds the instruction of each entry with its
flag and its function, and an instruction in every range. -/
structure FuncIndex where
  dhSearch : BitVec 32 → Option FuncInsn
  funcs : List Func
  nonempty : ∀ func ∈ funcs, func.lowpc < func.highpc
  disjoint : ∀ func ∈ funcs, ∀ other ∈ funcs, ∀ addr,
    func.Occupies addr → other.Occupies addr → func = other
  entries : ∀ func ∈ funcs, ∃ curr, dhSearch func.lowpc = some curr ∧
    curr.addr = func.lowpc ∧ curr.flags &&& insnFlagsFuncEntry ≠ 0 ∧
    curr.func = some func
  flagged : ∀ addr curr, dhSearch addr = some curr → curr.addr = addr →
    curr.flags &&& insnFlagsFuncEntry ≠ 0 → ∃ func ∈ funcs, func.lowpc = addr
  finds : ∀ func ∈ funcs, ∀ addr, isInFunctionRange addr func →
    (dhSearch addr).isSome

def FuncIndex.IsEntry (index : FuncIndex) (addr : BitVec 32) : Prop :=
  ∃ func ∈ index.funcs, func.lowpc = addr

/-- The function that runs, and its callers, each with the address to which
its callee returns. -/
structure Nest where
  current : Func
  callers : List (Func × BitVec 32)

def Nest.depth (nest : Nest) : Nat := nest.callers.length + 1

inductive TraceEvent where
  | call (func : Func) (returnTo : BitVec 32)
  | ret
  | jump (addr : BitVec 32)
  | next (addr : BitVec 32)

/-- The events of a well nested trace: a call goes to a function of the
program from an instruction of the current function, a return belongs to a
call, and a jump stays in the current function. -/
def Allowed (index : FuncIndex) (nest : Nest) : TraceEvent → Prop
  | .call func returnTo =>
    func ∈ index.funcs ∧ nest.current.Follows returnTo
  | .ret => nest.callers ≠ []
  | .jump addr => nest.current.Occupies addr
  | .next _ => True

def Nest.after (nest : Nest) : TraceEvent → Nest
  | .call func returnTo => ⟨func, (nest.current, returnTo) :: nest.callers⟩
  | .ret =>
    match nest.callers with
    | [] => nest
    | (caller, _) :: callers => ⟨caller, callers⟩
  | .jump _ => nest
  | .next _ => nest

/-- The instruction that an event looks up. -/
def Nest.insn (nest : Nest) : TraceEvent → InsnDesc
  | .call func _ => ⟨func.lowpc, insnFlagsNseq⟩
  | .ret => ⟨(nest.callers.head?.map Prod.snd).getD 0, insnFlagsNseq⟩
  | .jump addr => ⟨addr, insnFlagsNseq⟩
  | .next addr => ⟨addr, 0⟩

def WellNested (index : FuncIndex) : Nest → List TraceEvent → Prop
  | _, [] => True
  | nest, event :: events =>
    Allowed index nest event ∧ WellNested index (nest.after event) events

def Nest.run (nest : Nest) (events : List TraceEvent) : Nest :=
  events.foldl Nest.after nest

def Nest.insns : Nest → List TraceEvent → List InsnDesc
  | _, [] => []
  | nest, event :: events => nest.insn event :: (nest.after event).insns events

/-- The call stack follows the event: a return leaves a function other than
the caller and does not go to an entry, and a jump does not go to the entry
of the current function. -/
def Recognised (index : FuncIndex) (nest : Nest) : TraceEvent → Prop
  | .call _ _ => True
  | .ret => ∀ caller ∈ nest.callers.head?,
      caller.1 ≠ nest.current ∧ ¬index.IsEntry caller.2
  | .jump addr => addr ≠ nest.current.lowpc
  | .next _ => True

def AllRecognised (index : FuncIndex) : Nest → List TraceEvent → Prop
  | _, [] => True
  | nest, event :: events =>
    Recognised index nest event ∧ AllRecognised index (nest.after event) events

theorem Func.Occupies.follows {func : Func} (occupies : func.Occupies addr)
    (notEntry : addr ≠ func.lowpc) :
    func.Follows addr := by
  obtain ⟨low, high⟩ := occupies
  constructor
  · bv_omega
  · bv_omega

theorem Func.Follows.inRange (follows : func.Follows addr) : isInFunctionRange addr func := by
  obtain ⟨low, high⟩ := follows
  exact ⟨by bv_omega, high⟩

theorem Func.Follows.occupies {func : Func} (follows : func.Follows addr) :
    func.Occupies (addr - 1) := by
  obtain ⟨low, high⟩ := follows
  constructor
  · bv_omega
  · bv_omega

/-- An address that follows an instruction of a function and is not an entry
is in the tested range of no other function. -/
theorem FuncIndex.not_inRange {index : FuncIndex} (known : func ∈ index.funcs)
    (otherKnown : other ∈ index.funcs) (differ : func ≠ other)
    (follows : func.Follows addr) (notEntry : ¬index.IsEntry addr) :
    ¬isInFunctionRange addr other := by
  intro inRange
  have notLow : other.lowpc ≠ addr := fun same =>
    notEntry ⟨other, otherKnown, same⟩
  have otherFollows : other.Follows addr := by
    obtain ⟨low, high⟩ := inRange
    exact ⟨by bv_omega, high⟩
  exact differ (index.disjoint func known other otherKnown (addr - 1)
    follows.occupies otherFollows.occupies)

theorem FuncIndex.entry_of_occupied {index : FuncIndex}
    (known : func ∈ index.funcs) (occupies : func.Occupies addr) (isEntry : index.IsEntry addr) :
    addr = func.lowpc := by
  obtain ⟨other, otherKnown, rfl⟩ := isEntry
  have isSame : func = other := by
    apply index.disjoint func known other otherKnown other.lowpc occupies
    have := index.nonempty other otherKnown
    exact ⟨BitVec.le_refl _, this⟩
  rw [isSame]

/-- The functions of a nest are functions of the program, and each caller
has the instruction before its return address. -/
structure Nest.Valid (index : FuncIndex) (nest : Nest) : Prop where
  current : nest.current ∈ index.funcs
  callers : ∀ caller ∈ nest.callers,
    caller.1 ∈ index.funcs ∧ caller.1.Follows caller.2

/-- The contexts above the native one have the functions of the nest. -/
structure Tracks (nest : Nest) (cs : Callstack) : Prop where
  shaped : ∃ first, Shaped first cs
  initialized : cs.state = .initialized
  funcs : cs.stack.map Ctxt.func =
    some nest.current :: (nest.callers.map fun caller => some caller.1) ++
      [none]

theorem Nest.Valid.after (valid : nest.Valid index) (allowed : Allowed index nest event) :
    (nest.after event).Valid index := by
  cases event with
  | call func returnTo =>
    refine ⟨allowed.1, ?_⟩
    intro caller member
    rcases mem_cons.mp member with rfl | member
    · exact ⟨valid.current, allowed.2⟩
    · exact valid.callers caller member
  | ret =>
    obtain ⟨current, callers⟩ := nest
    cases callers with
    | nil => exact absurd rfl allowed
    | cons caller callers =>
      refine ⟨(valid.callers caller mem_cons_self).1, ?_⟩
      intro other member
      exact valid.callers other (mem_cons_of_mem caller member)
  | jump addr => exact valid
  | next addr => exact valid

theorem Tracks.length (tracks : Tracks nest cs) : cs.stack.length = nest.depth + 1 := by
  have lengths := congrArg List.length tracks.funcs
  simp only [length_map, length_append, length_cons, length_nil] at lengths
  exact lengths

theorem Tracks.top (tracks : Tracks nest cs) :
    ∃ top lower, cs.stack = top :: lower ∧ top.func = some nest.current ∧
      lower.map Ctxt.func = (nest.callers.map fun caller => some caller.1) ++ [none] := by
  obtain ⟨top, lower, stack, topFunc, lowerFuncs⟩ := map_eq_cons_iff.mp tracks.funcs
  exact ⟨top, lower, stack, topFunc, lowerFuncs⟩

theorem contains_func {ctxt : Ctxt} (has : ctxt.func = some func) (addr : BitVec 32) :
    ctxt.contains addr = true ↔ isInFunctionRange addr func := by
  unfold Ctxt.contains
  rw [has]
  exact decide_eq_true_iff

section Steps

variable {index : FuncIndex} {nest : Nest} {cs : Callstack}

def lookedUp (index : FuncIndex) (cs : Callstack) (insn : InsnDesc) : Option Callstack :=
  (callstackLookup index.dhSearch cs insn).map Lookup.cs

theorem Tracks.entry (tracks : Tracks nest cs) (known : func ∈ index.funcs) (returnTo : BitVec 32) :
    ∃ later, lookedUp index cs ⟨func.lowpc, insnFlagsNseq⟩ = some later ∧
      Tracks ⟨func, (nest.current, returnTo) :: nest.callers⟩ later := by
  obtain ⟨curr, found, addrEq, flag, funcEq⟩ := index.entries func known
  obtain ⟨first, shaped⟩ := tracks.shaped
  have looked : callstackLookup index.dhSearch cs
      ⟨func.lowpc, insnFlagsNseq⟩ = lookupCall cs curr := by
    unfold callstackLookup lookupInitialized
    rw [tracks.initialized]
    simp only [found]
    rw [if_neg (by decide), if_pos ⟨addrEq, flag⟩]
  refine ⟨_, ?_, ⟨first, shaped.push curr func⟩, tracks.initialized, ?_⟩
  · unfold lookedUp
    rw [looked]
    unfold lookupCall
    rw [funcEq]
    rfl
  · obtain ⟨pushed, stack, -, pushedFunc⟩ := ctxtPush_eq cs.stack
      (ctxtNew (callNew cs.prevInsn (some curr)) func)
    dsimp only
    rw [stack, map_cons, pushedFunc, tracks.funcs]
    rfl

theorem lookup_not_entry (index : FuncIndex)
    (initialized : cs.state = .initialized) (known : func ∈ index.funcs)
    (inRange : isInFunctionRange addr func) (notEntry : ¬index.IsEntry addr) :
    ∃ curr, callstackLookup index.dhSearch cs ⟨addr, insnFlagsNseq⟩ =
      if cs.stack.head?.any (Ctxt.contains addr) then
        some ⟨{ cs with prevInsn := some curr }, .jump, [], []⟩
      else lookupReturn cs addr curr := by
  obtain ⟨curr, found⟩ := Option.isSome_iff_exists.mp (index.finds func known addr inRange)
  refine ⟨curr, ?_⟩
  unfold callstackLookup lookupInitialized
  rw [initialized]
  simp only [found]
  rw [if_neg (by decide), if_neg]
  rintro ⟨addrEq, flag⟩
  exact notEntry (index.flagged addr curr found addrEq flag)

theorem Tracks.inside (tracks : Tracks nest cs) (valid : nest.Valid index)
    (inRange : isInFunctionRange addr nest.current) (notEntry : ¬index.IsEntry addr) :
    ∃ later, lookedUp index cs ⟨addr, insnFlagsNseq⟩ = some later ∧ Tracks nest later := by
  obtain ⟨curr, looked⟩ := lookup_not_entry index tracks.initialized valid.current inRange notEntry
  obtain ⟨top, lower, stack, topFunc, -⟩ := tracks.top
  obtain ⟨first, shaped⟩ := tracks.shaped
  have inTop : cs.stack.head?.any (Ctxt.contains addr) = true := by
    rw [stack]
    exact (contains_func topFunc addr).mpr inRange
  rw [if_pos inTop] at looked
  refine ⟨{ cs with prevInsn := some curr }, ?_,
    ⟨first, shaped.started, rfl, shaped.full, shaped.levels⟩,
    tracks.initialized, tracks.funcs⟩
  unfold lookedUp
  rw [looked]
  rfl

theorem Tracks.leave (tracks : Tracks ⟨func, (caller, returnTo) :: callers⟩ cs)
    (valid : Nest.Valid index ⟨func, (caller, returnTo) :: callers⟩)
    (differ : caller ≠ func) (notEntry : ¬index.IsEntry returnTo) :
    ∃ later, lookedUp index cs ⟨returnTo, insnFlagsNseq⟩ = some later ∧
      Tracks ⟨caller, callers⟩ later := by
  obtain ⟨known, follows⟩ := valid.callers (caller, returnTo) mem_cons_self
  obtain ⟨curr, looked⟩ := lookup_not_entry index tracks.initialized known follows.inRange notEntry
  obtain ⟨top, lower, stack, topFunc, lowerFuncs⟩ := tracks.top
  obtain ⟨second, rest, rfl, secondFunc, restFuncs⟩ := map_eq_cons_iff.mp lowerFuncs
  obtain ⟨first, shaped⟩ := tracks.shaped
  have notTop : top.contains returnTo = false := by
    apply eq_false_of_ne_true
    rw [contains_func topFunc]
    exact index.not_inRange known valid.current differ follows notEntry
  have inSecond : second.contains returnTo = true :=
    (contains_func secondFunc returnTo).mpr follows.inRange
  have found : cs.stack.findIdx? (Ctxt.contains returnTo) = some 1 := by
    rw [stack]
    simp [List.findIdx?_cons, notTop, inSecond]
  obtain ⟨⟨calls, popped⟩, later⟩ := shaped.pop found curr
  refine ⟨{ cs with prevInsn := some curr, stack := cs.stack.drop 1 }, ?_,
    ⟨first, later⟩, tracks.initialized, ?_⟩
  · unfold lookedUp
    rw [looked, if_neg]
    · unfold lookupReturn
      simp only [found, popped, Option.map_some, Bool.false_eq_true, if_false]
    · rw [stack]
      simp [notTop]
  · dsimp only
    rw [stack, drop_succ_cons, drop_zero, map_cons, secondFunc, restFuncs]
    rfl

theorem Tracks.step (tracks : Tracks nest cs) (valid : nest.Valid index)
    (allowed : Allowed index nest event) (recognised : Recognised index nest event) :
    ∃ later, lookedUp index cs (nest.insn event) = some later ∧
      Tracks (nest.after event) later := by
  cases event with
  | call func returnTo => exact tracks.entry allowed.1 returnTo
  | ret =>
    obtain ⟨current, callers⟩ := nest
    cases callers with
    | nil => exact absurd rfl allowed
    | cons caller callers =>
      obtain ⟨differ, notEntry⟩ := recognised caller rfl
      exact tracks.leave valid differ notEntry
  | jump addr =>
    apply tracks.inside valid
    · exact (allowed.follows recognised).inRange
    · intro isEntry
      exact recognised (index.entry_of_occupied valid.current allowed isEntry)
  | next addr =>
    refine ⟨cs, ?_, tracks⟩
    unfold lookedUp callstackLookup lookupInitialized
    rw [tracks.initialized]
    have sequential : (nest.insn (.next addr)).flags &&& insnFlagsNseq = 0 := by
      change 0 &&& insnFlagsNseq = 0
      decide
    dsimp only
    rw [if_pos sequential]
    rfl

/-- A lookup of an entry pushes a context, whatever the event was. -/
theorem Tracks.entry_length (tracks : Tracks nest cs) (isEntry : index.IsEntry addr) :
    ∃ later, lookedUp index cs ⟨addr, insnFlagsNseq⟩ = some later ∧
      later.stack.length = nest.depth + 2 := by
  obtain ⟨func, known, rfl⟩ := isEntry
  obtain ⟨later, looked, tracked⟩ := tracks.entry known 0
  exact ⟨later, looked, tracked.length⟩

theorem Tracks.step_off (tracks : Tracks nest cs) (valid : nest.Valid index)
    (allowed : Allowed index nest event) (unrecognised : ¬Recognised index nest event) :
    ∃ later, lookedUp index cs (nest.insn event) = some later ∧
      later.stack.length ≠ (nest.after event).depth + 1 := by
  cases event with
  | call func returnTo => exact absurd trivial unrecognised
  | ret =>
    obtain ⟨current, callers⟩ := nest
    cases callers with
    | nil => exact absurd rfl allowed
    | cons caller callers =>
      have shorter : (Nest.after ⟨current, caller :: callers⟩ .ret).depth + 1 =
          Nest.depth ⟨current, caller :: callers⟩ := rfl
      rw [shorter]
      by_cases isEntry : index.IsEntry caller.2
      · obtain ⟨later, looked, length⟩ := tracks.entry_length isEntry
        exact ⟨later, looked, by omega⟩
      · have isSame : caller.1 = current := by
          by_contra differ
          apply unrecognised
          intro other isHead
          cases isHead
          exact ⟨differ, isEntry⟩
        obtain ⟨-, follows⟩ := valid.callers caller mem_cons_self
        obtain ⟨later, looked, tracked⟩ := tracks.inside valid (isSame ▸ follows.inRange) isEntry
        exact ⟨later, looked, by rw [tracked.length]; omega⟩
  | jump addr =>
    have isLow : addr = nest.current.lowpc := not_not.mp unrecognised
    obtain ⟨later, looked, length⟩ := tracks.entry_length ⟨nest.current, valid.current, isLow.symm⟩
    refine ⟨later, looked, ?_⟩
    change later.stack.length ≠ nest.depth + 1
    omega
  | next addr => exact absurd trivial unrecognised

end Steps

/-- After each event the stack has one context for each nested call, above the
native one. -/
def DepthFollowed (index : FuncIndex) (nest : Nest) (cs : Callstack)
    (events : List TraceEvent) : Prop :=
  ∀ before, before <+: events → ∃ later,
    callstackRun index.dhSearch cs (nest.insns before) = some later ∧
    later.stack.length = (nest.run before).depth + 1

theorem callstackRun_cons (looked : (callstackLookup dhSearch cs insn).map Lookup.cs = some later) :
    callstackRun dhSearch cs (insn :: insns) = callstackRun dhSearch later insns := by
  unfold callstackRun
  rw [foldlM_cons, looked]
  rfl

theorem depthFollowed_cons (tracks : Tracks nest cs)
    (looked : lookedUp index cs (nest.insn event) = some later) :
    DepthFollowed index nest cs (event :: events) ↔
      DepthFollowed index (nest.after event) later events := by
  constructor
  · intro followed before isPrefix
    obtain ⟨reached, run, length⟩ := followed (event :: before)
      (prefix_cons_inj event |>.mpr isPrefix)
    unfold Nest.insns at run
    rw [callstackRun_cons looked] at run
    exact ⟨reached, run, length⟩
  · intro followed before isPrefix
    cases before with
    | nil => exact ⟨cs, rfl, tracks.length⟩
    | cons other before =>
      obtain ⟨rfl, rest⟩ := cons_prefix_cons.mp isPrefix
      obtain ⟨reached, run, length⟩ := followed before rest
      refine ⟨reached, ?_, length⟩
      unfold Nest.insns
      rw [callstackRun_cons looked]
      exact run

theorem depthFollowed_iff (tracks : Tracks nest cs) (valid : nest.Valid index)
    (nested : WellNested index nest events) :
    DepthFollowed index nest cs events ↔ AllRecognised index nest events := by
  induction events generalizing nest cs with
  | nil =>
    refine ⟨fun _ => trivial, ?_⟩
    intro _ before isPrefix
    rw [prefix_nil] at isPrefix
    subst isPrefix
    exact ⟨cs, rfl, tracks.length⟩
  | cons event events ih =>
    obtain ⟨allowed, rest⟩ := nested
    by_cases recognised : Recognised index nest event
    · obtain ⟨later, looked, tracked⟩ := tracks.step valid allowed recognised
      rw [depthFollowed_cons tracks looked, ih tracked (valid.after allowed) rest]
      exact ⟨fun all => ⟨recognised, all⟩, And.right⟩
    · refine ⟨?_, fun all => absurd all.1 recognised⟩
      intro followed
      obtain ⟨later, looked, off⟩ := tracks.step_off valid allowed recognised
      obtain ⟨reached, run, length⟩ := (depthFollowed_cons tracks looked).mp followed [] nil_prefix
      cases run
      exact absurd length off

theorem tracks_start (index : FuncIndex) (known : main ∈ index.funcs) :
    ∃ later, lookedUp index callstackNew ⟨main.lowpc, insnFlagsNseq⟩ =
      some later ∧ Tracks ⟨main, []⟩ later := by
  obtain ⟨curr, found, addrEq, flag, funcEq⟩ := index.entries main known
  obtain ⟨first, stack, shaped⟩ := lookupUninitialized_shaped ⟨main.lowpc, insnFlagsNseq⟩ found
  refine ⟨_, rfl, ⟨first, shaped⟩, ?_, ?_⟩
  · unfold lookupUninitialized
    simp [found, funcEq]
  · unfold lookupUninitialized
    simp [found, funcEq, callstackNew, ctxtPush, ctxtNew, nativeCtxt]

/-- Over every well nested trace that starts with the entry of a function, the
stack has, after each lookup, as many contexts above the native one as calls
are nested, exactly if every event is recognised. -/
theorem call_depth_iff (index : FuncIndex) (main : Func)
    (events : List TraceEvent) (known : main ∈ index.funcs)
    (nested : WellNested index ⟨main, []⟩ events) :
    (∀ before, before <+: events → ∃ cs,
      callstackRun index.dhSearch callstackNew
        (⟨main.lowpc, insnFlagsNseq⟩ :: Nest.insns ⟨main, []⟩ before) = some cs ∧
      cs.stack.length = (Nest.run ⟨main, []⟩ before).depth + 1) ↔
    AllRecognised index ⟨main, []⟩ events := by
  obtain ⟨start, looked, tracks⟩ := tracks_start index known
  have valid : Nest.Valid index ⟨main, []⟩ := ⟨known, nofun⟩
  rw [← depthFollowed_iff tracks valid nested]
  simp only [callstackRun_cons looked]
  rfl

/-- The two functions of `twoFunctions`. -/
def twoFunctionIndex : FuncIndex where
  dhSearch := twoFunctions
  funcs := [⟨0x100, 0x180⟩, ⟨0x200, 0x280⟩]
  nonempty := by decide
  disjoint := by
    intro func known other otherKnown addr occupied otherOccupied
    obtain ⟨low, high⟩ := occupied
    obtain ⟨otherLow, otherHigh⟩ := otherOccupied
    rcases mem_pair.mp known with rfl | rfl
    · rcases mem_pair.mp otherKnown with rfl | rfl
      · rfl
      · bv_omega
    · rcases mem_pair.mp otherKnown with rfl | rfl
      · bv_omega
      · rfl
  entries := by
    intro func known
    rcases mem_pair.mp known with rfl | rfl
    · exact ⟨⟨⟨3, 0x100⟩, some ⟨0x100, 0x180⟩⟩, rfl, rfl, by decide, rfl⟩
    · exact ⟨⟨⟨3, 0x200⟩, some ⟨0x200, 0x280⟩⟩, rfl, rfl, by decide, rfl⟩
  flagged := by
    intro addr curr found addrEq flag
    unfold twoFunctions at found
    split at found
    · cases found
    split at found
    · cases found
      exact ⟨⟨0x100, 0x180⟩, by simp, addrEq⟩
    · cases found
      exact ⟨⟨0x200, 0x280⟩, by simp, addrEq⟩
  finds := by
    intro func known addr inRange
    obtain ⟨low, high⟩ := inRange
    have above : ¬addr < 0x100 := by
      rcases mem_pair.mp known with rfl | rfl
      · bv_omega
      · bv_omega
    unfold twoFunctions
    rw [if_neg above]
    split
    · rfl
    · rfl

/-- The first function calls a function, which returns. -/
def callAndReturn (func : Func) : List TraceEvent := [.call func 0x108, .ret]

theorem call_depth_iff_call_and_return :
    (∀ before, before <+: callAndReturn ⟨0x200, 0x280⟩ → ∃ cs,
      callstackRun twoFunctionIndex.dhSearch callstackNew
        (⟨0x100, insnFlagsNseq⟩ :: Nest.insns ⟨⟨0x100, 0x180⟩, []⟩ before) = some cs ∧
      cs.stack.length = (Nest.run ⟨⟨0x100, 0x180⟩, []⟩ before).depth + 1) ↔
    AllRecognised twoFunctionIndex ⟨⟨0x100, 0x180⟩, []⟩ (callAndReturn ⟨0x200, 0x280⟩) := by
  apply call_depth_iff twoFunctionIndex ⟨0x100, 0x180⟩
  · exact mem_cons_self
  · refine ⟨⟨?_, ?_⟩, nofun, trivial⟩
    · exact mem_cons_of_mem _ mem_cons_self
    · constructor
      · decide
      · decide

/-- A function that calls itself and returns: the return is answered as a jump
and the context of the inner call stays. -/
theorem inner_call_not_popped :
    let main : Func := ⟨0x100, 0x180⟩
    WellNested twoFunctionIndex ⟨main, []⟩ (callAndReturn main) ∧
      (callstackRun twoFunctionIndex.dhSearch callstackNew
        (⟨main.lowpc, insnFlagsNseq⟩ :: Nest.insns ⟨main, []⟩ (callAndReturn main))).map
          (fun cs => cs.stack.length) = some 3 ∧
      (Nest.run ⟨main, []⟩ (callAndReturn main)).depth + 1 = 2 := by
  refine ⟨⟨⟨?_, ?_⟩, nofun, trivial⟩, rfl, rfl⟩
  · exact mem_cons_self
  · constructor
    · decide
    · decide

end Reverse.DebugHelper
