import Mathlib.Data.List.Chain
import Reverse.DebugHelper.Index

/-!
# The call stack of the folded trace

The function `callstack_lookup` of `callstack.c` on the stack of contexts of
`ctxt_stack.c`.  The index of the instructions is a parameter, since a lookup
does not change it.  The result is `none` where the C program follows a null
pointer.
-/

namespace Reverse.DebugHelper

open List hiding lookup
open Option

/-- The fields of `function_t` that the call stack looks at. -/
structure Func where
  lowpc : BitVec 32
  highpc : BitVec 32
  deriving DecidableEq, Repr

/-- The macro `IS_IN_FUNCTION_RANGE`. -/
def isInFunctionRange (addr : BitVec 32) (func : Func) : Prop :=
  func.lowpc ≤ addr ∧ addr ≤ func.highpc

instance (addr : BitVec 32) (func : Func) : Decidable (isInFunctionRange addr func) :=
  inferInstanceAs (Decidable (_ ∧ _))

/-- An instruction with its function. -/
structure FuncInsn extends Insn where
  func : Option Func

/-- `counters_t`. -/
structure Counters where
  repCounter : BitVec 32
  nbICMiss : BitVec 32
  nbDCMiss : BitVec 32
  nbITMiss : BitVec 32
  nbDTMiss : BitVec 32
  totalIr : BitVec 64
  totalEn : BitVec 64
  totalCyc : BitVec 64
  deriving DecidableEq, Repr

def countersNew : Counters := ⟨0, 0, 0, 0, 0, 0, 0, 0⟩

def countersSum (a b : Counters) : Counters where
  repCounter := a.repCounter
  nbICMiss := a.nbICMiss + b.nbICMiss
  nbDCMiss := a.nbDCMiss + b.nbDCMiss
  nbITMiss := a.nbITMiss + b.nbITMiss
  nbDTMiss := a.nbDTMiss + b.nbDTMiss
  totalIr := a.totalIr + b.totalIr
  totalEn := a.totalEn + b.totalEn
  totalCyc := a.totalCyc + b.totalCyc

/-- `call_t`; a list of calls is a list. -/
structure Call where
  func : Option Func
  callee : Option FuncInsn
  caller : Option FuncInsn
  costs : Counters

def callNew (caller callee : Option FuncInsn) : Call :=
  ⟨none, callee, caller, countersNew⟩

/-- `ctxt_stack_t`; the lower contexts are the rest of a list. -/
structure Ctxt where
  call : Call
  level : BitVec 32
  func : Option Func

def ctxtNew (call : Call) (func : Option Func) : Ctxt := ⟨call, 0, func⟩

def ctxtPush (stack : List Ctxt) (ctxt : Ctxt) : List Ctxt :=
  match stack with
  | [] => [ctxt]
  | top :: _ => { ctxt with level := top.level + 1 } :: stack

inductive CallstackState where
  | uninitialized
  | initialized
  | error
  deriving DecidableEq, Repr

/-- The members of `callstack_lookup_t` that a lookup answers. -/
inductive CallstackAnswer where
  | none
  | call
  | jump
  | ret
  | waitCall
  | error
  deriving DecidableEq, Repr

/-- The error messages of a lookup. -/
inductive CallstackMessage where
  | initialNotInFunction
  | noFunctionName
  | noContextPushed
  | popingNativeContext
  deriving DecidableEq, Repr

structure Callstack where
  state : CallstackState
  prevInsn : Option FuncInsn
  stack : List Ctxt

/-- The context that `callstack_new` puts at the bottom. -/
def nativeCtxt : Ctxt := ctxtNew (callNew none none) none

def callstackNew : Callstack := ⟨.uninitialized, none, [nativeCtxt]⟩

/-- `insn_desc_t`. -/
structure InsnDesc where
  pc : BitVec 32
  flags : BitVec 32
  deriving DecidableEq, Repr

def insnFlagsNseq : BitVec 32 := 0x00000001

def insnFlagsFuncEntry : BitVec 32 := 0x02

/-- The answer of a lookup with the call stack it leaves, the calls it returns
and its error messages. -/
structure Lookup where
  cs : Callstack
  answer : CallstackAnswer
  calls : List Call
  messages : List CallstackMessage

/-- What a popped call does to the list of the returned calls: it is put in
front of the list, or, where its callee is in the list, the costs of the head
of the list are added to the call that was found. -/
def returnCall (calls : List Call) (pcall : Call) (calleeAddr : BitVec 32) : List Call :=
  match calls.findIdx? (fun call =>
      call.callee.map (fun callee => callee.addr) == some calleeAddr) with
  | none =>
    { pcall with costs := { pcall.costs with
        repCounter := pcall.costs.repCounter + 1 } } :: calls
  | some place =>
    calls.modify place fun found =>
      let head := (calls.head?.map Call.costs).getD found.costs
      let sum := countersSum found.costs head
      { found with costs := { sum with repCounter := sum.repCounter + 1 } }

/-- The loop that pops contexts; the last part of the result tells whether it
stopped at the native context. -/
def popContexts : Nat → List Ctxt → List Call → Option (List Ctxt × List Call × Bool)
  | 0, stack, calls => some (stack, calls, false)
  | _ + 1, [], _ => none
  | depth + 1, ctxt :: lower, calls =>
    match ctxt.call.caller with
    | none => some (ctxt :: lower, calls, true)
    | some _ =>
      match ctxt.call.callee, ctxt.func with
      | some callee, some func =>
        popContexts depth lower (returnCall calls { ctxt.call with func := some func } callee.addr)
      | _, _ => none

/-- The context has a function whose range contains the address. -/
def Ctxt.contains (addr : BitVec 32) (ctxt : Ctxt) : Bool :=
  match ctxt.func with
  | none => false
  | some func => decide (isInFunctionRange addr func)

section Lookups

variable (dhSearch : BitVec 32 → Option FuncInsn)

/-- The initial state. -/
def lookupUninitialized (cs : Callstack) (insn : InsnDesc) : Lookup :=
  match dhSearch insn.pc with
  | none =>
    ⟨{ cs with state := .error }, .waitCall, [], [.initialNotInFunction]⟩
  | some curr =>
    let call := callNew none (some curr)
    let later : Callstack :=
      { state := if curr.func = none then .error else .initialized
        prevInsn := some curr
        stack := ctxtPush cs.stack (ctxtNew call curr.func) }
    let calls := [{ call with func := curr.func }]
    if curr.func = none then ⟨later, .error, calls, [.noFunctionName]⟩
    else ⟨later, .call, calls, []⟩

/-- A call: the instruction is the entry of a function.  The name of the
function is printed before it is tested. -/
def lookupCall (cs : Callstack) (curr : FuncInsn) : Option Lookup :=
  match curr.func with
  | none => none
  | some func =>
    let call := callNew cs.prevInsn (some curr)
    let stack := ctxtPush cs.stack (ctxtNew call (some func))
    some ⟨{ cs with prevInsn := some curr, stack := stack }, .call,
      [{ call with func := some func }],
      if cs.prevInsn.isNone then [.noContextPushed] else []⟩

/-- A return: contexts are popped down to one whose function contains the
address. -/
def lookupReturn (cs : Callstack) (addr : BitVec 32) (curr : FuncInsn) : Option Lookup :=
  match cs.stack.findIdx? (Ctxt.contains addr) with
  | none => some ⟨cs, .none, [], []⟩
  | some depth =>
    (popContexts depth cs.stack []).map fun (stack, calls, native) =>
      if native then
        ⟨{ cs with state := .error, stack := stack }, .error, [],
          [.popingNativeContext]⟩
      else
        ⟨{ cs with prevInsn := some curr, stack := stack }, .ret, calls, []⟩

/-- The standard state. -/
def lookupInitialized (cs : Callstack) (insn : InsnDesc) : Option Lookup :=
  if insn.flags &&& insnFlagsNseq = 0 then some ⟨cs, .none, [], []⟩
  else
    match dhSearch insn.pc with
    | none => none
    | some curr =>
      if curr.addr = insn.pc ∧ curr.flags &&& insnFlagsFuncEntry ≠ 0 then
        lookupCall cs curr
      else if cs.stack.head?.any (Ctxt.contains insn.pc) then
        some ⟨{ cs with prevInsn := some curr }, .jump, [], []⟩
      else lookupReturn cs insn.pc curr

def callstackLookup (cs : Callstack) (insn : InsnDesc) : Option Lookup :=
  match cs.state with
  | .uninitialized => some (lookupUninitialized dhSearch cs insn)
  | .initialized => lookupInitialized dhSearch cs insn
  | .error => some ⟨cs, .error, [], []⟩

def callstackRun (cs : Callstack) (insns : List InsnDesc) : Option Callstack :=
  insns.foldlM (fun cs insn =>
    (callstackLookup dhSearch cs insn).map Lookup.cs) cs

end Lookups

/-- A context that can be popped. -/
def Ctxt.Full (ctxt : Ctxt) : Prop :=
  ctxt.call.caller.isSome ∧ ctxt.call.callee.isSome ∧ ctxt.func.isSome

/-- The levels go down by one along the stack. -/
def Levels (stack : List Ctxt) : Prop :=
  (stack.map Ctxt.level).IsChain fun upper lower => upper = lower + 1

/-- The stack ends with the context of the first instruction and the native
one, and every context above can be popped. -/
structure Shaped (first : Ctxt) (cs : Callstack) : Prop where
  started : cs.state ≠ .uninitialized
  previous : cs.prevInsn.isSome
  full : ∃ front, cs.stack = front ++ [first, nativeCtxt] ∧
    ∀ ctxt ∈ front, ctxt.Full
  levels : Levels cs.stack

theorem levels_native : Levels [nativeCtxt] :=
  List.IsChain.singleton _

theorem Levels.push (levels : Levels stack) (ctxt : Ctxt) : Levels (ctxtPush stack ctxt) := by
  cases stack with
  | nil => exact List.IsChain.singleton _
  | cons top lower => exact List.IsChain.cons_cons rfl levels

theorem Levels.drop (levels : Levels stack) (depth : Nat) : Levels (stack.drop depth) := by
  unfold Levels
  rw [map_drop]
  exact List.IsChain.drop levels depth

theorem ctxtPush_eq (stack : List Ctxt) (ctxt : Ctxt) :
    ∃ pushed, ctxtPush stack ctxt = pushed :: stack ∧
      pushed.call = ctxt.call ∧ pushed.func = ctxt.func := by
  cases stack with
  | nil => exact ⟨ctxt, rfl, rfl, rfl⟩
  | cons top lower => exact ⟨_, rfl, rfl, rfl⟩

theorem popContexts_full (enough : depth ≤ stack.length)
    (full : ∀ ctxt ∈ stack.take depth, ctxt.Full) (calls : List Call) :
    ∃ later, popContexts depth stack calls = some (stack.drop depth, later, false) := by
  induction depth generalizing stack calls with
  | zero => exact ⟨calls, rfl⟩
  | succ depth ih =>
    cases stack with
    | nil => exact absurd enough (Nat.not_succ_le_zero depth)
    | cons ctxt lower =>
      obtain ⟨hasCaller, hasCallee, hasFunc⟩ := full ctxt (by simp)
      obtain ⟨caller, callerEq⟩ := isSome_iff_exists.mp hasCaller
      obtain ⟨callee, calleeEq⟩ := isSome_iff_exists.mp hasCallee
      obtain ⟨func, funcEq⟩ := isSome_iff_exists.mp hasFunc
      simp only [popContexts, callerEq, calleeEq, funcEq, drop_succ_cons]
      apply ih (Nat.le_of_succ_le_succ enough)
      intro other member
      apply full
      rw [take_succ_cons]
      exact mem_cons_of_mem ctxt member

/-- The native context has no function, so the search stops above it. -/
theorem found_above_native
    (found : (front ++ [first, nativeCtxt]).findIdx? (Ctxt.contains addr) = some depth) :
    depth ≤ front.length := by
  obtain ⟨inside, holds, -⟩ := List.findIdx?_eq_some_iff_getElem.mp found
  by_contra beyond
  have isLast : depth = front.length + 1 := by
    simp only [length_append, length_cons, length_nil] at inside
    omega
  subst isLast
  rw [getElem_append_right (by omega)] at holds
  simp [nativeCtxt, ctxtNew, Ctxt.contains] at holds

theorem Shaped.pop (shaped : Shaped first cs)
    (found : cs.stack.findIdx? (Ctxt.contains addr) = some depth) (curr : FuncInsn) :
    (∃ calls, popContexts depth cs.stack [] = some (cs.stack.drop depth, calls, false)) ∧
    Shaped first { cs with
      prevInsn := some curr, stack := cs.stack.drop depth } := by
  obtain ⟨front, stack, full⟩ := shaped.full
  have above : depth ≤ front.length := by
    rw [stack] at found
    exact found_above_native found
  constructor
  · apply popContexts_full
    · rw [stack, length_append]
      exact Nat.le_add_right_of_le above
    · intro ctxt member
      rw [stack, take_append_of_le_length above] at member
      exact full ctxt (mem_of_mem_take member)
  · refine ⟨shaped.started, rfl, ⟨front.drop depth, ?_, ?_⟩, shaped.levels.drop depth⟩
    · change cs.stack.drop depth = _
      rw [stack, drop_append_of_le_length above]
    · intro ctxt member
      exact full ctxt (mem_of_mem_drop member)

theorem drop_found (found : stack.findIdx? (Ctxt.contains addr) = some depth) :
    ∃ top lower, stack = stack.take depth ++ top :: lower ∧
      stack.drop depth = top :: lower ∧ top.contains addr = true ∧
      ∀ ctxt ∈ stack.take depth, ctxt.contains addr = false := by
  obtain ⟨inside, holds, before⟩ := List.findIdx?_eq_some_iff_getElem.mp found
  have dropped := drop_eq_getElem_cons inside
  refine ⟨stack[depth], stack.drop (depth + 1), ?_, dropped, holds, ?_⟩
  · rw [← dropped, take_append_drop]
  · intro ctxt member
    obtain ⟨place, bound, rfl⟩ := mem_take_iff_getElem.mp member
    exact eq_false_of_ne_true (before place (by omega))

/-- The changes that a lookup makes to the stack. -/
inductive Moved (addr : BitVec 32) (cs : Callstack) (lookup : Lookup) : Prop
  | stayed (answer : lookup.answer = .none ∨ lookup.answer = .error)
      (stack : lookup.cs.stack = cs.stack)
  | pushed (answer : lookup.answer = .call) (curr : FuncInsn) (func : Func)
      (stack : lookup.cs.stack =
        ctxtPush cs.stack (ctxtNew (callNew cs.prevInsn (some curr)) func))
  | popped (answer : lookup.answer = .jump ∨ lookup.answer = .ret)
      (out : List Ctxt) (top : Ctxt) (lower : List Ctxt)
      (before : cs.stack = out ++ top :: lower)
      (stack : lookup.cs.stack = top :: lower)
      (contains : top.contains addr = true)
      (notOut : ∀ ctxt ∈ out, ctxt.contains addr = false)

theorem Moved.pushes (moved : Moved addr cs lookup) (isCall : lookup.answer = .call) :
    ∃ ctxt, lookup.cs.stack = ctxt :: cs.stack := by
  cases moved with
  | stayed answer =>
    rw [isCall] at answer
    exact absurd answer (by decide)
  | pushed _ curr func stack =>
    obtain ⟨pushed, stackEq, -⟩ := ctxtPush_eq cs.stack
      (ctxtNew (callNew cs.prevInsn (some curr)) func)
    exact ⟨pushed, stack.trans stackEq⟩
  | popped answer =>
    rw [isCall] at answer
    exact absurd answer (by decide)

theorem Moved.leaves (moved : Moved addr cs lookup)
    (answers : lookup.answer = .jump ∨ lookup.answer = .ret) :
    ∃ out top lower, cs.stack = out ++ lookup.cs.stack ∧
      lookup.cs.stack = top :: lower ∧ top.contains addr = true ∧
      ∀ ctxt ∈ out, ctxt.contains addr = false := by
  cases moved with
  | stayed answer =>
    rcases answers with isJump | isRet
    · exact absurd (isJump ▸ answer) (by decide)
    · exact absurd (isRet ▸ answer) (by decide)
  | pushed answer =>
    rw [answer] at answers
    exact absurd answers (by decide)
  | popped _ out top lower before stack contains notOut =>
    exact ⟨out, top, lower, by rw [before, stack], stack, contains, notOut⟩

theorem Shaped.push (shaped : Shaped first cs) (curr : FuncInsn) (func : Func) :
    Shaped first { cs with
      prevInsn := some curr
      stack := ctxtPush cs.stack (ctxtNew (callNew cs.prevInsn (some curr)) func) } := by
  obtain ⟨front, stack, full⟩ := shaped.full
  obtain ⟨pushed, stackEq, callEq, funcEq⟩ := ctxtPush_eq cs.stack
    (ctxtNew (callNew cs.prevInsn (some curr)) func)
  refine ⟨shaped.started, rfl, ⟨pushed :: front, ?_, ?_⟩, shaped.levels.push _⟩
  · change ctxtPush _ _ = _
    rw [stackEq, stack]
    rfl
  · intro ctxt member
    rcases mem_cons.mp member with rfl | member
    · unfold Ctxt.Full
      rw [callEq, funcEq]
      exact ⟨shaped.previous, rfl, rfl⟩
    · exact full ctxt member

section Steps

variable {dhSearch : BitVec 32 → Option FuncInsn} {first : Ctxt}
variable {cs : Callstack} {insn : InsnDesc} {lookup : Lookup}

/-- What one lookup does. -/
structure Stepped (first : Ctxt) (cs : Callstack) (insn : InsnDesc)
    (lookup : Lookup) : Prop where
  shaped : Shaped first lookup.cs
  moved : Moved insn.pc cs lookup
  silent : .popingNativeContext ∉ lookup.messages

theorem lookupCall_stepped (shaped : Shaped first cs) (looked : lookupCall cs curr = some lookup) :
    Stepped first cs insn lookup := by
  unfold lookupCall at looked
  cases funcEq : curr.func with
  | none =>
    rw [funcEq] at looked
    cases looked
  | some func =>
    simp only [funcEq, some.injEq] at looked
    subst looked
    refine ⟨shaped.push curr func, .pushed rfl curr func rfl, ?_⟩
    dsimp only
    split <;> simp

theorem lookupReturn_stepped (shaped : Shaped first cs)
    (looked : lookupReturn cs insn.pc curr = some lookup) :
    Stepped first cs insn lookup := by
  unfold lookupReturn at looked
  cases found : cs.stack.findIdx? (Ctxt.contains insn.pc) with
  | none =>
    simp only [found, some.injEq] at looked
    subst looked
    exact ⟨shaped, .stayed (Or.inl rfl) rfl, not_mem_nil⟩
  | some depth =>
    obtain ⟨⟨calls, popped⟩, later⟩ := shaped.pop found curr
    simp only [found, popped, map_some, Bool.false_eq_true, if_false, some.injEq] at looked
    subst looked
    obtain ⟨top, lower, before, stack, contains, notOut⟩ := drop_found found
    exact ⟨later, .popped (Or.inr rfl) _ top lower before stack contains notOut, not_mem_nil⟩

theorem lookupInitialized_stepped (shaped : Shaped first cs)
    (looked : lookupInitialized dhSearch cs insn = some lookup) :
    Stepped first cs insn lookup := by
  unfold lookupInitialized at looked
  split at looked
  · cases looked
    exact ⟨shaped, .stayed (Or.inl rfl) rfl, not_mem_nil⟩
  split at looked
  · cases looked
  rename_i curr _
  split at looked
  · exact lookupCall_stepped shaped looked
  split at looked
  case isFalse => exact lookupReturn_stepped shaped looked
  case isTrue inTop =>
    cases looked
    refine ⟨⟨shaped.started, rfl, shaped.full, shaped.levels⟩, ?_, not_mem_nil⟩
    cases stack : cs.stack with
    | nil =>
      rw [stack] at inTop
      cases inTop
    | cons top lower =>
      rw [stack] at inTop
      exact .popped (Or.inl rfl) [] top lower stack rfl inTop nofun

theorem callstackLookup_stepped (shaped : Shaped first cs)
    (looked : callstackLookup dhSearch cs insn = some lookup) :
    Stepped first cs insn lookup := by
  unfold callstackLookup at looked
  cases state : cs.state with
  | uninitialized => exact absurd state shaped.started
  | initialized =>
    rw [state] at looked
    exact lookupInitialized_stepped shaped looked
  | error =>
    rw [state] at looked
    cases looked
    exact ⟨shaped, .stayed (Or.inr rfl) rfl, not_mem_nil⟩

/-- The index gives each entry of a function its function. -/
def EntryKnown (dhSearch : BitVec 32 → Option FuncInsn) (addr : BitVec 32) :
    Prop :=
  ∀ curr, dhSearch addr = some curr → curr.addr = addr →
    curr.flags &&& insnFlagsFuncEntry ≠ 0 → curr.func.isSome

theorem lookupReturn_isSome (shaped : Shaped first cs) (addr : BitVec 32)
    (curr : FuncInsn) : (lookupReturn cs addr curr).isSome := by
  unfold lookupReturn
  cases found : cs.stack.findIdx? (Ctxt.contains addr) with
  | none => rfl
  | some depth =>
    obtain ⟨⟨calls, popped⟩, -⟩ := shaped.pop found curr
    dsimp only
    rw [popped]
    rfl

theorem lookupInitialized_isSome (shaped : Shaped first cs)
    (found : (dhSearch insn.pc).isSome) (known : EntryKnown dhSearch insn.pc) :
    (lookupInitialized dhSearch cs insn).isSome := by
  obtain ⟨curr, currEq⟩ := isSome_iff_exists.mp found
  unfold lookupInitialized
  simp only [currEq]
  split
  · rfl
  split
  case isTrue entry =>
    obtain ⟨func, funcEq⟩ := isSome_iff_exists.mp (known curr currEq entry.1 entry.2)
    unfold lookupCall
    rw [funcEq]
    rfl
  split
  · rfl
  · exact lookupReturn_isSome shaped insn.pc curr

theorem callstackLookup_isSome (shaped : Shaped first cs)
    (found : (dhSearch insn.pc).isSome) (known : EntryKnown dhSearch insn.pc) :
    (callstackLookup dhSearch cs insn).isSome := by
  unfold callstackLookup
  cases cs.state with
  | uninitialized => rfl
  | initialized => exact lookupInitialized_isSome shaped found known
  | error => rfl

theorem lookupUninitialized_shaped (insn : InsnDesc) (found : dhSearch insn.pc = some curr) :
    ∃ first, (lookupUninitialized dhSearch callstackNew insn).cs.stack = [first, nativeCtxt] ∧
      Shaped first (lookupUninitialized dhSearch callstackNew insn).cs := by
  refine ⟨{ ctxtNew (callNew none (some curr)) curr.func with level := 1 }, ?_⟩
  have levels : Levels (ctxtPush [nativeCtxt] (ctxtNew (callNew none (some curr)) curr.func)) :=
    levels_native.push _
  unfold lookupUninitialized
  rw [found]
  dsimp only
  by_cases noFunc : curr.func = none
  · simp only [noFunc, if_true] at levels ⊢
    exact ⟨rfl, nofun, rfl, ⟨[], rfl, nofun⟩, levels⟩
  · simp only [noFunc, if_false]
    exact ⟨rfl, nofun, rfl, ⟨[], rfl, nofun⟩, levels⟩

end Steps

section Runs

variable {dhSearch : BitVec 32 → Option FuncInsn}

theorem callstackRun_concat (cs : Callstack) (insns : List InsnDesc) (insn : InsnDesc) :
    callstackRun dhSearch cs (insns ++ [insn]) =
      (callstackRun dhSearch cs insns).bind fun cs =>
        (callstackLookup dhSearch cs insn).map Lookup.cs := by
  unfold callstackRun
  simp only [foldlM_append, foldlM_cons, foldlM_nil, bind_pure]
  rfl

theorem callstackRun_shaped (shaped : Shaped first start) (insns : List InsnDesc)
    (reached : callstackRun dhSearch start insns = some cs) :
    Shaped first cs := by
  induction insns using List.reverseRecOn generalizing cs with
  | nil =>
    cases reached
    exact shaped
  | append_singleton insns insn ih =>
    rw [callstackRun_concat] at reached
    obtain ⟨earlier, run, last⟩ := bind_eq_some_iff.mp reached
    obtain ⟨lookup, looked, rfl⟩ := map_eq_some_iff.mp last
    exact (callstackLookup_stepped (ih run) looked).shaped

/-- Every call stack that is reached after a first lookup keeps the context
of that lookup. -/
theorem reached_shaped (found : (dhSearch insn.pc).isSome)
    (reached : callstackRun dhSearch callstackNew (insn :: rest) = some cs) :
    ∃ first start, callstackRun dhSearch callstackNew [insn] = some start ∧
      start.stack = [first, nativeCtxt] ∧ Shaped first cs := by
  obtain ⟨curr, currEq⟩ := isSome_iff_exists.mp found
  obtain ⟨first, stack, shaped⟩ := lookupUninitialized_shaped insn currEq
  exact ⟨first, _, rfl, stack, callstackRun_shaped shaped rest reached⟩

end Runs

/-- The shape of the stack: over every sequence of lookups of addresses that
the index finds, the levels go down by one, the context of the first lookup
stays above the native one, and a further lookup never reports that it pops
the native context, pushes one context on a call, and on a jump or a return
leaves the part of the stack from the nearest context that contains the
address. -/
theorem callstack_shape (dhSearch : BitVec 32 → Option FuncInsn)
    (insns : List InsnDesc) (cs : Callstack) (found : ∀ insn ∈ insns, (dhSearch insn.pc).isSome)
    (reached : callstackRun dhSearch callstackNew insns = some cs) :
    Levels cs.stack ∧
    (∀ insn rest, insns = insn :: rest → ∃ first start,
      callstackRun dhSearch callstackNew [insn] = some start ∧
      start.stack = [first, nativeCtxt] ∧ start.stack <:+ cs.stack) ∧
    ∀ insn, (dhSearch insn.pc).isSome →
      (EntryKnown dhSearch insn.pc → (callstackLookup dhSearch cs insn).isSome) ∧
      ∀ lookup, callstackLookup dhSearch cs insn = some lookup →
        .popingNativeContext ∉ lookup.messages ∧
        (lookup.answer = .call → ∃ ctxt, lookup.cs.stack = ctxt :: cs.stack) ∧
        (lookup.answer = .jump ∨ lookup.answer = .ret →
          ∃ out top lower, cs.stack = out ++ lookup.cs.stack ∧
            lookup.cs.stack = top :: lower ∧
            top.contains insn.pc = true ∧
            ∀ ctxt ∈ out, ctxt.contains insn.pc = false) := by
  cases insns with
  | nil =>
    cases reached
    refine ⟨levels_native, nofun, ?_⟩
    intro insn isFound
    refine ⟨fun _ => rfl, ?_⟩
    intro lookup looked
    obtain ⟨curr, currEq⟩ := isSome_iff_exists.mp isFound
    cases looked
    unfold lookupUninitialized
    rw [currEq]
    dsimp only
    split
    · refine ⟨by simp, nofun, ?_⟩
      rintro (isJump | isRet)
      · cases isJump
      · cases isRet
    · refine ⟨by simp, fun _ => ⟨_, rfl⟩, ?_⟩
      rintro (isJump | isRet)
      · cases isJump
      · cases isRet
  | cons first rest =>
    obtain ⟨ctxt, start, started, stack, shaped⟩ :=
      reached_shaped (found first mem_cons_self) reached
    refine ⟨shaped.levels, ?_, ?_⟩
    · intro insn others same
      obtain ⟨rfl, rfl⟩ := List.cons.inj same
      obtain ⟨front, whole, -⟩ := shaped.full
      exact ⟨ctxt, start, started, stack, front, by rw [stack, whole]⟩
    · intro insn isFound
      refine ⟨callstackLookup_isSome shaped isFound, ?_⟩
      intro lookup looked
      have stepped := callstackLookup_stepped shaped looked
      exact ⟨stepped.silent, stepped.moved.pushes, stepped.moved.leaves⟩

/-- An index of two functions, with an instruction for each entry. -/
def twoFunctions (addr : BitVec 32) : Option FuncInsn :=
  if addr < 0x100 then none
  else if addr < 0x200 then some ⟨⟨3, 0x100⟩, some ⟨0x100, 0x180⟩⟩
  else some ⟨⟨3, 0x200⟩, some ⟨0x200, 0x280⟩⟩

theorem callstack_shape_call_and_return :
    ∃ cs, callstackRun twoFunctions callstackNew [⟨0x100, 1⟩, ⟨0x200, 1⟩, ⟨0x104, 1⟩] = some cs ∧
      Levels cs.stack := by
  have runs : (callstackRun twoFunctions callstackNew
      [⟨0x100, 1⟩, ⟨0x200, 1⟩, ⟨0x104, 1⟩]).isSome := by decide
  obtain ⟨cs, reached⟩ := isSome_iff_exists.mp runs
  exact ⟨cs, reached, (callstack_shape twoFunctions _ cs (by decide) reached).1⟩

end Reverse.DebugHelper
