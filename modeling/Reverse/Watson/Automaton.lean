import Mathlib.Data.BitVec

/-!
# The write-back automaton of Watson

For each byte of the memory Watson keeps the state of an automaton, the last
access of each kind and a bitmap of the caches that are taken to have the
latest data.  The accesses carry the interval of the global order in which they
happened.
-/

namespace Reverse.Watson

open Function BitVec

inductive DfaState where
  | init
  | analyse
  | modify
  | writeback
  | problem
deriving DecidableEq, Repr

inductive CoherenceEvent where
  | writeReq
  | readReq
  | allocReq
  | modifyAck
  | writeAck
  | readAck
deriving DecidableEq, Repr

/-- The structure `writer_t`, which is also `reader_t` and `modifier_t`, with
the number of the call of the plugin that has filled it in. -/
structure Access where
  id : BitVec 8
  preOrder : Nat
  posOrder : Nat
  call : Nat
deriving DecidableEq, Repr

def Access.zero : Access := { id := 0, preOrder := 0, posOrder := 0, call := 0 }

/-- The part of `mem_data_t` that the automaton uses. -/
structure MemData where
  state : DfaState
  bitmapReaders : BitVec 32
  writer : Access
  reader : Access
  modifier : Access
  warnAddr : Bool
deriving DecidableEq, Repr

def MemData.zero : MemData where
  state := .init
  bitmapReaders := 0
  writer := .zero
  reader := .zero
  modifier := .zero
  warnAddr := false

structure Problem where
  total : Nat
  modReadAck : Nat
  modReadReq : Nat
  writeReadAck : Nat
  writeFlush : Nat
deriving DecidableEq, Repr

structure Warning where
  total : Nat
  modReadAlloc : Nat
  modWrite : Nat
deriving DecidableEq, Repr

structure Counters where
  problem : Problem
  warning : Warning
  undefined : Nat
deriving DecidableEq, Repr

def Counters.zero : Counters where
  problem := ⟨0, 0, 0, 0, 0⟩
  warning := ⟨0, 0, 0⟩
  undefined := 0

def maxErrors : Nat := 1000000

/-- The bit of a cache in a bitmap of readers. -/
def readerBit (id : BitVec 8) : BitVec 32 := 1#32 <<< id.toNat

def inReaders (bitmap : BitVec 32) (id : BitVec 8) : Bool :=
  bitmap &&& readerBit id ≠ 0#32

/-- The test of the macros `ASSERT_*_ORDER`. -/
def orderUndefined (first second : Access) : Bool :=
  second.preOrder < first.posOrder

/-- Two modifications by the same cache are in order. -/
def modModUndefined (first second : Access) : Bool :=
  first.id ≠ second.id && orderUndefined first second

section

variable (data : MemData) (counters : Counters)

/-- What the macros do if the test fails. -/
def undefinedOrder : Option (MemData × Counters) :=
  some ({ data with state := .problem },
    { counters with undefined := counters.undefined + 1 })

/-- The macro `PRINT_PROBLEM` and the counter of the kind of problem.  The
program exits after too many problems. -/
def printProblem (count : Problem → Problem) : Option (MemData × Counters) :=
  let total := counters.problem.total + 1
  if maxErrors < total then none
  else some ({ data with state := .problem },
    { counters with
      problem := count { counters.problem with total := total } })

/-- A warning is given once for each byte. -/
def warnOnce (count : Warning → Warning) : Option (MemData × Counters) :=
  if data.warnAddr = false then
    some ({ data with warnAddr := true },
      { counters with
        warning := count { counters.warning with total := counters.warning.total + 1 } })
  else some (data, counters)

variable (access : Access)

/-- The byte is modified by `access`. -/
def MemData.modified : MemData :=
  { data with
    writer := .zero
    reader := .zero
    modifier := access
    bitmapReaders := readerBit access.id
    state := .modify }

/-- The byte is written back by `access`. -/
def MemData.written : MemData :=
  { data with
    writer := access
    reader := .zero
    modifier := .zero
    bitmapReaders := readerBit access.id
    state := .writeback }

def dfaInit : CoherenceEvent → Option (MemData × Counters)
  | .modifyAck => some (data.modified access, counters)
  | _ => some (data, counters)

def dfaModify : CoherenceEvent → Option (MemData × Counters)
  | .readAck =>
    let data := { data with reader := access }
    if data.modifier.id ≠ access.id then
      if orderUndefined data.modifier access then
        undefinedOrder data counters
      else
        printProblem data counters fun problem =>
          { problem with modReadAck := problem.modReadAck + 1 }
    else some (data, counters)
  | .readReq =>
    let data := { data with reader := access }
    if orderUndefined data.modifier access then
      undefinedOrder data counters
    else
      printProblem data counters fun problem =>
        { problem with modReadReq := problem.modReadReq + 1 }
  | .allocReq =>
    warnOnce data counters fun warning =>
      { warning with modReadAlloc := warning.modReadAlloc + 1 }
  | .modifyAck =>
    if orderUndefined data.reader access then
      undefinedOrder data counters
    else if modModUndefined data.modifier access then
      undefinedOrder data counters
    else some (data.modified access, counters)
  | .writeReq =>
    if data.modifier.id = access.id then
      if orderUndefined data.modifier access then
        undefinedOrder data counters
      else some (data.written access, counters)
    else
      warnOnce data counters fun warning =>
        { warning with modWrite := warning.modWrite + 1 }
  | .writeAck => some (data, counters)

def dfaWriteback : CoherenceEvent → Option (MemData × Counters)
  | .readAck =>
    let data := { data with reader := access }
    if inReaders data.bitmapReaders access.id then some (data, counters)
    else if orderUndefined data.writer access then
      undefinedOrder data counters
    else
      printProblem data counters fun problem =>
        { problem with writeReadAck := problem.writeReadAck + 1 }
  | .allocReq | .readReq =>
    some ({ data with
      reader := access
      bitmapReaders := data.bitmapReaders ||| readerBit access.id },
      counters)
  | .modifyAck =>
    if orderUndefined data.writer access then
      undefinedOrder data counters
    else if orderUndefined data.reader access then
      undefinedOrder data counters
    else
      -- The reader is kept here.
      some ({ data.modified access with reader := data.reader }, counters)
  | .writeReq =>
    if orderUndefined data.writer access then
      undefinedOrder data counters
    else if inReaders data.bitmapReaders access.id then
      some (data.written access, counters)
    else
      printProblem data counters fun problem =>
        { problem with writeFlush := problem.writeFlush + 1 }
  | .writeAck => some (data, counters)

def watsonDfaWriteback (event : CoherenceEvent) : Option (MemData × Counters) :=
  match data.state with
  | .init => dfaInit data counters access event
  | .modify => dfaModify data counters access event
  | .writeback => dfaWriteback data counters access event
  | .problem => some (data, counters)
  | .analyse => some (data, counters)

end

/-- The sum of the counters of the kinds of problems. -/
def Problem.kinds (problem : Problem) : Nat :=
  problem.modReadAck + problem.modReadReq + problem.writeReadAck + problem.writeFlush

/-- The sum of the counters of the kinds of warnings. -/
def Warning.kinds (warning : Warning) : Nat :=
  warning.modReadAlloc + warning.modWrite

/-- The cache is taken to have the latest version of the byte. -/
def MemData.Trusts (data : MemData) (id : BitVec 8) : Prop :=
  data.state = .modify ∧ data.modifier.id = id ∨
    data.state = .writeback ∧ inReaders data.bitmapReaders id = true

/-- What the automaton can do with an event.  All that is proved about its steps
comes from these cases. -/
inductive Outcome (data : MemData) (counters : Counters) (access : Access) :
    CoherenceEvent → Option (MemData × Counters) → Prop where
  | untouched {event : CoherenceEvent} (state : data.state = .init)
      (other : event ≠ .modifyAck) :
      Outcome data counters access event (some (data, counters))
  | past {event : CoherenceEvent} (state : data.state = .problem ∨ data.state = .analyse) :
      Outcome data counters access event (some (data, counters))
  | acknowledged (active : data.state = .modify ∨ data.state = .writeback) :
      Outcome data counters access .writeAck (some (data, counters))
  | modified (reader : Access) (fresh : data.state ≠ .problem) :
      Outcome data counters access .modifyAck
        (some ({ data.modified access with reader := reader }, counters))
  | read (trusted : data.Trusts access.id) :
      Outcome data counters access .readAck (some ({ data with reader := access }, counters))
  | refilled {event : CoherenceEvent} (state : data.state = .writeback)
      (refills : event = .readReq ∨ event = .allocReq) :
      Outcome data counters access event (some ({ data with
        reader := access
        bitmapReaders := data.bitmapReaders ||| readerBit access.id }, counters))
  | written (trusted : data.Trusts access.id) :
      Outcome data counters access .writeReq (some (data.written access, counters))
  | warned {event : CoherenceEvent} (count : Warning → Warning) (state : data.state = .modify)
      (other : event = .allocReq ∨ event = .writeReq ∧ data.modifier.id ≠ access.id)
      (counts : ∀ warning, (count warning).total = warning.total ∧
        (count warning).kinds = warning.kinds + 1) :
      Outcome data counters access event (warnOnce data counters count)
  | undefined {event : CoherenceEvent} (reader : Access)
      (active : data.state = .modify ∨ data.state = .writeback) :
      Outcome data counters access event (undefinedOrder { data with reader := reader } counters)
  | readModified {event : CoherenceEvent} (count : Problem → Problem)
      (state : data.state = .modify)
      (reads : event = .readAck ∧ data.modifier.id ≠ access.id ∨ event = .readReq)
      (ordered : data.modifier.posOrder ≤ access.preOrder)
      (counts : ∀ problem, (count problem).total = problem.total ∧
        (count problem).kinds = problem.kinds + 1) :
      Outcome data counters access event (printProblem { data with reader := access } counters count)
  | outdated {event : CoherenceEvent} (reader : Access) (count : Problem → Problem)
      (state : data.state = .writeback) (uses : event = .readAck ∨ event = .writeReq)
      (untrusted : inReaders data.bitmapReaders access.id = false)
      (counts : ∀ problem, (count problem).total = problem.total ∧
        (count problem).kinds = problem.kinds + 1)
      (others : ∀ problem, (count problem).modReadAck = problem.modReadAck ∧
        (count problem).modReadReq = problem.modReadReq) :
      Outcome data counters access event (printProblem { data with reader := reader } counters count)

section

variable {data : MemData} {counters : Counters} {access : Access}

theorem dfaModify_outcome (state : data.state = .modify) (event : CoherenceEvent) :
    Outcome data counters access event (dfaModify data counters access event) := by
  have undefined (reader : Access) : Outcome data counters access event
      (undefinedOrder { data with reader := reader } counters) := .undefined reader (.inl state)
  have fresh : data.state ≠ .problem := by
    rw [state]
    nofun
  have ordered (defined : ¬ orderUndefined data.modifier access = true) :
      data.modifier.posOrder ≤ access.preOrder := by
    simpa [orderUndefined] using defined
  cases event with
  | readAck =>
    simp only [dfaModify]
    split
    · next other =>
        split
        · exact undefined access
        · next defined =>
            refine .readModified _ state (.inl ⟨rfl, other⟩) (ordered defined) fun problem =>
              ⟨rfl, ?_⟩
            simp only [Problem.kinds]
            omega
    · next same => exact .read (.inl ⟨state, not_not.mp same⟩)
  | readReq =>
    simp only [dfaModify]
    split
    · exact undefined access
    · next defined =>
        refine .readModified _ state (.inr rfl) (ordered defined) fun problem => ⟨rfl, ?_⟩
        simp only [Problem.kinds]
        omega
  | allocReq =>
    simp only [dfaModify]
    refine .warned _ state (.inl rfl) fun warning => ⟨rfl, ?_⟩
    simp only [Warning.kinds]
    omega
  | modifyAck =>
    simp only [dfaModify]
    split
    · exact undefined data.reader
    · split
      · exact undefined data.reader
      · exact .modified .zero fresh
  | writeReq =>
    simp only [dfaModify]
    split
    · next same =>
        split
        · exact undefined data.reader
        · exact .written (.inl ⟨state, same⟩)
    · next other =>
        refine .warned _ state (.inr ⟨rfl, other⟩) fun warning => ⟨rfl, ?_⟩
        simp only [Warning.kinds]
        omega
  | writeAck => exact .acknowledged (.inl state)

theorem dfaWriteback_outcome (state : data.state = .writeback) (event : CoherenceEvent) :
    Outcome data counters access event (dfaWriteback data counters access event) := by
  have undefined (reader : Access) : Outcome data counters access event
      (undefinedOrder { data with reader := reader } counters) := .undefined reader (.inr state)
  have fresh : data.state ≠ .problem := by
    rw [state]
    nofun
  cases event with
  | readAck =>
    simp only [dfaWriteback]
    split
    · next trusted => exact .read (.inr ⟨state, trusted⟩)
    · next untrusted =>
        split
        · exact undefined access
        · refine .outdated access _ state (.inl rfl) (Bool.eq_false_iff.mpr untrusted)
            (fun problem => ⟨rfl, ?_⟩) fun _ => ⟨rfl, rfl⟩
          simp only [Problem.kinds]
          omega
  | readReq => exact .refilled state (.inl rfl)
  | allocReq => exact .refilled state (.inr rfl)
  | modifyAck =>
    simp only [dfaWriteback]
    split
    · exact undefined data.reader
    · split
      · exact undefined data.reader
      · exact .modified data.reader fresh
  | writeReq =>
    simp only [dfaWriteback]
    split
    · exact undefined data.reader
    · split
      · next trusted => exact .written (.inr ⟨state, trusted⟩)
      · next untrusted =>
          refine .outdated data.reader _ state (.inr rfl) (Bool.eq_false_iff.mpr untrusted)
            (fun problem => ⟨rfl, ?_⟩) fun _ => ⟨rfl, rfl⟩
          simp only [Problem.kinds]
          omega
  | writeAck => exact .acknowledged (.inr state)

theorem watsonDfaWriteback_outcome (event : CoherenceEvent) :
    Outcome data counters access event (watsonDfaWriteback data counters access event) := by
  unfold watsonDfaWriteback
  cases state : data.state with
  | init =>
    cases event with
    | modifyAck =>
      refine .modified .zero ?_
      rw [state]
      nofun
    | _ => exact .untouched state nofun
  | modify => exact dfaModify_outcome state event
  | writeback => exact dfaWriteback_outcome state event
  | problem => exact .past (.inl state)
  | analyse => exact .past (.inr state)

end

/-- A call of the automaton for a byte. -/
structure Call where
  event : CoherenceEvent
  access : Access
deriving DecidableEq, Repr

def dfaStep (state : MemData × Counters) (call : Call) : Option (MemData × Counters) :=
  watsonDfaWriteback state.1 state.2 call.access call.event

def dfaRun (calls : List Call) : Option (MemData × Counters) :=
  calls.foldlM dfaStep (.zero, .zero)

/-- Which version of the byte the memory and the caches have, and the caches
with a modification that they have not written back. -/
structure Versions where
  latest : Nat
  memory : Nat
  copy : BitVec 8 → Nat
  unwritten : BitVec 8 → Bool

def Versions.start : Versions where
  latest := 0
  memory := 0
  copy _ := 0
  unwritten _ := false

def Versions.step (versions : Versions) (call : Call) : Versions :=
  let id := call.access.id
  match call.event with
  | .modifyAck =>
    { versions with
      latest := versions.latest + 1
      copy := update versions.copy id (versions.latest + 1)
      unwritten := update versions.unwritten id true }
  | .writeReq =>
    { versions with
      memory := versions.copy id
      unwritten := update versions.unwritten id false }
  | .readReq | .allocReq =>
    { versions with
      copy := update versions.copy id versions.memory }
  | .readAck | .writeAck => versions

def versionsOf (calls : List Call) : Versions :=
  calls.foldl Versions.step .start

/-- Versions are numbered in the order in which they are created. -/
structure Versions.Bounded (versions : Versions) : Prop where
  memory : versions.memory ≤ versions.latest
  copy : ∀ id, versions.copy id ≤ versions.latest

theorem Versions.Bounded.step {versions : Versions} (bounded : versions.Bounded) (call : Call) :
    (versions.step call).Bounded := by
  have memory := bounded.memory
  obtain ⟨event, access⟩ := call
  cases event with
  | modifyAck =>
    refine ⟨Nat.le_succ_of_le memory, fun id => ?_⟩
    simp only [Versions.step, update_apply]
    split
    · exact Nat.le_refl _
    · exact Nat.le_succ_of_le (bounded.copy id)
  | writeReq => exact ⟨bounded.copy access.id, bounded.copy⟩
  | readReq | allocReq =>
    refine ⟨memory, fun id => ?_⟩
    simp only [Versions.step, update_apply]
    split
    · exact memory
    · exact bounded.copy id
  | readAck | writeAck => exact bounded

theorem inReaders_iff {id : BitVec 8} (small : id.toNat < 32) :
    inReaders bitmap id = true ↔ bitmap.getLsbD id.toNat = true := by
  have bits : ∀ i < 32, (bitmap &&& readerBit id).getLsbD i =
      (bitmap.getLsbD i && decide (i = id.toNat)) := by
    intro i bound
    rw [getLsbD_and, readerBit, getLsbD_shiftLeft]
    congr 1
    simp only [bound, decide_true, Bool.true_and, getLsbD_one]
    grind
  rw [inReaders, decide_eq_true_iff]
  constructor
  · intro differ
    by_contra unset
    apply differ
    apply eq_of_getLsbD_eq
    intro i bound
    rw [bits i bound, getLsbD_zero]
    by_cases same : i = id.toNat
    · simp [same, Bool.eq_false_iff.mpr unset]
    · simp [same]
  · intro set zero
    have bit := bits id.toNat small
    rw [zero, getLsbD_zero, set] at bit
    simp at bit

theorem inReaders_or {added id : BitVec 8} (small : id.toNat < 32) :
    inReaders (bitmap ||| readerBit added) id = true ↔ inReaders bitmap id = true ∨ id = added := by
  rw [inReaders_iff small, inReaders_iff small, ← toNat_inj]
  simp only [getLsbD_or, Bool.or_eq_true, readerBit,
    getLsbD_shiftLeft, small, decide_true, Bool.true_and,
    getLsbD_one]
  grind

theorem inReaders_single {only id : BitVec 8} (small : id.toNat < 32) :
    inReaders (readerBit only) id = true ↔ id = only := by
  have added := @inReaders_or 0#32 only id small
  have empty : inReaders 0#32 id = false := by
    simp [inReaders]
  rwa [zero_or, empty, Bool.false_eq_true, false_or] at added

end Reverse.Watson
