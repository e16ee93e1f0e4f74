import Reverse.Library.Schedule
import Reverse.Watson.Reads

/-!
# The order of modifications and reads

The trace tells the order of the answers of the memory and, for each cache, the
order of its accesses and of the answers that it gets.  Every total order that
agrees with this could be what has happened.  Watson takes a modification to be
at the last answer that the cache got before it, which is too early: it reports
problems of reads that may have happened before the modification, namely those
that overlap it.
-/

namespace Reverse.Watson

open List Option Function

/-- The cache that makes the access or gets the answer. -/
def PluginCall.device : PluginCall → Option Byte
  | .cache event => some event.devid
  | .mem event => event.cache

def PluginCall.isMem : PluginCall → Bool
  | .cache _ => false
  | .mem _ => true

/-- The trace tells that one call comes before the other. -/
def Recorded (calls : List PluginCall) (a b : Nat) : Prop :=
  a < b ∧ ∃ first second, calls[a]? = some first ∧ calls[b]? = some second ∧
    (first.isMem = true ∧ second.isMem = true ∨
      ∃ id, first.device = some id ∧ second.device = some id)

/-- A total order of the calls that agrees with the trace. -/
def Consistent (calls : List PluginCall) (time : Nat → Nat) : Prop :=
  Schedule calls.length (Recorded calls) time

/-- The access is a call for its cache. -/
def CalledBy (calls : List PluginCall) (access : Access) : Prop :=
  ∃ event, calls[access.call]? = some (.cache event) ∧ event.devid = access.id

/-- The memory answers the cache with this call. -/
def AnsweredAt (calls : List PluginCall) (k : Nat) (id : Byte) : Prop :=
  ∃ answer, calls[k]? = some answer ∧ answer.Answers id

/-- The memory answers the first cache after its access, and then the second
cache before its access. -/
def AnsweredBetween (calls : List PluginCall) (first second : Access) : Prop :=
  ∃ a b, first.call < a ∧ a < b ∧ b < second.call ∧
    AnsweredAt calls a first.id ∧ AnsweredAt calls b second.id

theorem answers_iff {id : Byte} {call : PluginCall} :
    call.Answers id ↔ call.isMem = true ∧ call.device = some id := by
  constructor
  · rintro ⟨index, rfl⟩
    exact ⟨rfl, rfl⟩
  · rintro ⟨isMem, device⟩
    cases call with
    | cache event => cases isMem
    | mem event => exact ⟨event.index, congrArg (PluginCall.mem ⟨_, ·⟩) device⟩

/-- What a chain that starts at an access of a cache can reach: the calls for
this cache and, after an answer to it, the later answers of the memory and what
comes after them. -/
def Reached (calls : List PluginCall) (start : Access) (k : Nat) : Prop :=
  ∃ call, calls[k]? = some call ∧
    (start.call ≤ k ∧ call.device = some start.id ∨
      ∃ a b, start.call < a ∧ a ≤ b ∧ b ≤ k ∧
        AnsweredAt calls a start.id ∧
        ∃ relay, calls[b]? = some relay ∧ relay.isMem = true ∧
          (relay = call ∨ ∃ id, relay.device = some id ∧ call.device = some id))

section

variable {calls : List PluginCall} {first second : Access}

theorem Reached.step (called : CalledBy calls first)
    (reached : Reached calls first k) (recorded : Recorded calls k l) :
    Reached calls first l := by
  obtain ⟨before, source, target, isSource, isTarget, related⟩ := recorded
  obtain ⟨call, isCall, reached⟩ := reached
  rw [isSource] at isCall
  cases isCall
  refine ⟨target, isTarget, ?_⟩
  rcases related with ⟨sourceMem, targetMem⟩ | ⟨id, sourceId, targetId⟩
  · right
    rcases reached with ⟨late, device⟩ | ⟨a, b, afterFirst, ordered, upTo, answer, -⟩
    · have differ : first.call ≠ k := by
        rintro rfl
        obtain ⟨event, isEvent, -⟩ := called
        rw [isEvent] at isSource
        cases isSource
        cases sourceMem
      exact ⟨k, l, by omega, by omega, Nat.le_refl _,
        ⟨source, isSource, answers_iff.mpr ⟨sourceMem, device⟩⟩,
        target, isTarget, targetMem, .inl rfl⟩
    · exact ⟨a, l, afterFirst, by omega, Nat.le_refl _, answer, target,
        isTarget, targetMem, .inl rfl⟩
  · rcases reached with ⟨late, device⟩ |
      ⟨a, b, afterFirst, ordered, upTo, answer, relay, isRelay, isMem, last⟩
    · rw [sourceId] at device
      cases device
      exact .inl ⟨by omega, targetId⟩
    · right
      refine ⟨a, b, afterFirst, ordered, by omega, answer, relay, isRelay,
        isMem, .inr ⟨id, ?_, targetId⟩⟩
      rcases last with rfl | ⟨other, relayId, sourceOther⟩
      · exact sourceId
      · rw [sourceId] at sourceOther
        cases sourceOther
        exact relayId

theorem reached_of_chain (called : CalledBy calls first)
    (chain : Relation.TransGen (Recorded calls) first.call k) :
    Reached calls first k := by
  have start : Reached calls first first.call := by
    obtain ⟨event, isEvent, same⟩ := called
    exact ⟨_, isEvent, .inl ⟨Nat.le_refl _, congrArg some same⟩⟩
  induction chain with
  | single recorded => exact start.step called recorded
  | tail _ recorded ih => exact ih.step called recorded

theorem chain_iff (firstCalled : CalledBy calls first)
    (secondCalled : CalledBy calls second) (differ : first.id ≠ second.id) :
    Relation.TransGen (Recorded calls) first.call second.call ↔
      AnsweredBetween calls first second := by
  obtain ⟨read, isRead, readId⟩ := secondCalled
  constructor
  · intro chain
    obtain ⟨call, isCall, reached⟩ := reached_of_chain firstCalled chain
    rw [isRead] at isCall
    cases isCall
    rcases reached with ⟨-, device⟩ |
      ⟨a, b, afterFirst, ordered, upTo, answer, relay, isRelay, isMem, last⟩
    · have same : read.devid = first.id := some.inj device
      exact absurd (same.symm.trans readId) differ
    · rcases last with rfl | ⟨id, relayId, device⟩
      · cases isMem
      · cases device
        have answersSecond : relay.Answers second.id := answers_iff.mpr ⟨isMem, readId ▸ relayId⟩
        obtain ⟨reply, isReply, answersFirst⟩ := answer
        have apart : a ≠ b := by
          rintro rfl
          rw [isReply] at isRelay
          cases isRelay
          have same := (answers_iff.mp answersFirst).2.symm.trans (answers_iff.mp answersSecond).2
          exact differ (some.inj same)
        have early : b ≠ second.call := by
          rintro rfl
          rw [isRead] at isRelay
          cases isRelay
          cases isMem
        exact ⟨a, b, afterFirst, by omega, by omega,
          ⟨reply, isReply, answersFirst⟩, relay, isRelay, answersSecond⟩
  · rintro ⟨a, b, afterFirst, ordered, early, ⟨reply, isReply, answersFirst⟩,
      relay, isRelay, answersSecond⟩
    obtain ⟨write, isWrite, writeId⟩ := firstCalled
    obtain ⟨replyMem, replyId⟩ := answers_iff.mp answersFirst
    obtain ⟨relayMem, relayId⟩ := answers_iff.mp answersSecond
    have one : Recorded calls first.call a :=
      ⟨afterFirst, _, _, isWrite, isReply, .inr ⟨_, congrArg some writeId, replyId⟩⟩
    have two : Recorded calls a b := ⟨ordered, _, _, isReply, isRelay, .inl ⟨replyMem, relayMem⟩⟩
    have three : Recorded calls b second.call :=
      ⟨early, _, _, isRelay, isRead, .inr ⟨_, relayId, congrArg some readId⟩⟩
    exact ((Relation.TransGen.single one).tail two).tail three

/-- One access comes before another one of a different cache in every
consistent order exactly if there are answers of the memory between them. -/
theorem precedes_iff (firstCalled : CalledBy calls first)
    (secondCalled : CalledBy calls second) (differ : first.id ≠ second.id) :
    (∀ time, Consistent calls time → time first.call < time second.call) ↔
      AnsweredBetween calls first second := by
  rw [← chain_iff firstCalled secondCalled differ]
  apply forall_schedule_lt_iff
  · intro a b recorded
    exact recorded.1
  · obtain ⟨event, isEvent, -⟩ := secondCalled
    exact (List.getElem?_eq_some_iff.mp isEvent).1
  · intro same
    obtain ⟨write, isWrite, writeId⟩ := firstCalled
    obtain ⟨read, isRead, readId⟩ := secondCalled
    rw [same, isRead] at isWrite
    cases isWrite
    exact differ (writeId.symm.trans readId)

end

/-- The read may have happened before the modification, although the reading
cache was answered later: the memory has answered it since each answer to the
modifying cache before the modification, but not since one after it. -/
structure Overlaps (calls : List PluginCall) (modifier : Byte) (m : Nat) (reader : Byte)
    (r : Nat) : Prop where
  since : ∀ p < m, AnsweredAt calls p modifier → ∃ b, p < b ∧ b < r ∧ AnsweredAt calls b reader
  open_ : ∀ a b, m < a → a < b → b < r → AnsweredAt calls a modifier → ¬ AnsweredAt calls b reader

/-- The index that an answer of the memory to a cache has. -/
def PluginCall.answerIndex : PluginCall → Option Nat
  | .mem ⟨index, some _⟩ => some index
  | _ => none

/-- The answers of the memory come in the order of their indices. -/
def WellOrdered (calls : List PluginCall) : Prop :=
  (∀ call ∈ calls, call.answerIndex ≠ some 0) ∧
    calls.Pairwise fun first second =>
      ∀ i ∈ first.answerIndex, ∀ j ∈ second.answerIndex, i < j

instance (calls : List PluginCall) : Decidable (WellOrdered calls) :=
  inferInstanceAs (Decidable (_ ∧ _))

/-- The order is that of the last answer to the cache. -/
def Stamped (calls : List PluginCall) (id : Byte) (order : Nat) : Prop :=
  (∀ index, .mem ⟨index, some id⟩ ∈ calls → index ≤ order) ∧
    (order = 0 ∨ .mem ⟨order, some id⟩ ∈ calls)

/-- The access is a call for its cache of one of the types that touches the
byte, and has the order of the last answer before it. -/
def Made (calls : List PluginCall) (types : List EventType) (addr : Word) (access : Access) :
    Prop :=
  Stamped (calls.take access.call) access.id access.preOrder ∧
    ∃ event, calls[access.call]? = some (.cache event) ∧ event.devid = access.id ∧
      event.type ∈ types ∧ addr ∈ event.bytes

/-- What the automaton is given: a modification is at the last answer before it. -/
structure Given (calls : List PluginCall) (addr : Word) (access : Access)
    (event : CoherenceEvent) : Prop where
  modifies : event = .modifyAck →
    Made calls [.ackModify] addr access ∧ access.posOrder = access.preOrder
  reads : event = .readAck ∨ event = .readReq → Made calls [.ackRead, .read] addr access

section

variable {data : MemData} {counters : Counters} {access : Access} {event : CoherenceEvent}
  {after : MemData × Counters}

/-- The modifier is kept until another modification takes its place. -/
theorem Outcome.modifier (outcome : Outcome data counters access event (some after))
    (state : after.1.state = .modify) :
    event = .modifyAck ∧ after.1.modifier = access ∨
      data.state = .modify ∧ after.1.modifier = data.modifier := by
  generalize isResult : some after = result at outcome
  cases outcome with
  | untouched | past | acknowledged | read | refilled =>
    cases isResult
    exact .inr ⟨state, rfl⟩
  | modified =>
    cases isResult
    exact .inl ⟨rfl, rfl⟩
  | written | undefined =>
    cases isResult
    cases state
  | warned count =>
    unfold warnOnce at isResult
    split at isResult <;> cases isResult <;> exact .inr ⟨state, rfl⟩
  | readModified | outdated =>
    obtain ⟨-, isAfter⟩ := ite_none_left_eq_some.mp isResult.symm
    cases isAfter
    cases state

/-- A read after a modification is counted only if the modifier was not answered
after the reader. -/
theorem Outcome.counted (outcome : Outcome data counters access event (some after))
    (counted : readCounted counters after.2 = true) :
    data.state = .modify ∧ (event = .readAck ∨ event = .readReq) ∧
      data.modifier.posOrder ≤ access.preOrder := by
  generalize isResult : some after = result at outcome
  cases outcome with
  | untouched | past | acknowledged | read | refilled | modified | written | undefined =>
    cases isResult
    simp [readCounted] at counted
  | warned count =>
    unfold warnOnce at isResult
    split at isResult <;> cases isResult <;> simp [readCounted] at counted
  | readModified count state reads ordered =>
    exact ⟨state, reads.imp And.left id, ordered⟩
  | outdated reader count state uses untrusted counts others =>
    obtain ⟨-, isAfter⟩ := ite_none_left_eq_some.mp isResult.symm
    cases isAfter
    simp [readCounted, others] at counted

end

section

variable {calls : List PluginCall} {oracle after : Oracle} {access modifier reader : Access}

theorem Made.append (made : Made calls types addr access)
    (more : List PluginCall) : Made (calls ++ more) types addr access := by
  obtain ⟨stamped, event, isEvent, rest⟩ := made
  have bound := (List.getElem?_eq_some_iff.mp isEvent).1
  refine ⟨?_, event, ?_, rest⟩
  · rwa [take_append_of_le_length (Nat.le_of_lt bound)]
  · rwa [List.getElem?_append_left bound]

theorem Made.calledBy (made : Made calls types addr access) : CalledBy calls access := by
  obtain ⟨-, event, isEvent, same, -⟩ := made
  exact ⟨event, isEvent, same⟩

theorem WellOrdered.le_of_index {a b i j : Nat} {id : Byte} (wellOrdered : WellOrdered calls)
    (first : calls[a]? = some (PluginCall.mem ⟨i, some id⟩))
    (second : calls[b]? = some (PluginCall.mem ⟨j, some other⟩)) (ordered : i ≤ j) : a ≤ b := by
  by_contra later
  obtain ⟨aBound, isFirst⟩ := List.getElem?_eq_some_iff.mp first
  obtain ⟨bBound, isSecond⟩ := List.getElem?_eq_some_iff.mp second
  have smaller := pairwise_iff_getElem.mp wellOrdered.2 b a bBound aBound (by omega)
  rw [isFirst, isSecond] at smaller
  have less : j < i := smaller j rfl i rfl
  omega

/-- If the order of the modification is not larger, the reader has been answered
since every answer to the modifier. -/
theorem WellOrdered.since (wellOrdered : WellOrdered calls) (differ : modifier.id ≠ reader.id)
    (first : Stamped (calls.take modifier.call) modifier.id modifier.preOrder)
    (second : Stamped (calls.take reader.call) reader.id reader.preOrder)
    (ordered : modifier.preOrder ≤ reader.preOrder) :
    ∀ p < modifier.call, AnsweredAt calls p modifier.id →
      ∃ b, p < b ∧ b < reader.call ∧ AnsweredAt calls b reader.id := by
  rintro p early ⟨answer, isAnswer, index, rfl⟩
  have positive : index ≠ 0 := fun zero =>
    wellOrdered.1 _ (mem_of_getElem? isAnswer) (congrArg some zero)
  have below : index ≤ modifier.preOrder := by
    refine first.1 index (mem_of_getElem? (i := p) ?_)
    rwa [List.getElem?_take_of_lt early]
  rcases second.2 with zero | member
  · omega
  · obtain ⟨b, found⟩ := mem_iff_getElem?.mp member
    rw [List.getElem?_take] at found
    split at found
    · next late =>
        have upTo := wellOrdered.le_of_index isAnswer found (by omega)
        have apart : p ≠ b := by
          rintro rfl
          simp only [isAnswer, some.injEq, PluginCall.mem.injEq, MemEvent.mk.injEq] at found
          exact differ found.2
        exact ⟨b, by omega, late, _, found, _, rfl⟩
    · cases found

/-- What the automaton keeps and reports is what it was given. -/
structure Remembered (calls : List PluginCall) (oracle : Oracle) : Prop where
  modifier : ∀ addr, (oracle.mem addr).state = .modify →
    Given calls addr (oracle.mem addr).modifier .modifyAck
  reports : ∀ report ∈ oracle.reports, report.1.preOrder ≤ report.2.preOrder ∧
    ∃ addr, Made calls [.ackModify] addr report.1 ∧ Made calls [.ackRead, .read] addr report.2

theorem Remembered.coherence (remembered : Remembered calls oracle)
    (given : Given calls addr access event)
    (result : dfaCoherence oracle addr access event = some after) :
    Remembered calls after := by
  obtain ⟨⟨data, counters⟩, stepped, rfl⟩ := map_eq_some_iff.mp result
  have outcome := @watsonDfaWriteback_outcome (oracle.mem addr) oracle.counters access event
  rw [stepped] at outcome
  constructor
  · intro other state
    dsimp only at state ⊢
    rw [update_apply] at state ⊢
    split at state
    · next same =>
        rw [if_pos same, same]
        rcases outcome.modifier state with ⟨rfl, isAccess⟩ | ⟨before, isModifier⟩
        · rw [isAccess]
          exact given
        · rw [isModifier]
          exact remembered.modifier addr before
    · next differ =>
        rw [if_neg differ]
        exact remembered.modifier other state
  · intro report member
    dsimp only at member
    split at member
    · next isCounted =>
        rcases mem_append.mp member with before | new
        · exact remembered.reports report before
        · rw [mem_singleton.mp new]
          obtain ⟨state, reads, ordered⟩ := outcome.counted isCounted
          obtain ⟨modifies, same⟩ := (remembered.modifier addr state).modifies rfl
          exact ⟨same ▸ ordered, addr, modifies, given.reads reads⟩
    · exact remembered.reports report member

theorem Remembered.foldlM {addr : α → Word} {access : α → Access}
    {event : α → CoherenceEvent} {list : List α}
    (remembered : Remembered calls oracle) (result : list.foldlM
      (fun oracle x => dfaCoherence oracle (addr x) (access x) (event x))
      oracle = some after) (given : ∀ x ∈ list, Given calls (addr x) (access x) (event x)) :
    Remembered calls after := by
  refine Runs.foldlM_keeps (Remembered calls) ?_ remembered result
  exact fun member kept first => kept.coherence (given _ member) first

theorem Given.append (given : Given calls addr access event) (more : List PluginCall) :
    Given (calls ++ more) addr access event where
  modifies isModify := ⟨(given.modifies isModify).1.append more, (given.modifies isModify).2⟩
  reads isRead := (given.reads isRead).append more

theorem Remembered.append (remembered : Remembered calls oracle)
    (more : List PluginCall) : Remembered (calls ++ more) oracle where
  modifier addr state := (remembered.modifier addr state).append more
  reports report member := by
    obtain ⟨ordered, addr, modifies, reads⟩ := remembered.reports report member
    exact ⟨ordered, addr, modifies.append more, reads.append more⟩

/-- Every order and every access that the plugin keeps comes from the trace. -/
structure Sourced (calls : List PluginCall) (oracle : Oracle) : Prop where
  counted : oracle.calls = calls.length
  sysOrder : oracle.sysOrder = 0 ∨ ∃ call ∈ calls, call.answerIndex = some oracle.sysOrder
  orders : ∀ id cache, oracle.comp id = some cache → Stamped calls id cache.gOrder
  pending : ∀ id, ∀ read ∈ oracle.pend id, Made calls [.ackRead, .read] read.1 read.2
  remembered : Remembered calls oracle

theorem Stamped.append {id : Byte} (stamped : Stamped calls id order)
    (silent : ¬ call.Answers id) : Stamped (calls ++ [call]) id order := by
  refine ⟨fun index member => ?_, stamped.2.imp_right (mem_append_left _)⟩
  rcases mem_append.mp member with before | last
  · exact stamped.1 index before
  · exact absurd ⟨index, (mem_singleton.mp last).symm⟩ silent

theorem WellOrdered.stamped {id : Byte}
    (wellOrdered : WellOrdered (calls ++ [.mem ⟨index, some id⟩])) :
    Stamped (calls ++ [.mem ⟨index, some id⟩]) id index := by
  refine ⟨fun earlier member => ?_, .inr (mem_append_right _ mem_cons_self)⟩
  rcases mem_append.mp member with before | last
  · have less := (pairwise_append.mp wellOrdered.2).2.2 _ before _ mem_cons_self
    exact Nat.le_of_lt (less earlier rfl index rfl)
  · cases mem_singleton.mp last
    exact Nat.le_refl _

section

variable (sourced : Sourced calls oracle)

include sourced

theorem Sourced.made
    (found : oracle.comp event.devid = some cache) (call : access.call = calls.length)
    (id : access.id = event.devid) (order : access.preOrder = cache.gOrder)
    (type : event.type ∈ types) (touched : addr ∈ event.bytes) :
    Made (calls ++ [.cache event]) types addr access := by
  refine ⟨?_, event, ?_, id.symm, type, touched⟩
  · rw [call, take_left, id, order]
    exact sourced.orders event.devid cache found
  · rw [call]
    simp

theorem Sourced.coherenceLoop (modifies : ∀ addr, kind addr = .modifyAck → event.type = .ackModify)
    (reads : ∀ addr, kind addr = .readAck ∨ kind addr = .readReq → event.type = .read)
    (result : coherenceLoop oracle event kind = some after) :
    Remembered (calls ++ [.cache event]) after := by
  obtain ⟨access, isAccess, loop⟩ := bind_eq_some_iff.mp result
  obtain ⟨cache, found, rfl⟩ := map_eq_some_iff.mp isAccess
  refine (sourced.remembered.append _).foldlM loop fun addr touched => ⟨fun isModify => ?_,
    fun isRead => ?_⟩
  · refine ⟨sourced.made found sourced.counted rfl rfl ?_ touched, rfl⟩
    rw [modifies addr isModify]
    exact mem_cons_self
  · refine sourced.made found sourced.counted rfl rfl ?_ touched
    rw [reads addr isRead]
    decide

theorem Sourced.execCache (executed : watsonPgExecCache oracle event = some after) :
    (∀ id, ∀ read ∈ after.pend id,
        Made (calls ++ [.cache event]) [.ackRead, .read] read.1 read.2) ∧
      Remembered (calls ++ [.cache event]) after := by
  have remembered := sourced.remembered.append [.cache event]
  by_cases isRead : event.type = .ackRead
  · obtain ⟨-, mem, reports, cache, queued⟩ := execCache_queued isRead executed
    constructor
    · intro id read member
      rw [queued.pend, mem_append] at member
      rcases member with before | added
      · exact (sourced.pending id read before).append _
      · split at added
        · obtain ⟨addr, touched, rfl⟩ := mem_map.mp added
          refine sourced.made queued.found sourced.counted rfl rfl ?_ touched
          rw [isRead]
          exact mem_cons_self
        · cases added
    · constructor
      · rw [mem]
        exact remembered.modifier
      · rw [reports]
        exact remembered.reports
  · constructor
    · intro id read member
      unfold Oracle.pend at member
      rw [(execCache_other isRead executed).1] at member
      exact (sourced.pending id read member).append _
    · cases type : event.type with
      | ackRead => exact absurd type isRead
      | ackModify =>
        simp only [watsonPgExecCache, type] at executed
        exact sourced.coherenceLoop (fun _ _ => type) (by simp) executed
      | read =>
        simp only [watsonPgExecCache, type] at executed
        refine sourced.coherenceLoop (fun addr isModify => ?_) (fun _ _ => type) executed
        unfold CacheEvent.readKind at isModify
        split at isModify
        · cases isModify
        · split at isModify <;> cases isModify
      | write =>
        simp only [watsonPgExecCache, type] at executed
        exact sourced.coherenceLoop (by simp) (by simp) executed
      | _ =>
        simp only [watsonPgExecCache, type, some.injEq] at executed
        subst executed
        exact remembered

theorem Sourced.execMem (executed : watsonPgExecMem oracle event = some after) :
    (∀ id, ∀ read ∈ after.pend id,
        Made (calls ++ [.mem event]) [.ackRead, .read] read.1 read.2) ∧
      Remembered (calls ++ [.mem event]) after := by
  have remembered := sourced.remembered.append [.mem event]
  have pending : ∀ id, ∀ read ∈ oracle.pend id,
      Made (calls ++ [.mem event]) [.ackRead, .read] read.1 read.2 := fun id read member =>
    (sourced.pending id read member).append _
  cases answers : event.cache with
  | none =>
    simp only [watsonPgExecMem, answers, some.injEq] at executed
    subst executed
    exact ⟨pending, remembered⟩
  | some id =>
    obtain ⟨-, -, cache, answered⟩ := execMem_answered answers executed
    constructor
    · intro other read member
      rw [answered.pend] at member
      split at member
      · cases member
      · exact pending other read member
    · simp only [watsonPgExecMem, answers, watsonCacheGOrder] at executed
      obtain ⟨found, isFound, rest⟩ := bind_eq_some_iff.mp executed
      obtain ⟨middle, loop, rfl⟩ := map_eq_some_iff.mp rest
      have queue : oracle.pend id = found.pendRead := by
        unfold Oracle.pend
        rw [isFound]
        rfl
      have start : Remembered (calls ++ [.mem event])
          { oracle with
            sysOrder := if oracle.sysOrder < event.index then event.index else oracle.sysOrder } :=
        ⟨remembered.modifier, remembered.reports⟩
      have last := start.foldlM loop fun read member =>
        ⟨by rintro ⟨⟩, fun _ => pending id read (queue ▸ member)⟩
      exact ⟨last.modifier, last.reports⟩

theorem Sourced.answerOrder {id : Byte}
    (wellOrdered : WellOrdered (calls ++ [.mem ⟨index, some id⟩])) :
    max oracle.sysOrder index = index := by
  rcases sourced.sysOrder with zero | ⟨call, member, isIndex⟩
  · omega
  · have less := (pairwise_append.mp wellOrdered.2).2.2 _ member _ mem_cons_self
    exact Nat.max_eq_right (Nat.le_of_lt (less _ isIndex index rfl))

theorem Sourced.step (wellOrdered : WellOrdered (calls ++ [call]))
    (stepped : pluginStep oracle call = some after) : Sourced (calls ++ [call]) after := by
  obtain ⟨counted, cases⟩ := pluginStep_cases stepped
  obtain ⟨middle, executed, isAfter⟩ := map_eq_some_iff.mp stepped
  have kept : (∀ id, ∀ read ∈ middle.pend id,
      Made (calls ++ [call]) [.ackRead, .read] read.1 read.2) ∧
        Remembered (calls ++ [call]) middle := by
    cases call with
    | cache event => exact sourced.execCache executed
    | mem event => exact sourced.execMem executed
  have ordersKept : (after.sysOrder = 0 ∨
        ∃ other ∈ calls ++ [call], other.answerIndex = some after.sysOrder) ∧
      ∀ id cache, after.comp id = some cache → Stamped (calls ++ [call]) id cache.gOrder := by
    have before : oracle.sysOrder = 0 ∨
        ∃ other ∈ calls ++ [call], other.answerIndex = some oracle.sysOrder :=
      sourced.sysOrder.imp id fun ⟨other, member, isIndex⟩ =>
        ⟨other, mem_append_left _ member, isIndex⟩
    rcases cases with ⟨event, cache, rfl, -, queued⟩ | ⟨index, id, cache, rfl, answered⟩ |
      ⟨-, -, silent, comp, sysOrder, -⟩
    · refine ⟨queued.order ▸ before, fun id found isFound => ?_⟩
      have stamped : Stamped calls id found.gOrder := by
        rw [queued.comp, update_apply] at isFound
        split at isFound
        · next same =>
            cases isFound
            exact same ▸ sourced.orders event.devid cache queued.found
        · exact sourced.orders id found isFound
      exact stamped.append (by rintro ⟨index, same⟩; cases same)
    · have order : after.sysOrder = index := by
        have executed : watsonPgExecMem oracle ⟨index, some id⟩ = some middle := executed
        rw [← isAfter, (execMem_answered rfl executed).2.1]
        exact sourced.answerOrder wellOrdered
      refine ⟨.inr ⟨_, mem_append_right _ mem_cons_self, congrArg some order.symm⟩,
        fun other found isFound => ?_⟩
      rw [answered.comp, update_apply] at isFound
      split at isFound
      · next same =>
          cases isFound
          rw [order, same]
          exact wellOrdered.stamped
      · next differ =>
          refine (sourced.orders other found isFound).append ?_
          rintro ⟨_, same⟩
          cases same
          exact differ rfl
    · refine ⟨sysOrder ▸ before, fun id cache found => ?_⟩
      exact (sourced.orders id cache (comp ▸ found)).append (silent id)
  refine ⟨?_, ordersKept.1, ordersKept.2, ?_, ?_⟩
  · rw [counted, sourced.counted, length_append]
    rfl
  · rw [← isAfter]
    exact kept.1
  · rw [← isAfter]
    exact ⟨kept.2.modifier, kept.2.reports⟩

theorem Sourced.run (wellOrdered : WellOrdered (calls ++ more))
    (ran : more.foldlM pluginStep oracle = some after) : Sourced (calls ++ more) after := by
  induction more generalizing calls oracle with
  | nil =>
    cases ran
    rwa [append_nil]
  | cons call more ih =>
    rw [foldlM_cons] at ran
    obtain ⟨middle, first, rest⟩ := bind_eq_some_iff.mp ran
    rw [append_cons] at wellOrdered ⊢
    refine ih (sourced.step ?_ first) wellOrdered rest
    exact ⟨fun other member => wellOrdered.1 other (mem_append_left _ member),
      (pairwise_append.mp wellOrdered.2).1⟩

end

theorem Announced.sourced (announced : Announced oracle) : Sourced [] oracle := by
  refine ⟨announced.calls, .inl announced.sysOrder, ?_, ?_, ?_, ?_⟩
  · intro id cache found
    rw [announced.caches id cache found]
    exact ⟨nofun, .inl rfl⟩
  · intro id read member
    unfold Oracle.pend at member
    cases found : oracle.comp id with
    | none =>
      rw [found] at member
      cases member
    | some cache =>
      rw [found, announced.caches id cache found] at member
      cases member
  · intro addr state
    rw [announced.mem addr] at state
    cases state
  · intro report member
    rw [announced.reports] at member
    cases member

end

/-- No cache reads a byte while another one may still modify it. -/
def Separated (calls : List PluginCall) : Prop :=
  ∀ (m r : Nat) (modification read : CacheEvent), calls[m]? = some (.cache modification) →
    calls[r]? = some (.cache read) → modification.type = .ackModify →
    read.type = .ackRead ∨ read.type = .read →
    (∃ addr ∈ modification.bytes, addr ∈ read.bytes) → modification.devid ≠ read.devid →
    ¬ Overlaps calls modification.devid m read.devid r

/-- A modification that is reported to come before a read of another cache does
so in every consistent order exactly if the two do not overlap, and in a trace
without overlapping accesses every report is right. -/
theorem report_order_iff {components : List (Option (Byte × CompType))}
    {calls : List PluginCall} {last : Oracle} (ran : watsonRun components calls = some last)
    (wellOrdered : WellOrdered calls) :
    (∀ report ∈ last.reports, report.1.id ≠ report.2.id →
      ((∀ time, Consistent calls time → time report.1.call < time report.2.call) ↔
        ¬ Overlaps calls report.1.id report.1.call report.2.id report.2.call)) ∧
    (Separated calls → ∀ report ∈ last.reports, report.1.id ≠ report.2.id →
      ∀ time, Consistent calls time → time report.1.call < time report.2.call) := by
  obtain ⟨first, announced, called⟩ := watsonRun_cases ran
  have sourced : Sourced calls last := announced.sourced.run wellOrdered called
  have exactly : ∀ report ∈ last.reports, report.1.id ≠ report.2.id →
      ((∀ time, Consistent calls time → time report.1.call < time report.2.call) ↔
        ¬ Overlaps calls report.1.id report.1.call report.2.id report.2.call) := by
    intro report reported differ
    obtain ⟨ordered, addr, modifies, reads⟩ := sourced.remembered.reports report reported
    rw [precedes_iff modifies.calledBy reads.calledBy differ]
    constructor
    · rintro ⟨a, b, afterFirst, before, early, first, second⟩ overlaps
      exact overlaps.open_ a b afterFirst before early first second
    · intro apart
      by_contra unanswered
      refine apart ⟨wellOrdered.since differ modifies.1 reads.1 ordered, ?_⟩
      intro a b afterFirst before early first second
      exact unanswered ⟨a, b, afterFirst, before, early, first, second⟩
  refine ⟨exactly, fun separated report reported differ => ?_⟩
  obtain ⟨-, addr, modifies, reads⟩ := sourced.remembered.reports report reported
  apply (exactly report reported differ).mpr
  obtain ⟨-, modification, isModification, modifier, isModify, touched⟩ := modifies
  obtain ⟨-, read, isRead, reader, reads, same⟩ := reads
  rw [← modifier, ← reader] at differ ⊢
  exact separated _ _ modification read isModification isRead (by simpa using isModify)
    (by simpa using reads) ⟨addr, touched, same⟩ differ

/-- The modification is acknowledged before the read. -/
def orderedReport : List PluginCall :=
  [.mem ⟨1, some 1⟩, byteEvent .ackModify 1, .mem ⟨2, some 1⟩,
    .mem ⟨3, some 2⟩, byteEvent .ackRead 2, .mem ⟨4, some 2⟩]

theorem orderedReport_separated : Separated orderedReport := by
  intro m r modification read isModification isRead modifies reads _ differ overlaps
  have isFirst : m = 1 := by
    rcases m with _ | _ | _ | _ | _ | _ | m <;> cases isModification <;> first | rfl | cases modifies
  have isSecond : r = 4 := by
    rcases r with _ | _ | _ | _ | _ | _ | r <;> cases isRead <;> first | rfl | simp at reads
  subst isFirst isSecond
  cases isModification
  cases isRead
  exact overlaps.open_ 2 3 (by decide) (by decide) (by decide) ⟨_, rfl, 2, rfl⟩ ⟨_, rfl, 3, rfl⟩

theorem report_order_iff_ordered :
    ∃ last, watsonRun twoCaches orderedReport = some last ∧
      (⟨1, 1, 1, 1⟩, ⟨2, 3, 4, 4⟩) ∈ last.reports ∧
      ∀ time, Consistent orderedReport time → time 1 < time 4 := by
  obtain ⟨last, ran, reports⟩ : ∃ last,
      watsonRun twoCaches orderedReport = some last ∧ (⟨1, 1, 1, 1⟩, ⟨2, 3, 4, 4⟩) ∈ last.reports :=
    ⟨_, rfl, by decide +kernel⟩
  have right := (report_order_iff ran (by decide)).2 orderedReport_separated _ reports
  exact ⟨last, ran, reports, right (by decide)⟩

/-- The memory answers the second cache after the first one, and only then the
first cache modifies the byte that the second one reads. -/
def earlyReport : List PluginCall :=
  [.mem ⟨1, some 1⟩, .mem ⟨2, some 2⟩, byteEvent .ackModify 1,
    byteEvent .ackRead 2, .mem ⟨3, some 2⟩]

/-- A read that may have happened before the modification is reported. -/
theorem unordered_report :
    ∃ last, watsonRun twoCaches earlyReport = some last ∧
      last.counters.problem.modReadAck = 1 ∧
      (⟨1, 1, 1, 2⟩, ⟨2, 2, 3, 3⟩) ∈ last.reports ∧
      ∃ time, Consistent earlyReport time ∧ time 3 < time 2 := by
  refine ⟨_, rfl, rfl, by decide +kernel,
    fun k => if k = 2 then 3 else if k = 3 then 2 else k, ⟨?_, ?_⟩, by decide⟩
  · decide
  · rintro a b bound ⟨before, first, second, isFirst, isSecond, related⟩
    -- Only the modification and the read change places.
    have differ : ¬ (a = 2 ∧ b = 3) := by
      rintro ⟨rfl, rfl⟩
      cases isFirst
      cases isSecond
      rcases related with ⟨isMem, -⟩ | ⟨id, firstId, secondId⟩
      · cases isMem
      · cases firstId
        exact absurd secondId (by decide)
    grind

end Reverse.Watson
