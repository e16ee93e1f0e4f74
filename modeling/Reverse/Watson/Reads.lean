import Reverse.Watson.Plugin

/-!
# The reads that the automaton is given

A read is queued when the cache acknowledges it and taken out of the queue when
the memory next answers the same cache.  The loop at the exit of the plugin,
which should empty the queues, is never entered.  So the automaton is given
every read exactly if the memory answers every cache after its last read.
-/

namespace Reverse.Watson

open Function
open List hiding after
open Option hiding map_map

/-- A byte that was read: its address, the cache and the number of the call. -/
abbrev ReadKey := Word × Byte × Nat

def readKey (read : Word × Access) : ReadKey :=
  (read.1, read.2.id, read.2.call)

def PluginCall.reads (n : Nat) : PluginCall → List ReadKey
  | .cache event =>
    if event.type = .ackRead then
      event.bytes.map fun addr => (addr, event.devid, n)
    else []
  | .mem _ => []

/-- The reads that `watson_pg_exec_cache` queues. -/
def queuedReads (calls : List PluginCall) : List ReadKey :=
  (calls.mapIdx fun n call => call.reads n).flatten

theorem queuedReads_append (calls : List PluginCall) (call : PluginCall) :
    queuedReads (calls ++ [call]) = queuedReads calls ++ call.reads calls.length := by
  simp [queuedReads, mapIdx_append]

/-- The memory answers the cache. -/
def PluginCall.Answers (id : Byte) (call : PluginCall) : Prop :=
  ∃ index, call = .mem ⟨index, some id⟩

/-- A read of the cache is not followed by an answer of the memory. -/
def Waits (calls : List PluginCall) (id : Byte) : Prop :=
  ∃ before event after, calls = before ++ .cache event :: after ∧
    event.type = .ackRead ∧ event.devid = id ∧
    ∀ call ∈ after, ¬ call.Answers id

/-- Every read is followed by an answer of the memory to the same cache. -/
def Followed (calls : List PluginCall) : Prop :=
  ∀ before event after, calls = before ++ .cache event :: after →
    event.type = .ackRead → ∃ call ∈ after, call.Answers event.devid

theorem followed_iff : Followed calls ↔ ∀ id, ¬ Waits calls id := by
  constructor
  · rintro followed id ⟨before, event, after, split, isRead, rfl, silent⟩
    obtain ⟨call, member, answers⟩ := followed before event after split isRead
    exact silent call member answers
  · intro none before event after split isRead
    by_contra silent
    refine none event.devid ⟨before, event, after, split, isRead, rfl, ?_⟩
    intro call member answers
    exact silent ⟨call, member, answers⟩

/-- The reads of a call wait. -/
def PluginCall.ReadBy (id : Byte) (call : PluginCall) : Prop :=
  ∃ event, call = .cache event ∧ event.type = .ackRead ∧ event.devid = id

theorem waits_append {id : Byte} :
    Waits (calls ++ [call]) id ↔ call.ReadBy id ∨ Waits calls id ∧ ¬ call.Answers id := by
  constructor
  · rintro ⟨before, event, after, split, isRead, same, silent⟩
    rcases eq_nil_or_concat' after with rfl | ⟨after, last, rfl⟩
    · left
      obtain ⟨-, isLast⟩ := append_inj' split rfl
      cases isLast
      exact ⟨event, rfl, isRead, same⟩
    · right
      rw [← cons_append, ← append_assoc] at split
      obtain ⟨rfl, isLast⟩ := append_inj' split rfl
      cases isLast
      refine ⟨⟨before, event, after, rfl, isRead, same, ?_⟩, ?_⟩
      · intro other member
        exact silent other (mem_append_left _ member)
      · exact silent call (mem_append_right _ mem_cons_self)
  · rintro (⟨event, rfl, isRead, same⟩ | ⟨waits, silent⟩)
    · exact ⟨calls, event, [], rfl, isRead, same, by simp⟩
    · obtain ⟨before, event, after, rfl, isRead, same, quiet⟩ := waits
      refine ⟨before, event, after ++ [call], by simp, isRead, same, ?_⟩
      intro other member
      rcases mem_append.mp member with earlier | last
      · exact quiet other earlier
      · rw [mem_singleton.mp last]
        exact silent

theorem dfaCoherence_frame (result : dfaCoherence oracle addr access event = some after) :
    after.comp = oracle.comp ∧ after.sysOrder = oracle.sysOrder ∧
      after.calls = oracle.calls ∧
      after.given = oracle.given ++ (if event = .readAck then [(addr, access)] else []) := by
  obtain ⟨⟨data, counters⟩, -, rfl⟩ := map_eq_some_iff.mp result
  refine ⟨rfl, rfl, rfl, ?_⟩
  dsimp only
  split
  · rfl
  · rw [append_nil]

theorem foldlM_coherence_frame {addr : α → Word} {access : α → Access}
    {event : α → CoherenceEvent} {list : List α} (result : list.foldlM
      (fun oracle x => dfaCoherence oracle (addr x) (access x) (event x))
      oracle = some after) :
    after.comp = oracle.comp ∧ after.sysOrder = oracle.sysOrder ∧
      after.calls = oracle.calls ∧
      after.given = oracle.given ++ list.flatMap fun x =>
        if event x = .readAck then [(addr x, access x)] else [] := by
  induction list generalizing oracle with
  | nil =>
    cases result
    simp
  | cons x list ih =>
    rw [foldlM_cons] at result
    obtain ⟨middle, first, rest⟩ := bind_eq_some_iff.mp result
    obtain ⟨comp, sysOrder, calls, given⟩ := dfaCoherence_frame first
    obtain ⟨comp', sysOrder', calls', given'⟩ := ih rest
    refine ⟨comp'.trans comp, sysOrder'.trans sysOrder, calls'.trans calls, ?_⟩
    rw [given', given, flatMap_cons, append_assoc]

theorem coherenceLoop_frame (other : ∀ addr, kind addr ≠ .readAck)
    (result : coherenceLoop oracle event kind = some after) :
    after.comp = oracle.comp ∧ after.sysOrder = oracle.sysOrder ∧
      after.calls = oracle.calls ∧ after.given = oracle.given := by
  obtain ⟨access, -, loop⟩ := bind_eq_some_iff.mp result
  obtain ⟨comp, sysOrder, calls, given⟩ := foldlM_coherence_frame loop
  refine ⟨comp, sysOrder, calls, ?_⟩
  have silent : event.bytes.flatMap (fun addr =>
      if kind addr = .readAck then
        [(addr, { access with posOrder := access.preOrder })]
      else []) = [] :=
    flatMap_eq_nil_iff.mpr fun addr _ => if_neg (other addr)
  rw [given, silent, append_nil]

theorem foldlM_pending {list : List Word}
    (found : oracle.comp event.devid = some cache) (result : list.foldlM
      (fun oracle addr => watsonPendingReadAck oracle event addr) oracle =
        some after) :
    after = { oracle with
      comp := update oracle.comp event.devid (some { cache with
        pendRead := cache.pendRead ++ list.map fun addr =>
          (addr, ⟨event.devid, cache.gOrder, 0, oracle.calls⟩) }) } := by
  induction list generalizing oracle cache with
  | nil =>
    cases result
    simp [← found]
  | cons addr list ih =>
    rw [foldlM_cons] at result
    obtain ⟨middle, first, rest⟩ := bind_eq_some_iff.mp result
    simp only [watsonPendingReadAck, watsonEventToAccess, found,
      bind_some, map_some, ite_none_left_eq_some,
      some.injEq] at first
    obtain ⟨-, rfl⟩ := first
    have last := ih (update_self ..) rest
    rw [last]
    simp

def Oracle.pend (oracle : Oracle) (id : Byte) : List (Word × Access) :=
  (oracle.comp id).elim [] CacheData.pendRead

/-- The memory answers a cache: the queue is emptied. -/
structure Answered (oracle after : Oracle) (id : Byte) (cache : CacheData) :
    Prop where
  found : oracle.comp id = some cache
  order : oracle.sysOrder ≤ after.sysOrder
  comp : after.comp = update oracle.comp id
    (some ⟨after.sysOrder, []⟩)
  given : after.given = oracle.given ++ cache.pendRead.map fun read =>
    (read.1, { read.2 with posOrder := after.sysOrder })

theorem Answered.pend (step : Answered oracle after answered cache) (id : Byte) :
    after.pend id = if id = answered then [] else oracle.pend id := by
  unfold Oracle.pend
  rw [step.comp, update_apply]
  split
  · rfl
  · rfl

/-- A cache acknowledges a read, which is queued. -/
structure Queued (oracle after : Oracle) (event : CacheEvent)
    (cache : CacheData) : Prop where
  found : oracle.comp event.devid = some cache
  order : after.sysOrder = oracle.sysOrder
  comp : after.comp = update oracle.comp event.devid
    (some { cache with
      pendRead := cache.pendRead ++ event.bytes.map fun addr =>
        (addr, ⟨event.devid, cache.gOrder, 0, oracle.calls⟩) })
  given : after.given = oracle.given

theorem Queued.pend (queued : Queued oracle after event cache) (id : Byte) :
    after.pend id = oracle.pend id ++
      if id = event.devid then event.bytes.map fun addr =>
        (addr, ⟨event.devid, cache.gOrder, 0, oracle.calls⟩)
      else [] := by
  unfold Oracle.pend
  rw [queued.comp, update_apply]
  split
  · rename_i same
    rw [same, queued.found]
    rfl
  · rw [append_nil]

theorem execMem_answered {id : Byte} (answers : event.cache = some id)
    (result : watsonPgExecMem oracle event = some after) :
    after.calls = oracle.calls ∧ after.sysOrder = max oracle.sysOrder event.index ∧
      ∃ cache, Answered oracle after id cache := by
  simp only [watsonPgExecMem, answers, watsonCacheGOrder] at result
  obtain ⟨cache, found, rest⟩ := bind_eq_some_iff.mp result
  obtain ⟨middle, loop, rfl⟩ := map_eq_some_iff.mp rest
  obtain ⟨comp, sysOrder, calls, given⟩ := foldlM_coherence_frame loop
  refine ⟨calls, ?_, cache, found, ?_, ?_, ?_⟩
  · dsimp only at sysOrder ⊢
    rw [sysOrder]
    split <;> omega
  · dsimp only at sysOrder ⊢
    rw [sysOrder]
    split <;> omega
  · dsimp only at sysOrder ⊢
    rw [comp, sysOrder]
  · dsimp only at sysOrder ⊢
    rw [given, sysOrder]
    simp [← map_eq_flatMap]

theorem bytes_ne_nil (event : CacheEvent) : event.bytes ≠ [] := by
  simp [CacheEvent.bytes, CacheEvent.size]

theorem execCache_queued (isRead : event.type = .ackRead)
    (result : watsonPgExecCache oracle event = some after) :
    after.calls = oracle.calls ∧ after.mem = oracle.mem ∧
      after.reports = oracle.reports ∧
      ∃ cache, Queued oracle after event cache := by
  simp only [watsonPgExecCache, isRead] at result
  cases found : oracle.comp event.devid with
  | none =>
    obtain ⟨addr, rest, bytes⟩ := exists_cons_of_ne_nil (bytes_ne_nil event)
    rw [bytes, foldlM_cons] at result
    simp [watsonPendingReadAck, found] at result
  | some cache =>
    rw [foldlM_pending found result]
    exact ⟨rfl, rfl, rfl, cache, found, rfl, rfl, rfl⟩

theorem execCache_other (other : event.type ≠ .ackRead)
    (result : watsonPgExecCache oracle event = some after) :
    after.comp = oracle.comp ∧ after.sysOrder = oracle.sysOrder ∧
      after.calls = oracle.calls ∧ after.given = oracle.given := by
  have kind : ∀ addr, event.readKind addr ≠ .readAck := by
    intro addr
    unfold CacheEvent.readKind
    split
    · nofun
    · split <;> nofun
  cases type : event.type with
  | ackRead => exact absurd type other
  | ackModify =>
    simp only [watsonPgExecCache, type] at result
    exact coherenceLoop_frame (by simp) result
  | read =>
    simp only [watsonPgExecCache, type] at result
    exact coherenceLoop_frame kind result
  | write =>
    simp only [watsonPgExecCache, type] at result
    exact coherenceLoop_frame (by simp) result
  | _ =>
    simp only [watsonPgExecCache, type, some.injEq] at result
    subst result
    exact ⟨rfl, rfl, rfl, rfl⟩

theorem pluginStep_cases (result : pluginStep oracle call = some after) :
    after.calls = oracle.calls + 1 ∧
      ((∃ event cache, call = .cache event ∧ event.type = .ackRead ∧
          Queued oracle after event cache) ∨
        (∃ index id cache, call = .mem ⟨index, some id⟩ ∧ Answered oracle after id cache) ∨
        (∀ n, call.reads n = []) ∧ (∀ id, ¬ call.ReadBy id) ∧
          (∀ id, ¬ call.Answers id) ∧ after.comp = oracle.comp ∧
          after.sysOrder = oracle.sysOrder ∧ after.given = oracle.given) := by
  obtain ⟨done, executed, rfl⟩ := map_eq_some_iff.mp result
  cases call with
  | cache event =>
    by_cases isRead : event.type = .ackRead
    · obtain ⟨calls, -, -, cache, queued⟩ := execCache_queued isRead executed
      refine ⟨congrArg Nat.succ calls, .inl ⟨event, cache, rfl, isRead, ?_⟩⟩
      exact ⟨queued.found, queued.order, queued.comp, queued.given⟩
    · obtain ⟨comp, sysOrder, calls, given⟩ := execCache_other isRead executed
      refine ⟨congrArg Nat.succ calls, .inr (.inr ⟨?_, ?_, ?_, comp, sysOrder, given⟩)⟩
      · intro n
        simp [PluginCall.reads, isRead]
      · rintro id ⟨other, same, isAck, -⟩
        cases same
        exact isRead isAck
      · rintro id ⟨index, same⟩
        cases same
  | mem event =>
    cases answers : event.cache with
    | none =>
      simp only [pluginExec, watsonPgExecMem, answers, some.injEq] at executed
      subst executed
      refine ⟨rfl, .inr (.inr ⟨fun _ => rfl, ?_, ?_, rfl, rfl, rfl⟩)⟩
      · rintro id ⟨other, same, -⟩
        cases same
      · rintro id ⟨index, same⟩
        cases same
        cases answers
    | some id =>
      obtain ⟨calls, -, cache, answered⟩ := execMem_answered answers executed
      refine ⟨congrArg Nat.succ calls, .inr (.inl ⟨event.index, id, cache, by rw [← answers], ?_⟩)⟩
      exact ⟨answered.found, answered.order, answered.comp, answered.given⟩

def ofCache (id : Byte) (keys : List ReadKey) : List ReadKey :=
  keys.filter fun key => key.2.1 = id

theorem ofCache_append (id : Byte) (left right : List ReadKey) :
    ofCache id (left ++ right) = ofCache id left ++ ofCache id right :=
  filter_append ..

theorem ofCache_eq {id : Byte} (same : ∀ key ∈ items, key.2.1 = other) :
    ofCache id items = if id = other then items else [] := by
  split
  · rename_i isOther
    apply filter_eq_self.mpr
    intro key member
    simp [same key member, isOther]
  · rename_i differ
    apply filter_eq_nil_iff.mpr
    intro key member
    simpa [same key member] using Ne.symm differ

/-- The reads of each cache are given to the automaton in the order in which
they were queued, and the rest of them waits. -/
structure Reading (calls : List PluginCall) (oracle : Oracle) : Prop where
  counted : oracle.calls = calls.length
  order : ∀ id cache, oracle.comp id = some cache →
    cache.gOrder ≤ oracle.sysOrder
  pending : ∀ id, ∀ read ∈ oracle.pend id,
    read.2.id = id ∧ read.2.preOrder ≤ oracle.sysOrder
  given : ∀ read ∈ oracle.given, read.2.preOrder ≤ read.2.posOrder
  kept : ∀ id, ofCache id (oracle.given.map readKey) ++
    (oracle.pend id).map readKey = ofCache id (queuedReads calls)
  waits : ∀ id, oracle.pend id ≠ [] ↔ Waits calls id

section

variable {calls : List PluginCall} {oracle after : Oracle}

section

variable (reading : Reading calls oracle)

include reading

theorem Reading.queued (counted : after.calls = oracle.calls + 1) (isRead : event.type = .ackRead)
    (queued : Queued oracle after event cache) :
    Reading (calls ++ [.cache event]) after := by
  have order := reading.order event.devid cache queued.found
  have pend := queued.pend
  constructor
  · rw [counted, reading.counted, length_append]
    rfl
  · intro id found isFound
    rw [queued.order]
    rw [queued.comp, update_apply] at isFound
    split at isFound
    · cases isFound
      exact order
    · exact reading.order id found isFound
  · intro id read member
    rw [queued.order]
    rw [pend, mem_append] at member
    rcases member with before | added
    · exact reading.pending id read before
    · split at added
      · rename_i same
        obtain ⟨addr, -, rfl⟩ := mem_map.mp added
        exact ⟨same.symm, order⟩
      · cases added
  · rw [queued.given]
    exact reading.given
  · intro id
    have keys : ∀ key ∈ (PluginCall.cache event).reads calls.length, key.2.1 = event.devid := by
      intro key member
      rw [PluginCall.reads, if_pos isRead] at member
      obtain ⟨addr, -, rfl⟩ := mem_map.mp member
      rfl
    rw [queued.given, pend, map_append, ← append_assoc,
      reading.kept, queuedReads_append, ofCache_append, ofCache_eq keys]
    congr 1
    split
    · simp [PluginCall.reads, isRead, readKey, reading.counted]
    · rfl
  · intro id
    rw [pend, waits_append, ← reading.waits, Ne, append_eq_nil_iff, not_and_or]
    have readBy : PluginCall.ReadBy id (.cache event) ↔ id = event.devid := by
      constructor
      · rintro ⟨other, same, -, isId⟩
        cases same
        exact isId.symm
      · intro same
        exact ⟨event, rfl, isRead, same.symm⟩
    have silent : ¬ PluginCall.Answers id (.cache event) := by
      rintro ⟨index, same⟩
      cases same
    rw [readBy]
    by_cases same : id = event.devid
    · simp [same, bytes_ne_nil]
    · simp [same, silent]

theorem Reading.answered {answered : Byte} (counted : after.calls = oracle.calls + 1)
    (step : Answered oracle after answered cache) :
    Reading (calls ++ [.mem ⟨index, some answered⟩]) after := by
  have pend := step.pend
  have queue : oracle.pend answered = cache.pendRead := by
    unfold Oracle.pend
    rw [step.found]
    rfl
  constructor
  · rw [counted, reading.counted, length_append]
    rfl
  · intro id found isFound
    rw [step.comp, update_apply] at isFound
    split at isFound
    · cases isFound
      exact Nat.le_refl _
    · exact Nat.le_trans (reading.order id found isFound) step.order
  · intro id read member
    rw [pend] at member
    split at member
    · cases member
    · obtain ⟨same, early⟩ := reading.pending id read member
      exact ⟨same, Nat.le_trans early step.order⟩
  · intro read member
    rw [step.given, mem_append] at member
    rcases member with before | added
    · exact reading.given read before
    · obtain ⟨queued, inQueue, rfl⟩ := mem_map.mp added
      rw [← queue] at inQueue
      exact Nat.le_trans (reading.pending answered queued inQueue).2 step.order
  · intro id
    have keys : ∀ key ∈ cache.pendRead.map readKey, key.2.1 = answered := by
      intro key member
      obtain ⟨read, inQueue, rfl⟩ := mem_map.mp member
      rw [← queue] at inQueue
      exact (reading.pending answered read inQueue).1
    have moved : (cache.pendRead.map fun read =>
        (read.1, { read.2 with posOrder := after.sysOrder })).map readKey =
          cache.pendRead.map readKey := by
      rw [map_map]
      rfl
    rw [step.given, map_append, moved, ofCache_append, ofCache_eq keys,
      pend, queuedReads_append, ofCache_append, ← reading.kept id]
    by_cases same : id = answered
    · rw [if_pos same, if_pos same, same, queue]
      simp [PluginCall.reads, ofCache]
    · rw [if_neg same, if_neg same]
      simp [PluginCall.reads, ofCache]
  · intro id
    rw [pend, waits_append, ← reading.waits]
    have readBy : ¬ PluginCall.ReadBy id (.mem ⟨index, some answered⟩) := by
      rintro ⟨other, same, -⟩
      cases same
    have answers : PluginCall.Answers id (.mem ⟨index, some answered⟩) ↔ id = answered := by
      constructor
      · rintro ⟨other, same⟩
        cases same
        rfl
      · rintro rfl
        exact ⟨index, rfl⟩
    rw [answers, or_iff_right readBy]
    by_cases same : id = answered
    · simp [same]
    · simp [same]

theorem Reading.step (stepped : pluginStep oracle call = some after) :
    Reading (calls ++ [call]) after := by
  obtain ⟨counted, cases⟩ := pluginStep_cases stepped
  rcases cases with ⟨event, cache, rfl, isRead, queued⟩ |
    ⟨index, id, cache, rfl, answered⟩ |
    ⟨noReads, notRead, silent, comp, sysOrder, given⟩
  · exact reading.queued counted isRead queued
  · exact reading.answered counted answered
  · have pend : after.pend = oracle.pend := by
      funext id
      unfold Oracle.pend
      rw [comp]
    constructor
    · rw [counted, reading.counted, length_append]
      rfl
    · rw [comp, sysOrder]
      exact reading.order
    · rw [pend, sysOrder]
      exact reading.pending
    · rw [given]
      exact reading.given
    · intro id
      rw [given, pend, queuedReads_append, noReads, append_nil]
      exact reading.kept id
    · intro id
      rw [pend, waits_append, ← reading.waits]
      simp [notRead id, silent id]

theorem Reading.run (ran : more.foldlM pluginStep oracle = some after) :
    Reading (calls ++ more) after :=
  Runs.foldlM_history Reading (fun _ kept first => kept.step first) reading ran

end

end

/-- The components have been announced and nothing has happened yet. -/
structure Announced (oracle : Oracle) : Prop where
  sysOrder : oracle.sysOrder = 0
  caches : ∀ id cache, oracle.comp id = some cache → cache = ⟨0, []⟩
  mem : ∀ addr, oracle.mem addr = .zero
  calls : oracle.calls = 0
  given : oracle.given = []
  reports : oracle.reports = []

theorem Announced.comp (announced : Announced oracle)
    (result : watsonPgComp oracle component = some after) :
    Announced after := by
  cases component with
  | none =>
    cases result
    exact ⟨announced.sysOrder, announced.caches, announced.mem,
      announced.calls, announced.given, announced.reports⟩
  | some component =>
    obtain ⟨id, type⟩ := component
    simp only [watsonPgComp, ite_none_left_eq_some, some.injEq] at result
    obtain ⟨-, rfl⟩ := result
    refine ⟨announced.sysOrder, ?_, announced.mem, announced.calls,
      announced.given, announced.reports⟩
    intro other cache found
    dsimp only at found
    rw [update_apply] at found
    split at found
    · cases type with
      | cache =>
        cases found
        rfl
      | _ => cases found
    · exact announced.caches other cache found

theorem announced_components {components : List (Option (Byte × CompType))}
    (ran : components.foldlM watsonPgComp watsonPgInit = some oracle) :
    Announced oracle := by
  refine Runs.foldlM_keeps Announced (fun _ kept first => kept.comp first) ?_ ran
  exact ⟨rfl, nofun, fun _ => rfl, rfl, rfl, rfl⟩

theorem watsonRun_cases (ran : watsonRun components calls = some last) :
    ∃ first, Announced first ∧ calls.foldlM pluginStep first = some last := by
  obtain ⟨first, announced, rest⟩ := bind_eq_some_iff.mp ran
  obtain ⟨final, called, exited⟩ := bind_eq_some_iff.mp rest
  rw [watsonPgExit_eq] at exited
  cases exited
  exact ⟨first, announced_components announced, called⟩

theorem Announced.reading (announced : Announced oracle) : Reading [] oracle := by
  have pend : ∀ id, oracle.pend id = [] := by
    intro id
    unfold Oracle.pend
    cases found : oracle.comp id with
    | none => rfl
    | some cache =>
      rw [announced.caches id cache found]
      rfl
  constructor
  · exact announced.calls
  · intro id cache found
    rw [announced.caches id cache found]
    exact Nat.zero_le _
  · simp [pend]
  · simp [announced.given]
  · simp [announced.given, pend, queuedReads, ofCache]
  · simp [pend, Waits]

/-- Every read is given to the automaton once by the end of the run exactly if
the memory answers every cache after its last read. -/
theorem reads_analysed_iff {components : List (Option (Byte × CompType))}
    {calls : List PluginCall} {last : Oracle} (ran : watsonRun components calls = some last) :
    (∀ read ∈ last.given, read.2.preOrder ≤ read.2.posOrder) ∧
      (last.given.map readKey).Subperm (queuedReads calls) ∧
      ((last.given.map readKey).Perm (queuedReads calls) ↔ Followed calls) := by
  obtain ⟨first, announced, called⟩ := watsonRun_cases ran
  have reading : Reading calls last := announced.reading.run called
  have count : ∀ key : ReadKey, (last.given.map readKey).count key +
      ((last.pend key.2.1).map readKey).count key = (queuedReads calls).count key := by
    intro key
    have kept := congrArg (List.count key) (reading.kept key.2.1)
    rw [count_append] at kept
    unfold ofCache at kept
    rwa [count_filter (by simp), count_filter (by simp)] at kept
  refine ⟨reading.given, ?_, ?_⟩
  · apply subperm_ext_iff.mpr
    intro key _
    have counted := count key
    omega
  · rw [followed_iff]
    constructor
    · intro permutation id waits
      apply (reading.waits id).mpr waits
      have same := permutation.filter fun key => key.2.1 = id
      have kept := congrArg List.length (reading.kept id)
      rw [length_append, length_map] at kept
      have lengths := same.length_eq
      unfold ofCache at kept
      exact length_eq_zero_iff.mp (by omega)
    · intro none
      apply perm_iff_count.mpr
      intro key
      have empty : last.pend key.2.1 = [] := by
        by_contra waiting
        exact none _ ((reading.waits key.2.1).mp waiting)
      have counted := count key
      rw [empty] at counted
      simpa using counted

/-- An access to one byte. -/
def byteEvent (type : EventType) (devid : Byte) : PluginCall :=
  .cache
    { type := type, devid := devid, addr := 0x100, width := 0
      cpureqAddr := 0x100, cpureqWidth := 0, str := false }

/-- A memory, which has to come first, and two caches. -/
def twoCaches : List (Option (Byte × CompType)) :=
  [some (0, .mem), some (1, .cache), some (2, .cache)]

/-- The plugin exits if the memory comes after another component. -/
example : watsonPgComp { watsonPgInit with nComp := 3 } (some (3, .mem)) = none := rfl

/-- Both caches read and are answered. -/
def answeredReads : List PluginCall :=
  [.mem ⟨1, some 1⟩, byteEvent .ackRead 1, byteEvent .ackRead 2, .mem ⟨2, some 2⟩, .mem ⟨3, some 1⟩]

theorem reads_analysed_iff_answered :
    ∃ last, watsonRun twoCaches answeredReads = some last ∧
      last.given.length = 2 ∧
      (∀ read ∈ last.given, read.2.preOrder ≤ read.2.posOrder) ∧
      (last.given.map readKey).Subperm (queuedReads answeredReads) ∧
      ((last.given.map readKey).Perm (queuedReads answeredReads) ↔ Followed answeredReads) := by
  obtain ⟨last, ran, given⟩ : ∃ last,
      watsonRun twoCaches answeredReads = some last ∧ last.given.length = 2 := ⟨_, rfl, rfl⟩
  exact ⟨last, ran, given, reads_analysed_iff ran⟩

/-- The last read of a cache is not analysed. -/
theorem read_not_analysed :
    ∃ last, watsonRun twoCaches [.mem ⟨1, some 1⟩, byteEvent .ackRead 1] = some last ∧
      last.given = [] ∧
      queuedReads [.mem ⟨1, some 1⟩, byteEvent .ackRead 1] = [(0x100, 1, 1)] ∧
      ∀ id cache, last.comp id = some cache → cache.pendRead.length ≤ maxPending := by
  refine ⟨_, rfl, rfl, rfl, ?_⟩
  decide +kernel

end Reverse.Watson
