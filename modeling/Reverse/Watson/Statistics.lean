import Mathlib.Data.Set.Card
import Reverse.Watson.Plugin

/-!
# The statistics of Watson

The counters are incremented at many places of the automaton.  A call for one
byte either leaves them as they are, or it puts the byte into the state
`STATE_PROBLEM` and counts it once, or it marks the byte with `warn_addr` and
counts it once.  A byte leaves neither, so the totals are numbers of bytes.
-/

namespace Reverse.Watson

open Function Option

/-- What is counted when a byte passes from one state to another. -/
inductive Tally : MemData × Counters → MemData × Counters → Prop where
  | quiet {data after counters}
      (problem : after.state = .problem ↔ data.state = .problem)
      (warned : after.warnAddr = data.warnAddr) :
      Tally (data, counters) (after, counters)
  | undefined {data after counters}
      (fresh : data.state ≠ .problem) (problem : after.state = .problem)
      (warned : after.warnAddr = data.warnAddr) :
      Tally (data, counters)
        (after, { counters with undefined := counters.undefined + 1 })
  | problem {data after counters} {counted : Problem}
      (fresh : data.state ≠ .problem) (problem : after.state = .problem)
      (warned : after.warnAddr = data.warnAddr)
      (total : counted.total = counters.problem.total + 1)
      (kinds : counted.kinds = counters.problem.kinds + 1) :
      Tally (data, counters) (after, { counters with problem := counted })
  | warning {data after counters} {counted : Warning}
      (fresh : data.warnAddr = false) (warned : after.warnAddr = true)
      (problem : after.state = .problem ↔ data.state = .problem)
      (total : counted.total = counters.warning.total + 1)
      (kinds : counted.kinds = counters.warning.kinds + 1) :
      Tally (data, counters) (after, { counters with warning := counted })

theorem Outcome.tally (outcome : Outcome data counters access event (some after)) :
    Tally (data, counters) after := by
  generalize isResult : some after = result at outcome
  cases outcome with
  | untouched | past | acknowledged | read | refilled =>
    cases isResult
    exact .quiet Iff.rfl rfl
  | modified reader fresh =>
    cases isResult
    exact .quiet ⟨nofun, fun problem => absurd problem fresh⟩ rfl
  | written trusted =>
    cases isResult
    refine .quiet ⟨nofun, fun problem => ?_⟩ rfl
    rcases trusted with ⟨state, -⟩ | ⟨state, -⟩ <;> cases state.symm.trans problem
  | warned count state other counts =>
    unfold warnOnce at isResult
    split at isResult
    · next fresh =>
        cases isResult
        exact .warning fresh rfl Iff.rfl (counts _).1 (counts _).2
    · cases isResult
      exact .quiet Iff.rfl rfl
  | undefined reader active =>
    cases isResult
    refine .undefined (fun problem => ?_) rfl rfl
    rcases active with state | state <;> cases state.symm.trans problem
  | readModified count state reads ordered counts
  | outdated reader count state uses untrusted counts =>
    obtain ⟨-, isAfter⟩ := ite_none_left_eq_some.mp isResult.symm
    cases isAfter
    refine .problem (fun problem => ?_) rfl rfl (counts _).1 (counts _).2
    cases state.symm.trans problem

def marked (mark : MemData → Prop) (mem : Word → MemData) : Set Word :=
  { addr | mark (mem addr) }

section

variable {mark : MemData → Prop} {mem : Word → MemData} {addr : Word} {data : MemData}

theorem marked_same (same : mark data ↔ mark (mem addr)) :
    marked mark (update mem addr data) = marked mark mem := by
  apply Set.ext
  intro other
  change mark (update mem addr data other) ↔ mark (mem other)
  by_cases isAddr : other = addr
  · subst isAddr
    rw [update_self]
    exact same
  · rw [update_of_ne isAddr]

theorem marked_fresh (fresh : ¬ mark (mem addr)) (marks : mark data) :
    (marked mark (update mem addr data)).ncard = (marked mark mem).ncard + 1 := by
  have inserted : marked mark (update mem addr data) = insert addr (marked mark mem) := by
    apply Set.ext
    intro other
    change mark (update mem addr data other) ↔ other = addr ∨ mark (mem other)
    by_cases isAddr : other = addr
    · subst isAddr
      rw [update_self]
      exact iff_of_true marks (.inl rfl)
    · rw [update_of_ne isAddr]
      exact (or_iff_right isAddr).symm
  have finite : Finite Word := Finite.of_injective BitVec.toFin
    fun left right same => BitVec.eq_of_toFin_eq same
  have outside : addr ∉ marked mark mem := fresh
  rw [inserted, Set.ncard_insert_of_notMem outside (Set.toFinite _)]

end

/-- The bytes in `STATE_PROBLEM`. -/
def Oracle.problems (oracle : Oracle) : Set Word :=
  marked (·.state = .problem) oracle.mem

/-- The bytes marked with `warn_addr`. -/
def Oracle.warned (oracle : Oracle) : Set Word :=
  marked (·.warnAddr = true) oracle.mem

/-- The totals are numbers of bytes and sums over the kinds. -/
structure Accounted (oracle : Oracle) : Prop where
  problems : oracle.counters.problem.total + oracle.counters.undefined =
    oracle.problems.ncard
  kinds : oracle.counters.problem.total =
    oracle.counters.problem.modReadAck + oracle.counters.problem.modReadReq +
      oracle.counters.problem.writeReadAck + oracle.counters.problem.writeFlush
  warnings : oracle.counters.warning.total =
    oracle.counters.warning.modReadAlloc + oracle.counters.warning.modWrite
  warned : oracle.counters.warning.total = oracle.warned.ncard

theorem consistent_init : Accounted watsonPgInit where
  problems := by
    have none : watsonPgInit.problems = ∅ := by
      simp [Oracle.problems, marked, watsonPgInit, MemData.zero]
    rw [none, Set.ncard_empty]
    rfl
  kinds := rfl
  warnings := rfl
  warned := by
    have none : watsonPgInit.warned = ∅ := by
      simp [Oracle.warned, marked, watsonPgInit, MemData.zero]
    rw [none, Set.ncard_empty]
    rfl

theorem Accounted.coherence (consistent : Accounted oracle)
    (step : dfaCoherence oracle addr access event = some after) :
    Accounted after := by
  obtain ⟨⟨data, counters⟩, stepped, rfl⟩ := map_eq_some_iff.mp step
  obtain ⟨problems, kinds, warnings, warned⟩ := consistent
  have sameWarned : data.warnAddr = (oracle.mem addr).warnAddr →
      marked (·.warnAddr = true) (update oracle.mem addr data) =
        oracle.warned :=
    fun same => marked_same (by rw [same])
  have newProblem : (oracle.mem addr).state ≠ .problem →
      data.state = .problem →
      (marked (·.state = .problem)
        (update oracle.mem addr data)).ncard =
        oracle.problems.ncard + 1 :=
    fun fresh problem => marked_fresh fresh problem
  have outcome := @watsonDfaWriteback_outcome (oracle.mem addr) oracle.counters access event
  rw [stepped] at outcome
  cases outcome.tally with
  | quiet problem same =>
    refine ⟨?_, kinds, warnings, ?_⟩
    · rw [problems]
      exact congrArg Set.ncard (marked_same problem).symm
    · rw [warned]
      exact congrArg Set.ncard (sameWarned same).symm
  | undefined fresh problem same =>
    refine ⟨?_, kinds, warnings, ?_⟩
    · refine Eq.trans ?_ (newProblem fresh problem).symm
      rw [← problems]
      rfl
    · rw [warned]
      exact congrArg Set.ncard (sameWarned same).symm
  | problem fresh problem same total counted =>
    refine ⟨?_, ?_, warnings, ?_⟩
    · refine Eq.trans ?_ (newProblem fresh problem).symm
      rw [← problems]
      dsimp only
      omega
    · unfold Problem.kinds at counted
      dsimp only
      omega
    · rw [warned]
      exact congrArg Set.ncard (sameWarned same).symm
  | warning fresh marks problem total counted =>
    have newWarned : (marked (·.warnAddr = true)
        (update oracle.mem addr data)).ncard = oracle.warned.ncard + 1 :=
      marked_fresh (by rw [fresh]; nofun) marks
    refine ⟨?_, kinds, ?_, ?_⟩
    · rw [problems]
      exact congrArg Set.ncard (marked_same problem).symm
    · unfold Warning.kinds at counted
      dsimp only
      omega
    · refine Eq.trans ?_ newWarned.symm
      rw [← warned]
      exact total

/-- The automaton is given a sequence of events on any addresses. -/
def coherenceRun (calls : List (Word × Call)) : Option Oracle :=
  calls.foldlM
    (fun oracle call =>
      dfaCoherence oracle call.1 call.2.access call.2.event)
    watsonPgInit

/-- The counters have 32 bits.  None of them has wrapped as long as one byte is
not in `STATE_PROBLEM` and one is not marked with `warn_addr`. -/
theorem Accounted.fit (consistent : Accounted oracle)
    (notProblem : (oracle.mem calm).state ≠ .problem)
    (notWarned : (oracle.mem plain).warnAddr = false) :
    oracle.counters.problem.total + oracle.counters.undefined < 2 ^ 32 ∧
      oracle.counters.warning.total < 2 ^ 32 := by
  have toFin : Function.Injective (BitVec.toFin : Word → Fin (2 ^ 32)) :=
    fun left right same => BitVec.eq_of_toFin_eq same
  have finite : Finite Word := Finite.of_injective _ toFin
  have words : Nat.card Word ≤ 2 ^ 32 := by
    have bound := Nat.card_le_card_of_injective _ toFin
    rwa [Nat.card_fin] at bound
  have below : ∀ {bytes : Set Word} {addr : Word}, addr ∉ bytes → bytes.ncard < 2 ^ 32 := by
    intro bytes addr outside
    have proper : bytes ≠ Set.univ := fun all =>
      outside (all ▸ Set.mem_univ addr)
    exact Nat.lt_of_lt_of_le (Set.ncard_lt_card proper) words
  have outside : plain ∉ oracle.warned := by
    intro warned
    change (oracle.mem plain).warnAddr = true at warned
    rw [notWarned] at warned
    cases warned
  rw [consistent.problems, consistent.warned]
  exact ⟨below (show calm ∉ oracle.problems from notProblem), below outside⟩

/-- The statistics are consistent after every sequence of events. -/
theorem statistics_consistent {calls : List (Word × Call)} {oracle : Oracle}
    (run : coherenceRun calls = some oracle) : Accounted oracle :=
  Runs.foldlM_keeps Accounted (fun _ kept next => kept.coherence next) consistent_init run

/-- A byte is modified by one cache and then read by another one. -/
def staleRead : List (Word × Call) :=
  [(8, ⟨.modifyAck, ⟨1, 3, 3, 0⟩⟩), (8, ⟨.readReq, ⟨2, 4, 4, 1⟩⟩)]

theorem statistics_consistent_stale_read :
    ∃ oracle, coherenceRun staleRead = some oracle ∧
      oracle.counters.problem.total = 1 ∧ Accounted oracle := by
  obtain ⟨oracle, run, total⟩ : ∃ oracle,
      coherenceRun staleRead = some oracle ∧ oracle.counters.problem.total = 1 := ⟨_, rfl, rfl⟩
  exact ⟨oracle, run, total, statistics_consistent run⟩

theorem Accounted.congr (consistent : Accounted oracle)
    (counters : after.counters = oracle.counters)
    (mem : after.mem = oracle.mem) : Accounted after := by
  obtain ⟨problems, kinds, warnings, warned⟩ := consistent
  refine ⟨?_, ?_, ?_, ?_⟩
  · rw [counters, problems, Oracle.problems, Oracle.problems, mem]
  · rw [counters, kinds]
  · rw [counters, warnings]
  · rw [counters, warned, Oracle.warned, Oracle.warned, mem]

section

variable {oracle after : Oracle}

section

variable (consistent : Accounted oracle)

include consistent

theorem Accounted.comp (step : watsonPgComp oracle component = some after) : Accounted after := by
  cases component with
  | none =>
    cases step
    exact consistent.congr rfl rfl
  | some component =>
    obtain ⟨-, result⟩ := ite_none_left_eq_some.mp step
    cases result
    exact consistent.congr rfl rfl

theorem Accounted.pending (step : watsonPendingReadAck oracle event addr = some after) :
    Accounted after := by
  obtain ⟨cache, -, rest⟩ := bind_eq_some_iff.mp step
  obtain ⟨-, rest⟩ := ite_none_left_eq_some.mp rest
  obtain ⟨reader, -, rfl⟩ := map_eq_some_iff.mp rest
  exact consistent.congr rfl rfl

theorem Accounted.coherenceLoop (step : Watson.coherenceLoop oracle event kind = some after) :
    Accounted after := by
  obtain ⟨access, -, loop⟩ := bind_eq_some_iff.mp step
  exact Runs.foldlM_keeps Accounted (fun _ kept next => kept.coherence next) consistent loop

theorem Accounted.cacheGOrder {id : Byte} (step : watsonCacheGOrder oracle id order = some after) :
    Accounted after := by
  obtain ⟨cache, -, rest⟩ := bind_eq_some_iff.mp step
  obtain ⟨middle, loop, rfl⟩ := map_eq_some_iff.mp rest
  have looped := Runs.foldlM_keeps Accounted (fun _ kept next => kept.coherence next)
    consistent loop
  exact looped.congr rfl rfl

theorem Accounted.execCache (step : watsonPgExecCache oracle event = some after) :
    Accounted after := by
  unfold watsonPgExecCache at step
  split at step
  · exact Runs.foldlM_keeps Accounted (fun _ kept next => kept.pending next) consistent step
  · exact consistent.coherenceLoop step
  · exact consistent.coherenceLoop step
  · exact consistent.coherenceLoop step
  · cases step
    exact consistent

theorem Accounted.execMem (step : watsonPgExecMem oracle event = some after) : Accounted after := by
  unfold watsonPgExecMem at step
  split at step
  · cases step
    exact consistent
  · refine Accounted.cacheGOrder ?_ step
    exact consistent.congr rfl rfl

theorem Accounted.step (step : pluginStep oracle call = some after) : Accounted after := by
  obtain ⟨middle, executed, rfl⟩ := map_eq_some_iff.mp step
  have kept : Accounted middle := by
    cases call with
    | cache event => exact consistent.execCache executed
    | mem event => exact consistent.execMem executed
  exact kept.congr rfl rfl

end

end

/-- The statistics that the plugin prints at its end are consistent. -/
theorem watsonRun_consistent {calls : List PluginCall} {oracle : Oracle}
    (run : watsonRun components calls = some oracle) : Accounted oracle := by
  obtain ⟨announced, comps, rest⟩ := bind_eq_some_iff.mp run
  obtain ⟨last, called, exited⟩ := bind_eq_some_iff.mp rest
  rw [watsonPgExit_eq] at exited
  cases exited
  have start : Accounted announced :=
    Runs.foldlM_keeps Accounted (fun _ kept next => kept.comp next) consistent_init comps
  exact Runs.foldlM_keeps Accounted (fun _ kept next => kept.step next) start called

/-- A cache refills a byte that another one has modified, and a third one
allocates a modified byte. -/
theorem watsonRun_consistent_read :
    let calls : List PluginCall := [.cache ⟨.ackModify, 0, 8, 1, 8, 1, false⟩,
      .cache ⟨.read, 1, 8, 0, 8, 0, false⟩, .cache ⟨.read, 2, 9, 0, 9, 0, true⟩]
    ∃ oracle, watsonRun [some (0, .cache), some (1, .cache), some (2, .cache)] calls = some oracle ∧
      oracle.counters.problem.modReadReq = 1 ∧ oracle.counters.warning.modReadAlloc = 1 ∧
      Accounted oracle := by
  intro calls
  obtain ⟨oracle, run, problems, warnings⟩ : ∃ oracle,
      watsonRun [some (0, .cache), some (1, .cache), some (2, .cache)] calls = some oracle ∧
        oracle.counters.problem.modReadReq = 1 ∧ oracle.counters.warning.modReadAlloc = 1 :=
    ⟨_, rfl, rfl, rfl⟩
  exact ⟨oracle, run, problems, warnings, watsonRun_consistent run⟩

end Reverse.Watson
