import Reverse.Watson.Automaton

/-!
# What the automaton says about versions

The automaton sees no versions.  As long as it reports nothing, the caches that
it takes to have the latest version have it, so that no stale read is missed.
The converse fails when a cache writes back data that other caches have read
from the memory: the automaton forgets the others.
-/

namespace Reverse.Watson

open Function

theorem dfaRun_append (calls : List Call) (call : Call) :
    dfaRun (calls ++ [call]) = (dfaRun calls).bind (dfaStep · call) := by
  simp [dfaRun, List.foldlM_append]

theorem versionsOf_append (calls : List Call) (call : Call) :
    versionsOf (calls ++ [call]) = (versionsOf calls).step call := by
  simp [versionsOf]

theorem versionsOf_bounded (calls : List Call) : (versionsOf calls).Bounded := by
  induction calls using List.reverseRecOn with
  | nil => exact ⟨Nat.le_refl _, fun _ => Nat.le_refl _⟩
  | append_singleton calls call ih =>
    rw [versionsOf_append]
    exact ih.step call

theorem forall_split_iff {α : Type} {list : List α} {property : List α → α → Prop} :
    (∀ before x after, list = before ++ x :: after → property before x) ↔
      ∀ i : Fin list.length, property (list.take i) list[i] := by
  constructor
  · intro all i
    apply all _ _ (list.drop (i + 1))
    rw [Fin.getElem_fin, List.cons_getElem_drop_succ, List.take_append_drop]
  · rintro all before x after rfl
    have here := all ⟨before.length, by simp⟩
    simpa using here

/-- A cache that the automaton trusts has the latest version. -/
def Tracks (data : MemData) (versions : Versions) : Prop :=
  match data.state with
  | .init =>
    versions.memory = versions.latest ∧ ∀ id, versions.copy id = versions.latest
  | .modify =>
    versions.copy data.modifier.id = versions.latest ∧ versions.unwritten data.modifier.id = true
  | .writeback =>
    versions.memory = versions.latest ∧
      ∀ id : BitVec 8, id.toNat < 32 →
        inReaders data.bitmapReaders id = true →
        versions.copy id = versions.latest
  | .problem => True
  | .analyse => False

/-- A cache refills the byte only if it has written back what it modified. -/
def Call.Clean (versions : Versions) (call : Call) : Prop :=
  call.event = .readReq ∨ call.event = .allocReq → versions.unwritten call.access.id = false

instance (versions : Versions) (call : Call) : Decidable (call.Clean versions) :=
  inferInstanceAs (Decidable (_ ∨ _ → _))

/-- The step that a call makes leads to a state that tracks the versions, and
to a problem if it is a stale read. -/
def Catches (versions : Versions) (call : Call) (after : MemData × Counters) :
    Prop :=
  Tracks after.1 (versions.step call) ∧
    (after.1.state ≠ .problem → after.2.problem.total = 0) ∧
    (call.event = .readAck →
      versions.copy call.access.id ≠ versions.latest →
      after.1.state = .problem)

section

variable {data : MemData} {counters : Counters} {versions : Versions} {call : Call}
  {access : Access} {event : CoherenceEvent} {result : Option (MemData × Counters)}

theorem catches_problem (problem : after.1.state = .problem) : Catches versions call after :=
  ⟨by simp [Tracks, problem], fun other => absurd problem other,
    fun _ _ => problem⟩

theorem printProblem_catches (quiet : counters.problem.total = 0) (count : Problem → Problem) :
    ∃ after, printProblem data counters count = some after ∧ Catches versions call after := by
  unfold printProblem
  rw [quiet, if_neg (by decide)]
  exact ⟨_, rfl, catches_problem rfl⟩

theorem Tracks.trusted {id : BitVec 8} (tracks : Tracks data versions)
    (trusted : data.Trusts id) (small : id.toNat < 32) : versions.copy id = versions.latest := by
  rcases trusted with ⟨state, rfl⟩ | ⟨state, member⟩
  · simp only [Tracks, state] at tracks
    exact tracks.1
  · simp only [Tracks, state] at tracks
    exact tracks.2 id small member

theorem Tracks.untouched (tracks : Tracks data versions) (state : data.state = .init)
    (other : call.event ≠ .modifyAck) : Tracks data (versions.step call) := by
  simp only [Tracks, state] at tracks ⊢
  obtain ⟨memory, copies⟩ := tracks
  obtain ⟨event, access⟩ := call
  cases event with
  | modifyAck => exact absurd rfl other
  | writeReq => exact ⟨copies access.id, copies⟩
  | readReq | allocReq => simp [Versions.step, copies, memory, update_apply]
  | readAck | writeAck => exact ⟨memory, copies⟩

/-- A cache that refills gets the latest version from the memory. -/
theorem Tracks.refilled (tracks : Tracks data versions) (state : data.state = .writeback) :
    Tracks { data with
        reader := access
        bitmapReaders := data.bitmapReaders ||| readerBit access.id }
      (versions.step ⟨.readReq, access⟩) := by
  simp only [Tracks, state, Versions.step] at tracks ⊢
  refine ⟨tracks.1, fun id bound member => ?_⟩
  rw [update_apply]
  split
  · exact tracks.1
  · next other =>
      exact tracks.2 id bound (((inReaders_or bound).mp member).resolve_right other)

/-- One step keeps track of the versions and catches a stale read. -/
theorem Outcome.catches (outcome : Outcome data counters access event result)
    (tracks : Tracks data versions) (quiet : data.state ≠ .problem → counters.problem.total = 0)
    (small : access.id.toNat < 32) (clean : Call.Clean versions ⟨event, access⟩) :
    ∃ after, result = some after ∧ Catches versions ⟨event, access⟩ after := by
  cases outcome with
  | untouched state other =>
    refine ⟨_, rfl, tracks.untouched state other, quiet, fun _ stale => ?_⟩
    simp only [Tracks, state] at tracks
    exact absurd (tracks.2 access.id) stale
  | past state =>
    rcases state with problem | analyse
    · exact ⟨_, rfl, catches_problem problem⟩
    · simp [Tracks, analyse] at tracks
  | acknowledged active => exact ⟨_, rfl, tracks, quiet, by rintro ⟨⟩⟩
  | modified reader fresh =>
    refine ⟨_, rfl, ?_, fun _ => quiet fresh, by rintro ⟨⟩⟩
    simp [Tracks, MemData.modified, Versions.step]
  | read trusted =>
    exact ⟨_, rfl, tracks, quiet, fun _ stale => absurd (tracks.trusted trusted small) stale⟩
  | refilled state refills =>
    rcases refills with rfl | rfl
    · exact ⟨_, rfl, tracks.refilled state, quiet, by rintro ⟨⟩⟩
    · exact ⟨_, rfl, tracks.refilled state, quiet, by rintro ⟨⟩⟩
  | written trusted =>
    have latest := tracks.trusted trusted small
    have fresh : data.state ≠ .problem := by
      rcases trusted with ⟨state, -⟩ | ⟨state, -⟩ <;> rw [state] <;> rintro ⟨⟩
    refine ⟨_, rfl, ⟨latest, fun id bound only => ?_⟩, fun _ => quiet fresh, by rintro ⟨⟩⟩
    rw [(inReaders_single bound).mp only]
    exact latest
  | warned count state other counts =>
    -- The cache that refills or writes back is not the modifier.
    have kept (warned : Bool) :
        Tracks { data with warnAddr := warned } (versions.step ⟨event, access⟩) := by
      simp only [Tracks, state] at tracks ⊢
      rcases other with rfl | ⟨rfl, other⟩
      · have other : data.modifier.id ≠ access.id := by
          intro same
          rw [same, clean (.inr rfl)] at tracks
          cases tracks.2
        simp [Versions.step, tracks, other]
      · simp [Versions.step, tracks, other]
    have notRead : event ≠ .readAck := by
      rcases other with rfl | ⟨rfl, -⟩ <;> rintro ⟨⟩
    unfold warnOnce
    split
    · exact ⟨_, rfl, kept true, quiet, fun same => absurd same notRead⟩
    · exact ⟨_, rfl, kept data.warnAddr, quiet, fun same => absurd same notRead⟩
  | undefined reader active => exact ⟨_, rfl, catches_problem rfl⟩
  | readModified count state | outdated reader count state =>
    refine printProblem_catches (quiet ?_) count
    rw [state]
    rintro ⟨⟩

end

/-- In the events on a byte a cache that holds a modification writes it back
before it refills the byte. -/
def WritesBackFirst (calls : List Call) : Prop :=
  ∀ before call after, calls = before ++ call :: after → call.Clean (versionsOf before)

instance (calls : List Call) : Decidable (WritesBackFirst calls) :=
  decidable_of_iff' _ forall_split_iff

theorem dfaRun_tracks (small : ∀ call ∈ calls, call.access.id.toNat < 32)
    (first : WritesBackFirst calls) :
    ∃ after, dfaRun calls = some after ∧ Tracks after.1 (versionsOf calls) ∧
      (after.1.state ≠ .problem → after.2.problem.total = 0) := by
  induction calls using List.reverseRecOn with
  | nil => exact ⟨_, rfl, ⟨rfl, fun _ => rfl⟩, fun _ => rfl⟩
  | append_singleton calls call ih =>
    obtain ⟨state, ran, tracks, quiet⟩ := ih
      (fun earlier member => small earlier (List.mem_append_left _ member))
      (fun before earlier after split =>
        first before earlier (after ++ [call]) (by simp [split]))
    obtain ⟨after, stepped, later, counted, -⟩ := (watsonDfaWriteback_outcome call.event).catches
      tracks quiet (small call (by simp)) (first calls call [] rfl)
    refine ⟨after, ?_, ?_, counted⟩
    · rw [dfaRun_append, ran]
      exact stepped
    · rw [versionsOf_append]
      exact later

/-- Whenever a read returns another version than the latest one, the byte is
left in the state of a problem. -/
theorem stale_read_found {calls : List Call} {reader : Access}
    (small : ∀ call ∈ calls, call.access.id.toNat < 32)
    (smallReader : reader.id.toNat < 32) (first : WritesBackFirst calls)
    (stale : (versionsOf calls).copy reader.id ≠ (versionsOf calls).latest) :
    ∃ data counters,
      dfaRun (calls ++ [⟨.readAck, reader⟩]) = some (data, counters) ∧ data.state = .problem := by
  obtain ⟨state, ran, tracks, quiet⟩ := dfaRun_tracks small first
  obtain ⟨after, stepped, -, -, found⟩ :=
    (watsonDfaWriteback_outcome .readAck).catches tracks quiet smallReader nofun
  refine ⟨after.1, after.2, ?_, found rfl stale⟩
  rw [dfaRun_append, ran]
  exact stepped

def orderedCalls (script : List (CoherenceEvent × BitVec 8)) : List Call :=
  script.mapIdx fun order step =>
    ⟨step.1, ⟨step.2, order + 1, order + 1, order⟩⟩

/-- A cache reads a byte that another one has modified and written back. -/
theorem stale_read_found_written :
    ∃ data counters,
      dfaRun (orderedCalls [(.readReq, 2), (.modifyAck, 1), (.writeReq, 1)] ++
        [⟨.readAck, ⟨2, 4, 4, 3⟩⟩]) = some (data, counters) ∧
        data.state = .problem := by
  apply stale_read_found
  · decide
  · decide
  · decide
  · decide

/-- A cache reads, refills from or writes back a version that is not the
latest one. -/
def Call.Stale (versions : Versions) (call : Call) : Prop :=
  match call.event with
  | .readAck | .writeReq =>
    versions.copy call.access.id ≠ versions.latest
  | .readReq | .allocReq => versions.memory ≠ versions.latest
  | .modifyAck | .writeAck => False

instance (versions : Versions) : (call : Call) → Decidable (call.Stale versions)
  | ⟨.readAck, _⟩ | ⟨.writeReq, _⟩ | ⟨.readReq, _⟩ | ⟨.allocReq, _⟩ =>
    inferInstanceAs (Decidable (_ ≠ _))
  | ⟨.modifyAck, _⟩ | ⟨.writeAck, _⟩ => inferInstanceAs (Decidable False)

/-- A cache that writes back what has been written back is the only one that
the automaton trusts. -/
def Call.Alone (data : MemData) (call : Call) : Prop :=
  call.event = .writeReq → data.state = .writeback →
    inReaders data.bitmapReaders call.access.id = true →
    ∀ id : BitVec 8, id.toNat < 32 → inReaders data.bitmapReaders id = true → id = call.access.id

instance (data : MemData) (call : Call) : Decidable (call.Alone data) :=
  inferInstanceAs (Decidable (_ → _ → _ → ∀ _, _))

/-- A cache that the automaton does not trust does not have the latest
version. -/
def Exact (data : MemData) (versions : Versions) : Prop :=
  match data.state with
  | .modify =>
    versions.memory ≠ versions.latest ∧
      ∀ id, id ≠ data.modifier.id → versions.copy id ≠ versions.latest
  | .writeback =>
    ∀ id : BitVec 8, id.toNat < 32 →
      inReaders data.bitmapReaders id = false →
      versions.copy id ≠ versions.latest
  | .init | .problem | .analyse => True

/-- A call is stale, or no problem is counted and the trust stays exact. -/
def Justified (versions : Versions) (counters : Counters) (call : Call)
    (after : MemData × Counters) : Prop :=
  call.Stale versions ∨
    after.2.problem.total = counters.problem.total ∧ Exact after.1 (versions.step call)

section

variable {data : MemData} {counters : Counters} {versions : Versions} {access : Access}
  {event : CoherenceEvent}

/-- Only the caches that the automaton trusts can have the latest version. -/
theorem Exact.stale (exact : Exact data versions) (state : data.state = .modify)
    (other : data.modifier.id ≠ access.id) : versions.copy access.id ≠ versions.latest := by
  simp only [Exact, state] at exact
  exact exact.2 access.id other.symm

theorem modified_exact (bounded : versions.Bounded)
    (state : data.state = .modify) (modifier : data.modifier = access) :
    Exact data (versions.step ⟨.modifyAck, access⟩) := by
  have memory := bounded.memory
  simp only [Exact, state, Versions.step]
  refine ⟨by omega, fun id other => ?_⟩
  rw [modifier] at other
  rw [update_of_ne other]
  have copy := bounded.copy id
  omega

theorem Exact.refilled (exact : Exact data versions) (state : data.state = .writeback) :
    Exact { data with
        reader := access
        bitmapReaders := data.bitmapReaders ||| readerBit access.id }
      (versions.step ⟨.readReq, access⟩) := by
  simp only [Exact, state, Versions.step] at exact ⊢
  intro id bound outside
  rw [Bool.eq_false_iff, Ne, inReaders_or bound, not_or] at outside
  rw [update_of_ne outside.2]
  exact exact id bound (Bool.eq_false_iff.mpr outside.1)

theorem Exact.written (exact : Exact data versions) (trusted : data.Trusts access.id)
    (alone : Call.Alone data ⟨.writeReq, access⟩) :
    Exact (data.written access) (versions.step ⟨.writeReq, access⟩) := by
  intro id bound outside
  rw [MemData.written, Bool.eq_false_iff, Ne, inReaders_single bound] at outside
  rcases trusted with ⟨state, same⟩ | ⟨state, member⟩
  · simp only [Exact, state] at exact
    exact exact.2 id (same ▸ outside)
  · have others := alone rfl state member id bound
    simp only [Exact, state] at exact
    exact exact id bound (Bool.eq_false_iff.mpr fun trusted => outside (others trusted))

theorem Outcome.justified (outcome : Outcome data counters access event (some after))
    (bounded : versions.Bounded) (exact : Exact data versions) (small : access.id.toNat < 32)
    (alone : Call.Alone data ⟨event, access⟩) :
    Justified versions counters ⟨event, access⟩ after := by
  generalize isResult : some after = result at outcome
  cases outcome with
  | untouched state =>
    cases isResult
    exact .inr ⟨rfl, by simp [Exact, state]⟩
  | past state =>
    cases isResult
    refine .inr ⟨rfl, ?_⟩
    rcases state with state | state <;> simp [Exact, state]
  | acknowledged | read trusted =>
    cases isResult
    exact .inr ⟨rfl, exact⟩
  | modified reader fresh =>
    cases isResult
    exact .inr ⟨rfl, modified_exact bounded rfl rfl⟩
  | refilled state refills =>
    cases isResult
    rcases refills with rfl | rfl <;> exact .inr ⟨rfl, exact.refilled state⟩
  | written trusted =>
    cases isResult
    exact .inr ⟨rfl, exact.written trusted alone⟩
  | warned count state other =>
    rcases other with rfl | ⟨rfl, other⟩
    · simp only [Exact, state] at exact
      exact .inl exact.1
    · exact .inl (exact.stale state other)
  | undefined reader active =>
    cases isResult
    exact .inr ⟨rfl, trivial⟩
  | readModified count state reads =>
    rcases reads with ⟨rfl, other⟩ | rfl
    · exact .inl (exact.stale state other)
    · simp only [Exact, state] at exact
      exact .inl exact.1
  | outdated reader count state uses untrusted =>
    simp only [Exact, state] at exact
    rcases uses with rfl | rfl <;> exact .inl (exact access.id small untrusted)

end

/-- Some cache has read, refilled from or written back a version that was not
the latest one. -/
def SomeStale (calls : List Call) : Prop :=
  ∃ before call after, calls = before ++ call :: after ∧ call.Stale (versionsOf before)

/-- Whenever a cache writes back what has been written back, the automaton
trusts no other cache. -/
def WritesBackAlone (calls : List Call) : Prop :=
  ∀ before call after, calls = before ++ call :: after →
    ∀ state, dfaRun before = some state → call.Alone state.1

/-- A problem is counted only if some access was stale. -/
theorem problem_justified {calls : List Call} {data : MemData} {counters : Counters}
    (small : ∀ call ∈ calls, call.access.id.toNat < 32) (alone : WritesBackAlone calls)
    (ran : dfaRun calls = some (data, counters))
    (counted : counters.problem.total ≠ 0) : SomeStale calls := by
  suffices invariant : SomeStale calls ∨
      counters.problem.total = 0 ∧ Exact data (versionsOf calls) from
    invariant.resolve_right fun quiet => counted quiet.1
  clear counted
  induction calls using List.reverseRecOn generalizing data counters with
  | nil =>
    cases ran
    exact .inr ⟨rfl, trivial⟩
  | append_singleton calls call ih =>
    rw [dfaRun_append] at ran
    obtain ⟨state, earlier, stepped⟩ := Option.bind_eq_some_iff.mp ran
    have before := ih
      (fun other member => small other (List.mem_append_left _ member))
      (fun before other after split =>
        alone before other (after ++ [call]) (by simp [split])) earlier
    rcases before with ⟨before, other, after, split, stale⟩ | ⟨quiet, exact⟩
    · exact .inl ⟨before, other, after ++ [call], by simp [split], stale⟩
    · have outcome := @watsonDfaWriteback_outcome state.1 state.2 call.access call.event
      rw [show watsonDfaWriteback _ _ _ _ = _ from stepped] at outcome
      have step := outcome.justified (versionsOf_bounded calls) exact (small call (by simp))
        (alone calls call [] rfl state earlier)
      rcases step with stale | ⟨same, later⟩
      · exact .inl ⟨calls, call, [], rfl, stale⟩
      · right
        rw [versionsOf_append]
        exact ⟨same.trans quiet, later⟩

instance (calls : List Call) : Decidable (WritesBackAlone calls) :=
  decidable_of_iff' _ forall_split_iff

instance (calls : List Call) : Decidable (SomeStale calls) :=
  decidable_of_iff
    (¬ ∀ i : Fin calls.length, ¬ calls[i].Stale (versionsOf (calls.take i))) <| by
    rw [← @forall_split_iff _ calls fun before call =>
      ¬ call.Stale (versionsOf before)]
    simp [SomeStale]

/-- A cache reads a byte that another one has modified and written back. -/
theorem problem_justified_written :
    SomeStale (orderedCalls [(.modifyAck, 1), (.writeReq, 1), (.writeReq, 1), (.readAck, 2)]) := by
  apply problem_justified _ _ rfl
  · decide
  · decide
  · decide +kernel

/-- A cache reads its copy of a byte that it has refilled before the modifier
wrote it back again. -/
def forgottenReader : List Call :=
  orderedCalls [(.modifyAck, 1), (.writeReq, 1), (.readReq, 2), (.writeReq, 1), (.readAck, 2)]

theorem false_alarm :
    ¬ SomeStale forgottenReader ∧
      ∃ data counters, dfaRun forgottenReader = some (data, counters) ∧
        data.state = .problem ∧ counters.problem.writeReadAck = 1 ∧
        counters.problem.total = 1 :=
  ⟨by decide +kernel, _, _, rfl, rfl, rfl, rfl⟩

end Reverse.Watson
