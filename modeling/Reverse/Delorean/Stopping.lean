import Reverse.Delorean.Debugging

/-!
# Where the debugger gets control

`gdb_verify` moves the cursor until it calls `gdb_loop`.  The loop condition
only looks at the direction and at the end of the history; nothing stops a
reversal at the node before the first event.
-/

namespace Reverse.Delorean

open Sherlock Option

/-- Whether `gdb_verify` calls `gdb_loop` after a move. -/
def gdbStops (gdb : Gdb) : Seen → Bool
  | .cpu _ pc => gdbCondition gdb pc
  | .mem _ addr _ => gdb.watchpoints.any (Watch.hit · addr)
  | .periph => false

def Seen.isStore : Seen → Bool
  | .mem _ _ _ => true
  | _ => false

theorem gdbStop_of_stops (stops : gdbStops gdb seen = true) (script : Script) :
    gdbStop gdb script seen = gdbLoop gdb seen.isStore script := by
  cases seen with
  | cpu id pc => exact if_pos stops
  | mem id addr val => exact if_pos stops
  | periph => cases stops

theorem gdbStop_of_runs (runs : gdbStops gdb seen = false) (script : Script) :
    gdbStop gdb script seen = some (gdb, script) := by
  cases seen with
  | cpu id pc => exact if_neg (ne_true_of_eq_false runs)
  | mem id addr val => exact if_neg (ne_true_of_eq_false runs)
  | periph => rfl

/-- The rounds of `gdb_verify` up to its next call of `gdb_loop`. -/
inductive StopsAt (gdb : Gdb) (stopped : Oracle) (stopSeen : Seen) :
    Oracle → Seen → Prop where
  | now {oracle : Oracle} {seen : Seen}
      (moved : gdbMove oracle gdb seen = some (stopped, stopSeen))
      (stops : gdbStops gdb stopSeen = true) :
      StopsAt gdb stopped stopSeen oracle seen
  | later {oracle next : Oracle} {seen nextSeen : Seen}
      (moved : gdbMove oracle gdb seen = some (next, nextSeen))
      (runs : gdbStops gdb nextSeen = false)
      (again : gdbExecDirection gdb ∨ oracleGetTrace next = false)
      (rest : StopsAt gdb stopped stopSeen next nextSeen) :
      StopsAt gdb stopped stopSeen oracle seen

/-- The stop is the one of `gdb_verify`, whatever the debugger then sends. -/
theorem StopsAt.gdbVerify (stop : StopsAt gdb stopped stopSeen oracle seen) :
    ∃ rounds, ∀ fuel script,
      gdbVerify (fuel + 1 + rounds) oracle gdb script seen =
        match gdbLoop gdb stopSeen.isStore script with
        | none => .exited
        | some (next, rest) =>
          if gdbExecDirection next ∨ oracleGetTrace stopped = false then
            gdbVerify fuel stopped next rest stopSeen
          else .returned stopped next rest := by
  induction stop with
  | now moved stops =>
    refine ⟨0, fun fuel script => ?_⟩
    rw [Nat.add_zero, Delorean.gdbVerify, moved]
    have loop := gdbStop_of_stops stops script
    cases result : gdbLoop gdb stopSeen.isStore script with
    | none => simp only [loop, result]
    | some command => simp only [loop, result]
  | later moved runs again _ ih =>
    obtain ⟨rounds, verdict⟩ := ih
    refine ⟨rounds + 1, fun fuel script => ?_⟩
    rw [← verdict fuel script, ← Nat.add_assoc, Delorean.gdbVerify, moved]
    dsimp only
    rw [gdbStop_of_runs runs]
    exact if_pos again

/-- The states that recording at the tip and moving the cursor lead to. -/
inductive Visited (table : HashTable) (comps : List Comp) : Oracle → Prop where
  | start : Visited table comps (boot table comps)
  | record {oracle next : Oracle} {event : Event}
      (visited : Visited table comps oracle)
      (tip : oracleGetTrace oracle = true)
      (known : ∀ id inst, event = .inst id inst → .cpu id ∈ comps)
      (recorded : recordEvent oracle event = some next) :
      Visited table comps next
  | reverse {oracle next : Oracle} {seen : Seen}
      (visited : Visited table comps oracle)
      (reversed : oracleReverseExec oracle = some (next, seen)) :
      Visited table comps next
  | forward {oracle next : Oracle} {seen : Seen}
      (visited : Visited table comps oracle)
      (forwarded : oracleForwardExec oracle = some (next, seen)) :
      Visited table comps next

theorem oracleForwardExec_next (forwarded : oracleForwardExec oracle = some (next, seen)) :
    oracleGetTrace oracle = false := by
  unfold oracleForwardExec at forwarded
  unfold oracleGetTrace
  cases current : oracle.lastExec with
  | none => rfl
  | some last =>
    dsimp only
    cases follows : (oracle.nodes last).next with
    | none =>
      rw [current] at forwarded
      change (oracle.nodes last).next.bind _ = _ at forwarded
      rw [follows] at forwarded
      cases forwarded
    | some node => rfl

theorem Visited.cursor (start : Cursor (Announced comps) base first 0 0 (boot table comps))
    (visited : Visited table comps oracle) :
    ∃ count pos, Cursor (Announced comps) base first count pos oracle := by
  induction visited with
  | start => exact ⟨0, 0, start⟩
  | record _ tip known recorded ih =>
    obtain ⟨count, pos, cursor⟩ := ih
    obtain rfl := cursor.getTrace_iff.mp tip
    exact ⟨_, _, cursor.record known recorded⟩
  | reverse _ reversed ih =>
    obtain ⟨count, pos, cursor⟩ := ih
    cases pos with
    | zero => cases reversed.symm.trans cursor.reverse_base
    | succ pos =>
      obtain ⟨next, seen, result, before⟩ := cursor.reverse
      cases reversed.symm.trans result
      exact ⟨count, pos, before⟩
  | forward _ forwarded ih =>
    obtain ⟨count, pos, cursor⟩ := ih
    have notTip : pos ≠ count := fun same =>
      ne_true_of_eq_false (oracleForwardExec_next forwarded) (cursor.getTrace_iff.mpr same)
    obtain ⟨next, seen, result, after⟩ := cursor.forward (Nat.lt_of_le_of_ne cursor.inside notTip)
    cases forwarded.symm.trans result
    exact ⟨count, pos + 1, after⟩

theorem Visited.move (visited : Visited table comps oracle)
    (moved : gdbMove oracle gdb seen = some (next, nextSeen)) :
    Visited table comps next := by
  unfold gdbMove at moved
  split at moved
  · exact visited.reverse moved
  · split at moved
    · cases moved
      exact visited
    · exact visited.forward moved

/-- Every position at which `gdb_verify` stops is visited. -/
theorem Visited.stop (visited : Visited table comps oracle)
    (stop : StopsAt gdb stopped stopSeen oracle seen) :
    Visited table comps stopped := by
  induction stop with
  | now moved _ => exact visited.move moved
  | later moved _ _ _ ih => exact ih (visited.move moved)

theorem Visited.recordAll {events : List Event} (registered : comps ≠ [])
    (known : ∀ id inst, .inst id inst ∈ events → .cpu id ∈ comps)
    (recorded : events.foldlM recordEvent (boot table comps) = some tip) :
    Visited table comps tip := by
  obtain ⟨base, first, begins⟩ := boot_cursor table registered
  have reached : Visited table comps tip ∧
      ∃ count, Cursor (Announced comps) base first count count tip := by
    induction events using List.reverseRecOn generalizing tip with
    | nil =>
      cases recorded
      exact ⟨.start, 0, begins⟩
    | append_singleton events event ih =>
      rw [List.foldlM_append, bind_eq_bind, bind_eq_some_iff] at recorded
      obtain ⟨before, isBefore, last⟩ := recorded
      rw [List.foldlM_cons, bind_eq_bind, bind_eq_some_iff] at last
      obtain ⟨next, isNext, same⟩ := last
      cases same
      obtain ⟨visited, count, cursor⟩ := ih
        (fun id inst member => known id inst (List.mem_append_left _ member))
        isBefore
      have knownLast : ∀ id inst, event = .inst id inst → .cpu id ∈ comps := by
        rintro id inst rfl
        exact known id inst (List.mem_append_right _ (List.mem_singleton.mpr rfl))
      exact ⟨.record visited (cursor.getTrace_iff.mpr rfl) knownLast isNext,
        count + 1, cursor.record knownLast isNext⟩
  exact reached.1

theorem Visited.unregistered (visited : Visited table [] oracle) : oracle.lastExec = none := by
  induction visited with
  | start => rfl
  | record _ tip _ _ ih =>
    unfold oracleGetTrace at tip
    rw [ih] at tip
    cases tip
  | reverse _ reversed ih =>
    unfold oracleReverseExec at reversed
    rw [ih] at reversed
    cases reversed
  | forward _ forwarded ih =>
    unfold oracleForwardExec at forwarded
    rw [ih] at forwarded
    cases forwarded

/-- One reversal, whatever it tells the debugger. -/
def Reversal (oracle next : Oracle) : Prop :=
  ∃ seen, oracleReverseExec oracle = some (next, seen)

/-- No breakpoint and no watchpoint matches on the way back. -/
def Quiet (gdb : Gdb) (oracle : Oracle) : Prop :=
  ∀ earlier next seen, Relation.ReflTransGen Reversal oracle earlier →
    oracleReverseExec earlier = some (next, seen) → gdbStops gdb seen = false

theorem gdbMove_reverse (backward : gdbExecDirection gdb = true) (oracle : Oracle) (seen : Seen) :
    gdbMove oracle gdb seen = oracleReverseExec oracle :=
  if_pos backward

theorem Quiet.reversed (quiet : Quiet gdb oracle)
    (reversed : oracleReverseExec oracle = some (next, seen)) :
    Quiet gdb next :=
  fun earlier other otherSeen back =>
    quiet earlier other otherSeen (.head ⟨seen, reversed⟩ back)

/-- The debugger gets control on the way back exactly at a match. -/
theorem stopsAt_iff_not_quiet (backward : gdbExecDirection gdb = true)
    (oracle : Oracle) (seen : Seen) :
    (∃ stopped stopSeen, StopsAt gdb stopped stopSeen oracle seen) ↔ ¬ Quiet gdb oracle := by
  constructor
  · rintro ⟨stopped, stopSeen, stop⟩
    induction stop with
    | now moved stops =>
      intro quiet
      rw [gdbMove_reverse backward] at moved
      rw [quiet _ _ _ .refl moved] at stops
      cases stops
    | later moved _ _ _ ih =>
      intro quiet
      rw [gdbMove_reverse backward] at moved
      exact ih (quiet.reversed moved)
  · intro loud
    unfold Quiet at loud
    push Not at loud
    obtain ⟨earlier, next, nextSeen, back, reversed, stops⟩ := loud
    induction back using Relation.ReflTransGen.head_induction_on generalizing seen with
    | refl =>
      refine ⟨next, nextSeen, .now ?_ (Bool.eq_true_of_not_eq_false stops)⟩
      rw [gdbMove_reverse backward, reversed]
    | @head oracle middle step _ ih =>
      obtain ⟨middleSeen, moved⟩ := step
      rw [← gdbMove_reverse backward oracle seen] at moved
      cases first : gdbStops gdb middleSeen with
      | true => exact ⟨middle, middleSeen, .now moved first⟩
      | false =>
        obtain ⟨stopped, stopSeen, stop⟩ := ih middleSeen
        exact ⟨stopped, stopSeen, .later moved first (Or.inl backward) stop⟩

/-- Without a match the reversals reach the node before the first event and
fail there. -/
theorem Cursor.stuck (cursor : Cursor announced base first count pos oracle)
    (backward : gdbExecDirection gdb = true) (quiet : Quiet gdb oracle) :
    ∃ start, start.lastExec = some base ∧
      ∀ fuel script seen, pos < fuel →
        gdbVerify fuel oracle gdb script seen = .stuck start gdb := by
  induction pos generalizing oracle with
  | zero =>
    refine ⟨oracle, cursor.current, fun fuel script seen enough => ?_⟩
    cases fuel with
    | zero => cases enough
    | succ fuel =>
      rw [gdbVerify, gdbMove_reverse backward, cursor.reverse_base]
  | succ pos ih =>
    obtain ⟨next, nextSeen, reversed, before⟩ := cursor.reverse
    obtain ⟨start, stands, verdict⟩ := ih before (quiet.reversed reversed)
    refine ⟨start, stands, fun fuel script seen enough => ?_⟩
    cases fuel with
    | zero => cases enough
    | succ fuel =>
      rw [gdbVerify, gdbMove_reverse backward, reversed]
      dsimp only
      rw [gdbStop_of_runs (quiet _ _ _ .refl reversed)]
      exact (if_pos (Or.inl backward)).trans
        (verdict fuel script nextSeen (Nat.lt_of_succ_lt_succ enough))

/-- A reverse-continue gives control back only at a match.  Without one it
reverses every event before its position, whatever was registered in whatever
order, and then fails at the node of the last registration, whose identifier
was never set. -/
theorem reverse_continue_iff {table : HashTable} {comps : List Comp}
    {oracle : Oracle} (visited : Visited table comps oracle) {gdb : Gdb}
    (running : gdb.running = .reverseContinue) (seen : Seen) :
    ((Quiet gdb oracle → ∃ stopped stopSeen, StopsAt gdb stopped stopSeen oracle seen) ↔
      ¬ Quiet gdb oracle) ∧
    (Quiet gdb oracle → ∃ rounds start,
      start.lastExec = (boot table comps).lastExec ∧
      ∀ fuel script, rounds < fuel → gdbVerify fuel oracle gdb script seen = .stuck start gdb) := by
  have backward : gdbExecDirection gdb = true := by
    unfold gdbExecDirection
    exact decide_eq_true (Or.inl running)
  refine ⟨⟨?_, fun loud quiet => absurd quiet loud⟩, fun quiet => ?_⟩
  · intro ends quiet
    exact (stopsAt_iff_not_quiet backward oracle seen).mp (ends quiet) quiet
  · by_cases registered : comps = []
    · subst registered
      have current := visited.unregistered
      refine ⟨0, oracle, current, fun fuel script enough => ?_⟩
      cases fuel with
      | zero => cases enough
      | succ fuel =>
        rw [gdbVerify, gdbMove_reverse backward, oracleReverseExec, current]
        rfl
    · obtain ⟨base, first, begins⟩ := boot_cursor table registered
      obtain ⟨count, pos, cursor⟩ := visited.cursor begins
      obtain ⟨start, stands, verdict⟩ := cursor.stuck backward quiet
      exact ⟨pos, start, stands.trans begins.current.symm,
        fun fuel script enough => verdict fuel script seen enough⟩

theorem quiet_of_unset (running : gdb.running = .reverseContinue)
    (breakpoints : gdb.breakpoints = []) (watchpoints : gdb.watchpoints = [])
    (oracle : Oracle) : Quiet gdb oracle := by
  rintro earlier next (⟨id, pc⟩ | ⟨id, addr, val⟩ | _) _ _
  · change gdbCondition gdb pc = false
    unfold gdbCondition
    rw [running, breakpoints]
    rfl
  · change gdb.watchpoints.any _ = false
    rw [watchpoints]
    rfl
  · rfl

/-- The debugger after it has sent a reverse-continue and nothing else. -/
def gdbReverseContinue : Gdb :=
  gdbContinue gdbStartAndWait .reverseContinue

theorem reverse_continue_iff_one_inst :
    ∃ oracle, [Event.inst 0 (writingInst 0 [⟨0, 1⟩] (by decide))].foldlM
        recordEvent (boot ⟨fun _ _ => none⟩ [.mem 0, .cpu 0]) = some oracle ∧
      ∃ rounds start,
        start.lastExec = (boot ⟨fun _ _ => none⟩ [.mem 0, .cpu 0]).lastExec ∧
        ∀ fuel script, rounds < fuel →
          gdbVerify fuel oracle gdbReverseContinue script (.cpu 0 4) =
            .stuck start gdbReverseContinue := by
  have recorded : [Event.inst 0 (writingInst 0 [⟨0, 1⟩] (by decide))].foldlM
      recordEvent (boot ⟨fun _ _ => none⟩ [.mem 0, .cpu 0]) = some _ := rfl
  have visited := Visited.recordAll (List.cons_ne_nil _ _) (by
    intro id inst member
    cases List.mem_singleton.mp member
    decide) recorded
  exact ⟨_, recorded, (reverse_continue_iff visited rfl _).2 (quiet_of_unset rfl rfl rfl _)⟩

/-- One processor and one instruction: the first reversal undoes it, and the
second one finds the reset node. -/
theorem reverse_continue_runs_off :
    ∃ oracle, recordEvent (boot ⟨fun _ _ => none⟩ [.cpu 0])
        (.inst 0 (writingInst 0 [⟨0, 1⟩] (by decide))) = some oracle ∧
      Quiet gdbReverseContinue oracle ∧
      (∃ next seen, oracleReverseExec oracle = some (next, seen) ∧
        next.lastExec = (boot ⟨fun _ _ => none⟩ [.cpu 0]).lastExec ∧
        oracleReverseExec next = none) ∧
      ¬ ∃ stopped stopSeen, StopsAt gdbReverseContinue stopped stopSeen oracle (.cpu 0 4) := by
  have quiet : ∀ oracle, Quiet gdbReverseContinue oracle := quiet_of_unset rfl rfl rfl
  refine ⟨_, rfl, quiet _, ⟨_, _, rfl, rfl, rfl⟩, ?_⟩
  intro stop
  exact (stopsAt_iff_not_quiet rfl _ _).mp stop (quiet _)

end Reverse.Delorean
