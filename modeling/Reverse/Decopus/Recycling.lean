import Mathlib.Data.List.Range
import Reverse.Decopus.WriterRuns

/-!
# No container is lost

Without a RET stage `check_ret` looks at an event only once, when the event has
been written.  An event that is still expected to be referenced then is never
put back.  If every reference comes before the event that it names is written,
and the information about a component has no additional containers, then all
containers have been put back, each of them once, when every event has been
handed over.
-/

namespace Reverse.Decopus

open List

/-- The event comes before the events that it refers to have been written, and
it has one container if it is the information about a component. -/
structure Punctual (handler : Handler WriterLog) (commit : Commit) :
    Prop where
  plain : PlainInfo handler commit
  single : handler.startDone = false → commit.isInfo = true → commit.exts = []
  early : ∀ serial ∈ commit.refs,
    (handler.events (handler.pointer serial)).go.done = false

instance : DecidableRel Punctual := fun handler commit =>
  decidable_of_iff
    (PlainInfo handler commit ∧
      (handler.startDone = false → commit.isInfo = true → commit.exts.isEmpty = true) ∧
      ∀ serial ∈ commit.refs, (handler.events (handler.pointer serial)).go.done = false)
    ⟨fun ⟨plain, single, early⟩ =>
        ⟨plain, fun started info =>
          List.isEmpty_iff.mp (single started info), early⟩,
      fun punctual =>
        ⟨punctual.plain, fun started info =>
          List.isEmpty_iff.mpr (punctual.single started info),
          punctual.early⟩⟩

/-- Events are put back as a whole, and those that have been written and are
not put back expect more references. -/
structure Tidy (history : History) (handler : Handler WriterLog) : Prop where
  whole : ∀ commit ∈ history.commits, commit.main ∈ handler.recycled →
    ∀ serial ∈ commit.serials, serial ∈ handler.recycled
  expects : ∀ commit ∈ history.commits, commit.main ∉ handler.recycled →
    (handler.events (handler.pointer commit.main)).go.done = true →
    (handler.events (handler.pointer commit.main)).missfol ≠ 0

namespace Tidy

variable {history : History} {handler after : Handler WriterLog}
  {waiting left : Waiting} {missing : EventPtr → List EventPtr}
  {commit : Commit} {ran : List EventPtr} {closing : List Commit}

section

variable (tidy : Tidy history handler) (ledger : Ledger history handler waiting missing)

include tidy ledger

theorem allocate (id : HweId) : Tidy (history.allocate id) (allocate handler id) where
  whole := tidy.whole
  expects other member live := by
    have placed := ledger.placed_open member live mem_cons_self
    have allocated := ledger.proper.bounded other member _ mem_cons_self
    rw [allocate_pointer (ledger.born allocated), allocate_events, if_neg placed.not_next]
    exact tidy.expects other member live

theorem inform (ready : history.Ready commit) (single : commit.exts = [])
    (informed : Informed handler commit after) :
    Tidy (history.hand commit) after := by
  have recycled := informed.recycled_main ledger ready
  have apart : ∀ other ∈ history.commits, ∀ serial ∈ other.serials, serial ∉ commit.serials := by
    intro other before serial inSerials again
    exact (ready.held serial again).2 (mem_flatMap.mpr ⟨other, before, inSerials⟩)
  constructor
  · intro other member returned serial inSerials
    rw [recycled, mem_append, mem_singleton] at returned ⊢
    rcases History.mem_hand.mp member with before | rfl
    · left
      apply tidy.whole other before _ serial inSerials
      apply returned.resolve_right
      intro same
      exact apart other before _ mem_cons_self (same ▸ mem_cons_self)
    · rw [Commit.serials, single] at inSerials
      exact .inr (mem_singleton.mp inSerials)
  · intro other member live
    rw [recycled, mem_append, mem_singleton, not_or] at live
    have before : other ∈ history.commits := by
      apply (History.mem_hand.mp member).resolve_right
      rintro rfl
      exact live.2 rfl
    rw [informed.same_events ledger ready
      (ledger.placed_open before live.1 mem_cons_self)
      (apart other before _ mem_cons_self)]
    exact tidy.expects other before live.1

theorem trace (within : (history.hand commit).Within) (ready : history.Ready commit)
    (early : ∀ serial ∈ commit.refs, (handler.events (handler.pointer serial)).go.done = false)
    (traced : Traced history handler waiting commit after left ran closing) :
    Tidy (history.hand commit) after := by
  have proper := ledger.proper.hand ready
  constructor
  · intro other member returned serial inSerials
    rw [traced.recycled, mem_append] at returned ⊢
    rcases returned with recycled | inClosing
    · left
      rcases History.mem_hand.mp member with before | rfl
      · exact tidy.whole other before recycled serial inSerials
      · exact absurd recycled (ledger.main_live ready)
    · right
      obtain ⟨found, closes, inFound⟩ := mem_flatMap.mp inClosing
      have same := proper.unique ((traced.closes found).mp closes).1 member inFound mem_cons_self
      exact mem_flatMap.mpr ⟨found, closes, same ▸ inSerials⟩
  · intro other member live done
    have main := congrFun (traced.pointer ledger ready) other.main
    rw [traced.recycled, mem_append, not_or] at live
    rw [main] at done ⊢
    rw [(traced.advance.kept _).missfol]
    by_cases inRan : handler.pointer other.main ∈ ran
    · intro settled
      apply live.2
      exact mem_flatMap.mpr
        ⟨other, (traced.closes other).mpr ⟨member, live.1, inRan, settled⟩, mem_cons_self⟩
    · rw [(traced.advance.still _ inRan).2, (registered_kept ledger ready _).2.2] at done
      rcases History.mem_hand.mp member with before | rfl
      · -- The event has been written, so it is not referenced any more.
        have unreferenced : other.main ∉ commit.refs := by
          intro again
          rw [early _ again] at done
          cases done
        have differ : other.main ≠ commit.main := by
          intro same
          exact (ready.held commit.main mem_cons_self).2
            (mem_flatMap.mpr ⟨other, before, same ▸ mem_cons_self⟩)
        rw [registered_missfol ledger within ready
          (ledger.placed_open before live.1 mem_cons_self),
          if_neg differ, count_eq_zero_of_not_mem unreferenced]
        simpa using tidy.expects other before live.1 done
      · have held := ready.held other.main mem_cons_self
        rw [(ledger.steady.fresh _ ⟨_, held, rfl⟩).go] at done
        cases done

/-- When every event has been handed over, all containers are put back. -/
theorem recycled (balanced : history.Balanced) (complete : history.Complete) :
    handler.recycled.Perm (List.range history.names.length) := by
  have nothing : ∀ e, missing e = [] := by
    intro e
    apply eq_nil_iff_forall_not_mem.mpr
    intro x member
    obtain ⟨serial, held, -⟩ := ledger.steady.owed e x member
    exact complete serial held
  -- The first event of a queue would miss a reference.
  have empty : ∀ devid, waiting devid = [] := by
    intro devid
    cases queue : waiting devid with
    | nil => rfl
    | cons first rest =>
      have member : first ∈ waiting devid := queue ▸ mem_cons_self
      have blocked := ledger.steady.awaiting.blocked devid first (by rw [queue]; rfl)
      have missref := ledger.steady.awaiting.missref devid first member
      rw [nothing first] at missref
      simp [Handler.ready, ledger.steady.commited devid first member, missref] at blocked
  have returned : ∀ commit ∈ history.commits, commit.main ∈ handler.recycled := by
    intro commit member
    by_contra live
    have opened := ledger.opened commit member live
    rcases opened.stage with ⟨devid, waits⟩ | done
    · rw [empty devid] at waits
      cases waits
    · apply tidy.expects commit member live done
      rw [opened.missfol, (balanced commit member).1, Int.sub_self]
  apply (perm_ext_iff_of_nodup ledger.recycledNodup nodup_range).mpr
  intro serial
  rw [mem_range]
  constructor
  · intro member
    obtain ⟨commit, inCommits, inSerials, -⟩ := ledger.closed serial member
    exact ledger.proper.bounded commit inCommits serial inSerials
  · intro allocated
    have handed : serial ∈ history.commits.flatMap Commit.serials := by
      by_contra free
      exact complete serial ⟨allocated, free⟩
    obtain ⟨commit, inCommits, inSerials⟩ := mem_flatMap.mp handed
    exact tidy.whole commit inCommits (returned commit inCommits) serial inSerials

end

end Tidy

/-- Every event of a registered component is handled, and every container is
put back once. -/
theorem containers_recycled_once {history : History} {handler : Handler WriterLog}
    (run : Run (fun _ => True) Punctual history handler) (within : history.Within) :
    (∀ commit, history.Ready commit → (history.hand commit).Within →
      (handler.startDone = false → commit.isInfo = false) →
      handler.comp[(history.name commit.main).devid.toNat]? = some true →
      ∃ after, Handled handler commit after) ∧
    (history.Balanced → history.Complete →
      handler.recycled.Perm (List.range history.names.length)) := by
  obtain ⟨waiting, missing, ledger, tidy⟩ :=
    @Run.invariant _ _ _ _ (fun history handler _ => Tidy history handler)
      run (fun _ _ punctual => punctual.plain) within ⟨by simp, by simp⟩
      (fun id ledger tidy _ => tidy.allocate ledger id)
      (fun ledger tidy ready punctual started info informed =>
        tidy.inform ledger ready (punctual.single started info) informed)
      (fun ledger tidy within ready punctual traced =>
        tidy.trace ledger within ready punctual.early traced)
  constructor
  · intro commit ready within real known
    exact ledger.returns within ready real known
  · exact tidy.recycled ledger

/-- Two events are referenced, by an event of the same component and by an
event of another one that come before they are written. -/
def promptScript : List Action :=
  [.alloc ⟨0, 0⟩, .alloc ⟨1, 0⟩, .commit (infoCommit 0),
    .commit (infoCommit 1), .alloc ⟨0, 1⟩, .alloc ⟨0, 2⟩, .alloc ⟨1, 1⟩,
    .commit (nullCommit 3 1 [2] (by decide)),
    .commit (nullCommit 4 0 [3] (by decide)),
    .commit (nullCommit 2 1 [] noRefs_fit)]

theorem containers_recycled_once_prompt :
    ∃ state, play promptScript = some state ∧
      Run (fun _ => True) Punctual state.1 state.2 ∧ state.1.Within ∧
      state.1.Balanced ∧ state.1.Complete ∧
      state.2.recycled.Perm (List.range state.1.names.length) := by
  have played : (play promptScript).isSome = true := by decide +kernel
  obtain ⟨state, performed⟩ := Option.isSome_iff_exists.mp played
  have counted : ∀ state ∈ play promptScript, state.1.Balanced ∧ state.1.Complete := by
    decide +kernel
  obtain ⟨balanced, complete⟩ := counted state performed
  have within : state.1.Within := fun commit member =>
    ⟨(balanced commit member).1.le, (balanced commit member).2⟩
  have meets : ∀ n < promptScript.length, ∀ action ∈ promptScript[n]?,
      ∀ middle ∈ play (promptScript.take n), Meets (fun _ => True) Punctual middle.2 action := by
    decide +kernel
  have run := run_meets performed meets
  exact ⟨state, performed, run, within, balanced, complete,
    (containers_recycled_once run within).2 balanced complete⟩

/-- An event is written before the event that refers to it comes. -/
def lateScript : List Action :=
  [.alloc ⟨0, 0⟩, .commit (infoCommit 0), .alloc ⟨0, 1⟩, .alloc ⟨0, 2⟩,
    .commit (nullCommit 1 1 [] noRefs_fit),
    .commit (nullCommit 2 0 [1] oneRef_fit)]

theorem container_lost :
    ∃ state, play lateScript = some state ∧
      Run (fun _ => True) (fun _ _ => True) state.1 state.2 ∧
      state.1.Balanced ∧ state.1.Complete ∧
      1 < state.1.names.length ∧ 1 ∉ state.2.recycled := by
  have played : (play lateScript).isSome = true := by decide +kernel
  obtain ⟨state, performed⟩ := Option.isSome_iff_exists.mp played
  have lost : ∀ state ∈ play lateScript,
      state.1.Balanced ∧ state.1.Complete ∧ 1 < state.1.names.length ∧ 1 ∉ state.2.recycled := by
    decide +kernel
  exact ⟨state, performed, run_play performed, lost state performed⟩

end Reverse.Decopus
