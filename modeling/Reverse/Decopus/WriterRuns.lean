import Reverse.Decopus.Settling

/-!
# Runs of the trace writer keep the ledger

An event is either the information about a component, which is written at once
and put back, or an event of a registered component.  In both cases the ledger
is kept, so that it is in order after every run in which no event is referenced
more often than it expects.
-/

namespace Reverse.Decopus

open Tasks List

/-- The information about a component refers to nothing and expects not to be
referenced.  This is what `handle_event` warns about otherwise. -/
def PlainInfo (handler : Handler WriterLog) (commit : Commit) : Prop :=
  handler.startDone = false → commit.isInfo = true → commit.refs = [] ∧ commit.expected = 0

instance : DecidableRel PlainInfo := fun handler commit =>
  inferInstanceAs (Decidable (handler.startDone = false →
    commit.isInfo = true → commit.refs = [] ∧ commit.expected = 0))

section

variable {history : History} {handler after : Handler WriterLog}
  {waiting : Waiting} {missing : EventPtr → List EventPtr} {commit : Commit}

theorem handleEvent_info (started : handler.startDone = false)
    (info : commit.isInfo = true) (fuel : Nat) :
    handleEvent hwetraceWrite fuel (fill handler commit) (handler.pointer commit.main) =
      registerComponent hwetraceWrite (fill handler commit) (handler.pointer commit.main) := by
  have body : ((fill handler commit).events
      (handler.pointer commit.main)).hwe.body = commit.hwe.body :=
    congrArg (fun event => event.hwe.body) fill_main
  have filled : ¬ (fill handler commit).startDone = true := by
    change ¬ handler.startDone = true
    rw [started]
    nofun
  rw [handleEvent, if_neg filled, body]
  cases kind : commit.hwe.body with
  | info information => rfl
  | _ => simp [Commit.isInfo, kind] at info

theorem handleEvent_trace (real : handler.startDone = false → commit.isInfo = false) (fuel : Nat) :
    handleEvent hwetraceWrite fuel (fill handler commit) (handler.pointer commit.main) =
      traceEvent hwetraceWrite fuel (begun handler commit) (handler.pointer commit.main) := by
  have body : ((fill handler commit).events
      (handler.pointer commit.main)).hwe.body = commit.hwe.body :=
    congrArg (fun event => event.hwe.body) fill_main
  cases started : handler.startDone with
  | true =>
    have filled : (fill handler commit).startDone = true := started
    have same : begun handler commit = fill handler commit :=
      Handler.ext rfl rfl rfl rfl rfl filled.symm rfl rfl rfl
    rw [handleEvent, if_pos filled, same]
  | false =>
    have filled : ¬ (fill handler commit).startDone = true := by
      change ¬ handler.startDone = true
      rw [started]
      nofun
    have plain := real started
    rw [handleEvent, if_neg filled, body]
    cases kind : commit.hwe.body with
    | info information => simp [Commit.isInfo, kind] at plain
    | _ => rfl

theorem handled_cases (handled : Handled handler commit after) :
    (handler.startDone = false ∧ commit.isInfo = true ∧
        registerComponent hwetraceWrite (fill handler commit)
          (handler.pointer commit.main) = some after) ∨
      ∃ fuel, traceEvent hwetraceWrite fuel (begun handler commit)
        (handler.pointer commit.main) = some after := by
  obtain ⟨fuel, handled⟩ := handled
  by_cases info : handler.startDone = false ∧ commit.isInfo = true
  · rw [handleEvent_info info.1 info.2] at handled
    exact .inl ⟨info.1, info.2, handled⟩
  · have real : handler.startDone = false → commit.isInfo = false := by
      intro started
      exact Bool.eq_false_iff.mpr fun isInfo => info ⟨started, isInfo⟩
    rw [handleEvent_trace real] at handled
    exact .inr ⟨fuel, handled⟩

theorem traceEvent_cases (traced : ∃ fuel, traceEvent hwetraceWrite fuel (begun handler commit)
      (handler.pointer commit.main) = some after) :
    Runs (exec hwetraceWrite)
      [.wake ((registered handler commit).events (handler.pointer commit.main)).followers,
        .commit (handler.pointer commit.main)]
      (registered handler commit) after := by
  obtain ⟨fuel, traced⟩ := traced
  unfold traceEvent at traced
  split at traced
  · exact ⟨fuel, traced⟩
  · cases traced

section

variable (ledger : Ledger history handler waiting missing)
  (within : (history.hand commit).Within) (ready : history.Ready commit)

include ledger within ready

theorem Ledger.trace (handled : ∃ fuel, traceEvent hwetraceWrite fuel (begun handler commit)
      (handler.pointer commit.main) = some after) :
    ∃ left ran closing,
      Traced history handler waiting commit after left ran closing ∧
        Ledger (history.hand commit) after left
          (missingAfter (begun handler commit) missing (handler.pointer commit.main)) := by
  obtain ⟨last, left, ran, runs, steady, advance, commited⟩ :=
    runs_registered (begun_steady ledger ready) (begun_admissible ledger within ready)
  have same : last = after := runs.unique (traceEvent_cases handled)
  subst same
  obtain ⟨closing, traced⟩ := advance.traced ledger ready
  exact ⟨left, ran, closing, traced, traced.ledger ledger within ready steady commited⟩

theorem Ledger.returns (real : handler.startDone = false → commit.isInfo = false)
    (known : handler.comp[(history.name commit.main).devid.toNat]? = some true) :
    ∃ after, Handled handler commit after := by
  obtain ⟨after, left, ran, ⟨fuel, runs⟩, -⟩ :=
    runs_registered (begun_steady ledger ready) (begun_admissible ledger within ready)
  have id : ((begun handler commit).events
      (handler.pointer commit.main)).id = history.name commit.main :=
    (fill_stored ledger ready).id
  refine ⟨after, fuel, ?_⟩
  rw [handleEvent_trace real, traceEvent, if_pos]
  · exact runs
  · rw [id]
    exact known

end

/-- The event is written and put back, but for its additional containers. -/
structure Informed (handler : Handler WriterLog) (commit : Commit)
    (after : Handler WriterLog) : Prop where
  events : after.events = (fill handler commit).events
  list : after.list = handler.pointer commit.main :: handler.list
  nb : after.nb = handler.nb
  births : after.births = handler.births
  startDone : after.startDone = handler.startDone
  user : after.user = handler.user.write
    ((fill handler commit).record (handler.pointer commit.main))
  recycled : after.recycled = handler.recycled ++
    [((fill handler commit).events (handler.pointer commit.main)).serial]
  fifos : ∃ devid, after.fifos =
    Function.update handler.fifos (.comp devid) none

theorem registerComponent_cases (handled : registerComponent hwetraceWrite (fill handler commit)
      (handler.pointer commit.main) = some after) :
    Informed handler commit after := by
  simp only [registerComponent, Option.ite_none_right_eq_some] at handled
  obtain ⟨-, result⟩ := handled
  cases result
  exact ⟨rfl, rfl, rfl, rfl, rfl, rfl, rfl, _, rfl⟩

namespace Informed

theorem pointer (informed : Informed handler commit after) : after.pointer = handler.pointer := by
  funext serial
  exact congrArg (fun births => births.getD serial 0) informed.births

section

variable (informed : Informed handler commit after)
  (ledger : Ledger history handler waiting missing)
  (ready : history.Ready commit)

include informed ledger ready

theorem recycled_main : after.recycled = handler.recycled ++ [commit.main] := by
  rw [informed.recycled, fill_filled handler commit]
  exact congrArg (fun serial => handler.recycled ++ [serial])
    (ledger.placed_ready ready mem_cons_self).numbered

theorem same_events (placed : Placed handler serial) (apart : serial ∉ commit.serials) :
    after.events (after.pointer serial) = handler.events (handler.pointer serial) := by
  rw [informed.pointer, informed.events]
  exact fill_open ledger ready placed apart

theorem placed (was : Placed handler serial) (live : serial ∉ after.recycled) :
    Placed after serial := by
  rw [informed.recycled_main ledger ready, mem_append, mem_singleton, not_or] at live
  constructor
  · rw [informed.pointer, informed.events, fill_filled handler commit]
    exact was.numbered
  · rw [informed.pointer, informed.list]
    intro member
    rcases mem_cons.mp member with same | listed
    · exact live.2 (was.inj (ledger.placed_ready ready mem_cons_self) same)
    · exact was.unlisted listed
  · rw [informed.pointer, informed.nb]
    exact was.bound

end

theorem heldAt (informed : Informed handler commit after)
    (held : HeldAt (history.hand commit) after x) :
    HeldAt history handler x := by
  obtain ⟨serial, held, rfl⟩ := held
  exact ⟨serial, (History.held_hand.mp held).1, by rw [informed.pointer]⟩

theorem steady (informed : Informed handler commit after)
    (ledger : Ledger history handler waiting missing) (started : handler.startDone = false) :
    Steady after waiting missing (HeldAt (history.hand commit) after) := by
  have empty := ledger.started started
  have nothing : ∀ {devid x}, x ∉ waiting devid := by
    intro devid x member
    rw [empty devid] at member
    cases member
  have owing := ledger.steady.awaiting.owing
  have fifos : ∀ devid, after.fifos (.comp devid) = none := by
    intro devid
    have last := (ledger.steady.awaiting.queues.queue devid).last
    rw [empty devid] at last
    obtain ⟨other, updated⟩ := informed.fifos
    rw [updated, Function.update_apply]
    split
    · rfl
    · exact last
  refine ⟨⟨⟨?_, ?_⟩, ?_, ?_, owing, ?_⟩, ?_, ?_, ?_, ?_⟩
  · intro devid
    rw [empty devid]
    exact ⟨trivial, by simp, fifos devid, .nil⟩
  · exact fun devid x member => absurd member nothing
  · exact fun devid x head => absurd (mem_of_mem_head? head) nothing
  · exact fun devid x member => absurd member nothing
  · simp
  · exact fun devid x member => absurd member nothing
  · intro e x member
    obtain ⟨devid, waits⟩ := owing e (ne_nil_of_mem member)
    exact absurd waits nothing
  · intro x held e
    rw [informed.events, fill_filled handler commit]
    exact ledger.steady.followers x (informed.heldAt held) e
  · intro x held
    have fresh := ledger.steady.fresh x (informed.heldAt held)
    rw [informed.events, fill_filled handler commit]
    exact ⟨fresh.commited, fresh.missref, fresh.init, fresh.go⟩

theorem references (plain : commit.refs = []) (serial : Nat) :
    (history.hand commit).references serial = history.references serial := by
  rw [History.references_hand, plain]
  rfl

theorem opened (informed : Informed handler commit after)
    (ledger : Ledger history handler waiting missing)
    (ready : history.Ready commit) (plain : commit.refs = [])
    (before : other ∈ history.commits) (live : other.main ∉ handler.recycled) :
    Open (history.hand commit) after waiting other := by
  have opened := ledger.opened other before live
  have apart : ∀ serial ∈ other.serials, serial ∉ commit.serials := by
    intro serial inSerials again
    exact (ready.held serial again).2 (mem_flatMap.mpr ⟨other, before, inSerials⟩)
  have same := fun serial inSerials => informed.same_events ledger ready
    (ledger.placed_open before live inSerials) (apart serial inSerials)
  have main := same other.main mem_cons_self
  constructor
  · refine opened.stored.congr rfl ?_ ?_
    · exact fun serial _ => congrFun informed.pointer serial
    · intro serial inSerials
      have events := same serial inSerials
      rw [informed.pointer] at events
      rw [events]
      exact ⟨rfl, rfl, rfl⟩
  · rw [main]
    exact opened.commited
  · rw [main, opened.missfol, references plain]
  · rw [main, informed.pointer]
    exact opened.stage

theorem ledger (informed : Informed handler commit after)
    (before : Ledger history handler waiting missing)
    (within : (history.hand commit).Within) (ready : history.Ready commit)
    (started : handler.startDone = false) (plain : commit.refs = [] ∧ commit.expected = 0) :
    Ledger (history.hand commit) after waiting missing := by
  have recycled := informed.recycled_main before ready
  have main := before.placed_ready ready mem_cons_self
  have survived : ∀ serial, serial ∉ after.recycled → serial ∉ handler.recycled := by
    intro serial live again
    rw [recycled] at live
    exact live (mem_append_left _ again)
  constructor
  · exact before.proper.hand ready
  · exact informed.steady before started
  · rw [informed.births]
    exact before.births
  · intro serial allocated live
    exact informed.placed before ready (before.placed serial allocated (survived serial live)) live
  · rw [informed.list]
    exact nodup_cons.mpr ⟨main.unlisted, before.listNodup⟩
  · intro x member
    rw [informed.nb]
    rw [informed.list] at member
    rcases mem_cons.mp member with rfl | listed
    · exact main.bound
    · exact before.listBound x listed
  · rw [recycled]
    refine nodup_append.mpr ⟨before.recycledNodup, by simp, ?_⟩
    rintro serial again _ isMain rfl
    rw [mem_singleton.mp isMain] at again
    exact before.main_live ready again
  · intro serial member
    rw [recycled, mem_append, mem_singleton] at member
    rcases member with again | rfl
    · obtain ⟨other, inCommits, inSerials, closed, counted⟩ := before.closed serial again
      refine ⟨other, History.mem_hand.mpr (.inl inCommits), inSerials, ?_, ?_⟩
      · rw [recycled]
        exact mem_append_left _ closed
      · rw [references plain.1, counted]
    · have handed : commit ∈ (history.hand commit).commits := History.mem_hand.mpr (.inr rfl)
      refine ⟨commit, handed, mem_cons_self, ?_, ?_⟩
      · rw [recycled]
        simp
      · have bound := (within commit handed).1
        rw [plain.2] at bound ⊢
        omega
  · intro serial held
    obtain ⟨was, apart⟩ := History.held_hand.mp held
    have entrusted := before.entrusted serial was
    have same := informed.same_events before ready (before.placed_held was) apart
    constructor
    · rw [same]
      exact entrusted.id
    · rw [same, entrusted.missfol, references plain.1]
    · rw [same, entrusted.followers, references plain.1]
  · intro other member live
    rcases History.mem_hand.mp member with was | rfl
    · exact informed.opened before ready plain.1 was (survived _ live)
    · rw [recycled] at live
      simp at live
  · intro devid x member
    rw [before.started started devid] at member
    cases member
  · exact fun _ => before.started started

end Informed

end

theorem Ledger.start : Ledger ⟨[], []⟩ (handleStart .start) (fun _ => []) (fun _ => []) where
  proper := ⟨.nil, by simp, by simp⟩
  steady :=
    { awaiting :=
        { queues := ⟨fun _ => ⟨trivial, by simp, rfl, .nil⟩, by simp⟩
          blocked := by simp [Blocked]
          missref := by simp
          owing := by simp
          told := by simp }
      commited := by simp
      owed := by simp
      followers := by simp [HeldAt, History.Held]
      fresh := by simp [HeldAt, History.Held] }
  births := rfl
  placed := by simp
  listNodup := .nil
  listBound := by simp [handleStart]
  recycledNodup := .nil
  closed := by simp [handleStart]
  entrusted := by simp [History.Held]
  opened := by simp
  waits := by simp
  started := by simp

variable {allocating : Handler WriterLog → Prop} {committing : Handler WriterLog → Commit → Prop}

/-- What every call keeps, next to the ledger, holds after every run in which
no event is referenced more often than it expects. -/
theorem Run.invariant {invariant : History → Handler WriterLog → Waiting → Prop}
    (run : Run allocating committing history handler)
    (plain : ∀ handler commit, committing handler commit → PlainInfo handler commit)
    (within : history.Within) (start : invariant ⟨[], []⟩ (handleStart .start) fun _ => [])
    (alloc : ∀ {history handler waiting missing} (id : HweId),
      Ledger history handler waiting missing →
      invariant history handler waiting → allocating handler →
      invariant (history.allocate id) (allocate handler id) waiting)
    (inform : ∀ {history handler waiting missing commit after},
      Ledger history handler waiting missing →
      invariant history handler waiting → history.Ready commit →
      committing handler commit → handler.startDone = false →
      commit.isInfo = true → Informed handler commit after →
      invariant (history.hand commit) after waiting)
    (trace : ∀ {history handler waiting missing commit after left ran closing},
      Ledger history handler waiting missing →
      invariant history handler waiting → (history.hand commit).Within →
      history.Ready commit → committing handler commit →
      Traced history handler waiting commit after left ran closing →
      invariant (history.hand commit) after left) :
    ∃ waiting missing, Ledger history handler waiting missing ∧
      invariant history handler waiting := by
  induction run with
  | start => exact ⟨_, _, .start, start⟩
  | alloc id run condition ih =>
    obtain ⟨waiting, missing, ledger, kept⟩ := ih within
    exact ⟨waiting, missing, ledger.allocate id, alloc id ledger kept condition⟩
  | commit commit run ready condition handled ih =>
    obtain ⟨waiting, missing, ledger, kept⟩ := ih within.of_hand
    rcases handled_cases handled with ⟨started, info, registers⟩ | traces
    · have informed := registerComponent_cases registers
      exact ⟨waiting, missing,
        informed.ledger ledger within ready started (plain _ _ condition started info),
        inform ledger kept ready condition started info informed⟩
    · obtain ⟨left, ran, closing, traced, later⟩ := ledger.trace within ready traces
      exact ⟨left, _, later, trace ledger kept within ready condition traced⟩

end Reverse.Decopus
