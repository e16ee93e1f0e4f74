import Reverse.Decopus.WriterRuns

/-!
# References in the trace file

A reference becomes an id when the referring event is written, which the fifo
of its component may delay.  The event it points to can have been put back by
then, and its container may be used for another event.  If `event_new` never
takes a container that a waiting event refers to, all ids in the file are those
of the events that the clients referred to.
-/

namespace Reverse.Decopus

open List

/-- An event that is committed but not written. -/
def Pending (handler : Handler WriterLog) (e : EventPtr) : Prop :=
  (handler.events e).commited = true ∧ (handler.events e).init.done = false

/-- No waiting event refers to the container that `event_new` takes next. -/
def Unreferenced (handler : Handler WriterLog) : Prop :=
  ∀ e < handler.nb, Pending handler e → eventNext handler ∉ handler.refs e

instance : DecidablePred Unreferenced := fun handler =>
  inferInstanceAs (Decidable (∀ e < handler.nb,
    (handler.events e).commited = true ∧ (handler.events e).init.done = false →
      eventNext handler ∉ handler.refs e))

/-- The file is what the recorded calls have written. -/
def WriterLog.Consistent (log : WriterLog) : Prop :=
  log.writer = log.calls.foldl (fun writer call => bufferEvent writer call.1 call.2) Writer.start

theorem WriterLog.Consistent.foldl (consistent : log.Consistent) (calls : List (Cont × List Cont)) :
    (calls.foldl WriterLog.write log).Consistent := by
  induction calls generalizing log with
  | nil => exact consistent
  | cons call calls ih =>
    apply ih
    simp only [Consistent, write, foldl_append, foldl_cons, foldl_nil]
    rw [consistent]

theorem calls_foldl (log : WriterLog) (calls : List (Cont × List Cont)) :
    (calls.foldl WriterLog.write log).calls = log.calls ++ calls := by
  induction calls generalizing log with
  | nil => simp
  | cons call calls ih =>
    rw [foldl_cons, ih]
    simp [WriterLog.write]

theorem Container.cont_map (container : Container ρ) (id : HweId)
    (named : ∀ ref ∈ container.refs, name (pointer ref) = meant ref) :
    (container.map pointer).cont id name = container.cont id meant := by
  have refs : (container.refs.map pointer).map name = container.refs.map meant := by
    rw [map_map]
    exact map_congr_left named
  simp only [Container.cont, Container.map, refs, length_map]

theorem Stored.record (stored : Stored history handler commit) (named : ∀ serial ∈ commit.refs,
      (handler.events (handler.pointer serial)).id = history.name serial) :
    handler.record (handler.pointer commit.main) = history.record commit := by
  unfold Handler.record History.record
  rw [stored.refnext, map_map]
  apply Prod.ext
  · unfold Handler.cont
    rw [stored.id, stored.hwe]
    apply Container.cont_map
    intro ref member
    exact named ref (mem_append_left _ member)
  · apply map_congr_left
    intro ext member
    simp only [Function.comp_apply, Handler.cont]
    rw [stored.extId ext member, stored.extHwe ext member]
    apply Container.cont_map
    intro ref inRefs
    exact named ref (mem_append_right _ (mem_flatMap.mpr ⟨ext, member, inRefs⟩))

/-- The address still has the event that the client means. -/
def Names (history : History) (handler : Handler WriterLog) (serial : Nat) :
    Prop :=
  (handler.events (handler.pointer serial)).serial = serial ∧
    (handler.events (handler.pointer serial)).id = history.name serial

structure Faithful (history : History) (handler : Handler WriterLog)
    (waiting : Waiting) : Prop where
  consistent : handler.user.Consistent
  written : ∃ order : List Commit, order.Nodup ∧
    (∀ commit ∈ order, commit ∈ history.commits) ∧
    (∀ commit ∈ order, commit.main ∉ handler.recycled →
      ∀ devid, handler.pointer commit.main ∉ waiting devid) ∧
    handler.user.calls = order.map history.record
  named : ∀ commit ∈ history.commits, commit.main ∉ handler.recycled →
    ∀ devid, handler.pointer commit.main ∈ waiting devid →
    ∀ serial ∈ commit.refs, Names history handler serial

section

variable {history : History} {handler after : Handler WriterLog}
  {waiting left : Waiting} {missing : EventPtr → List EventPtr}
  {commit : Commit} {ran : List EventPtr} {closing : List Commit}

theorem record_allocate (proper : history.Proper) (member : commit ∈ history.commits) (id : HweId) :
    (history.allocate id).record commit = history.record commit := by
  have names : ∀ serial ∈ commit.refs, (history.allocate id).name serial = history.name serial :=
    fun serial inRefs => History.name_allocate
      (proper.allocated commit member serial inRefs)
  have main : (history.allocate id).name commit.main = history.name commit.main :=
    History.name_allocate (proper.bounded commit member _ mem_cons_self)
  have same : ∀ container : Container Nat,
      (∀ ref ∈ container.refs, ref ∈ commit.refs) →
      container.cont (history.name commit.main) (history.allocate id).name =
        container.cont (history.name commit.main) history.name := by
    intro container inRefs
    have refs : container.refs.map (history.allocate id).name = container.refs.map history.name :=
      map_congr_left fun ref member => names ref (inRefs ref member)
    simp only [Container.cont, refs]
  unfold History.record
  simp only [main]
  apply Prod.ext
  · exact same commit.hwe fun ref member => mem_append_left _ member
  · apply map_congr_left
    intro ext member
    apply same ext.2
    intro ref inRefs
    exact mem_append_right _ (mem_flatMap.mpr ⟨ext, member, inRefs⟩)

section

variable (ledger : Ledger history handler waiting missing)

include ledger

theorem Faithful.allocate (faithful : Faithful history handler waiting)
    (unreferenced : Unreferenced handler) (id : HweId) :
    Faithful (history.allocate id) (allocate handler id) waiting := by
  have pointer : ∀ commit ∈ history.commits,
      (Decopus.allocate handler id).pointer commit.main =
        handler.pointer commit.main := fun commit member =>
    allocate_pointer (ledger.born (ledger.proper.bounded commit member _ mem_cons_self))
  obtain ⟨order, nodup, inCommits, gone, calls⟩ := faithful.written
  refine ⟨faithful.consistent, ⟨order, nodup, inCommits, ?_, ?_⟩, ?_⟩
  · intro commit member live devid
    rw [pointer commit (inCommits commit member)]
    exact gone commit member live devid
  · refine calls.trans (map_congr_left ?_)
    intro commit member
    exact (record_allocate ledger.proper (inCommits commit member) id).symm
  · intro commit member live devid waits serial inRefs
    rw [pointer commit member] at waits
    have names := faithful.named commit member live devid waits serial inRefs
    have allocated := ledger.proper.allocated commit member serial inRefs
    have pending : Pending handler (handler.pointer commit.main) :=
      ⟨ledger.steady.commited devid _ waits, (ledger.waits devid _ waits).1⟩
    have refs := (ledger.opened commit member live).stored.refs
    have notNext : handler.pointer serial ≠ eventNext handler := by
      intro next
      apply unreferenced _ (ledger.placed_open member live mem_cons_self).bound pending
      rw [refs, ← next]
      exact mem_map_of_mem inRefs
    unfold Names
    rw [allocate_pointer (ledger.born allocated), allocate_events,
      if_neg notNext, History.name_allocate allocated]
    exact names

theorem Faithful.inform (faithful : Faithful history handler waiting)
    (ready : history.Ready commit) (started : handler.startDone = false)
    (plain : commit.refs = []) (informed : Informed handler commit after) :
    Faithful (history.hand commit) after waiting := by
  have recycled := informed.recycled_main ledger ready
  have record : (fill handler commit).record (handler.pointer commit.main) =
      history.record commit := by
    apply (fill_stored ledger ready).record
    rw [plain]
    simp
  have user : after.user = [history.record commit].foldl WriterLog.write handler.user := by
    rw [informed.user, record]
    rfl
  obtain ⟨order, nodup, inCommits, gone, calls⟩ := faithful.written
  refine ⟨?_, ⟨order ++ [commit], ?_, ?_, ?_, ?_⟩, ?_⟩
  · rw [user]
    exact faithful.consistent.foldl _
  · refine nodup_append.mpr ⟨nodup, by simp, ?_⟩
    rintro other member _ isNew rfl
    rw [mem_singleton.mp isNew] at member
    exact (ready.held commit.main mem_cons_self).2 (mem_flatMap.mpr
      ⟨commit, inCommits commit member, mem_cons_self⟩)
  · intro other member
    rw [mem_append, mem_singleton] at member
    exact History.mem_hand.mpr (member.imp (inCommits other) id)
  · intro other member live devid
    rw [ledger.started started devid]
    exact not_mem_nil
  · rw [user, calls_foldl, calls, map_append]
    rfl
  · intro other member live devid waits
    rw [ledger.started started devid] at waits
    cases waits

/-- Filling the containers of an event keeps the ids of events that can be
referenced. -/
theorem registered_names (ready : history.Ready commit) (names : Names history handler serial)
    (notExt : serial ∉ commit.exts.map Prod.fst) :
    ((registered handler commit).events (handler.pointer serial)).serial = serial ∧
      ((registered handler commit).events (handler.pointer serial)).id = history.name serial := by
  refine ⟨(registered_kept ledger ready _).1.trans names.1, ?_⟩
  rw [registered_eq ledger ready]
  change ((fill handler commit).events (handler.pointer serial)).id = _
  by_cases isMain : serial = commit.main
  · subst isMain
    rw [fill_main]
    exact names.2
  · rw [fill_outside]
    · exact names.2
    · intro other inSerials same
      have placed := ledger.placed_ready ready inSerials
      have equal : serial = other := by
        rw [← names.1, ← same, placed.numbered]
      rcases mem_cons.mp inSerials with main | ext
      · exact isMain (equal.trans main)
      · exact notExt (equal ▸ ext)

theorem Ledger.names_reference (within : (history.hand commit).Within)
    (ready : history.Ready commit) (inRefs : serial ∈ commit.refs) :
    Names history handler serial := by
  refine ⟨(ledger.placed_reference within ready inRefs).numbered, ?_⟩
  rcases ledger.reference within ready inRefs with
    ⟨held, -⟩ | ⟨other, member, rfl, live⟩
  · exact (ledger.entrusted serial held).id
  · exact (ledger.opened other member live).stored.id

end

theorem History.references_pos (member : other ∈ history.commits)
    (inRefs : serial ∈ other.refs) : 0 < history.references serial :=
  count_pos_iff.mpr (mem_flatMap.mpr ⟨other, member, inRefs⟩)

section

variable (ledger : Ledger history handler waiting missing)
  (faithful : Faithful history handler waiting)
  (within : (history.hand commit).Within) (ready : history.Ready commit)

include ledger faithful within ready

/-- Whatever can be written now has the ids that the clients mean. -/
theorem Faithful.entered (member : other ∈ (history.hand commit).commits)
    (live : other.main ∉ handler.recycled)
    (waits : handler.pointer other.main ∈ enter (begun handler commit) waiting
      (handler.pointer commit.main) devid) (inRefs : serial ∈ other.refs) :
    ((registered handler commit).events (handler.pointer serial)).serial = serial ∧
      ((registered handler commit).events (handler.pointer serial)).id = history.name serial := by
  apply registered_names ledger ready
  · rcases mem_enter.mp waits with before | ⟨same, -⟩
    · rcases History.mem_hand.mp member with handed | rfl
      · exact faithful.named other handed live devid before serial inRefs
      · exact ledger.names_reference within ready inRefs
    · have main := (ledger.placed_handed ready member live
        mem_cons_self).inj (ledger.placed_ready ready mem_cons_self) same
      have equal := (ledger.proper.hand ready).unique member
        (History.mem_hand.mpr (.inr rfl)) mem_cons_self
        (main ▸ mem_cons_self)
      exact ledger.names_reference within ready (equal ▸ inRefs)
  · intro isExt
    obtain ⟨ext, inExts, rfl⟩ := mem_map.mp isExt
    have none := (within commit (History.mem_hand.mpr (.inr rfl))).2 ext inExts
    have some := History.references_pos member inRefs
    omega

theorem Faithful.trace (traced : Traced history handler waiting commit after left ran closing) :
    Faithful (history.hand commit) after left := by
  have advance := traced.advance
  have pointer := traced.pointer ledger ready
  have registeredPointer := registered_pointer ledger ready
  have user : (registered handler commit).user = handler.user :=
    (registered_unmoved ledger ready).user
  have survived : ∀ serial, serial ∉ after.recycled → serial ∉ handler.recycled := by
    intro serial live recycled
    rw [traced.recycled] at live
    exact live (mem_append_left _ recycled)
  have named : ∀ x ∈ ran, ∃ other,
      (other ∈ (history.hand commit).commits ∧
        other.main ∉ handler.recycled) ∧ handler.pointer other.main = x := by
    intro x inRan
    obtain ⟨devid, queued⟩ := advance.queued x inRan
    exact ledger.waiting_commit ready queued
  obtain ⟨wrote, rfl, handed⟩ := exists_map named
  have records : (wrote.map fun other => handler.pointer other.main).map
      (registered handler commit).record = wrote.map (history.hand commit).record := by
    rw [map_map]
    apply map_congr_left
    intro other member
    obtain ⟨devid, queued⟩ := advance.queued _ (mem_map_of_mem member)
    have stored := registered_stored ledger ready (handed other member).1 (handed other member).2
    have record := stored.record (by
      intro serial inRefs
      rw [registeredPointer]
      exact (faithful.entered ledger within ready (handed other member).1
        (handed other member).2 queued inRefs).2)
    rw [registeredPointer] at record
    exact record
  obtain ⟨order, nodup, inCommits, gone, calls⟩ := faithful.written
  have notEntered : ∀ other ∈ order, other.main ∉ handler.recycled →
      ∀ devid, handler.pointer other.main ∉ enter (begun handler commit)
        waiting (handler.pointer commit.main) devid := by
    intro other member live devid entered
    rcases mem_enter.mp entered with before | ⟨same, -⟩
    · exact gone other member live devid before
    · have main := (ledger.placed_open (inCommits other member) live
        mem_cons_self).inj (ledger.placed_ready ready mem_cons_self) same
      exact (ready.held commit.main mem_cons_self).2
        (mem_flatMap.mpr ⟨other, inCommits other member, main ▸ mem_cons_self⟩)
  refine ⟨?_, ⟨order ++ wrote, ?_, ?_, ?_, ?_⟩, ?_⟩
  · rw [advance.user, user]
    exact faithful.consistent.foldl _
  · refine nodup_append.mpr ⟨nodup, List.Nodup.of_map _ advance.nodup, ?_⟩
    rintro other before _ now rfl
    obtain ⟨devid, queued⟩ := advance.queued _ (mem_map_of_mem now)
    exact notEntered other before (handed other now).2 devid queued
  · intro other member
    rcases mem_append.mp member with before | now
    · exact History.mem_hand.mpr (.inl (inCommits other before))
    · exact (handed other now).1
  · intro other member live devid stays
    rw [pointer] at stays
    rcases mem_append.mp member with before | now
    · exact notEntered other before (survived _ live) devid (advance.waited stays)
    · exact advance.gone _ (mem_map_of_mem now) devid stays
  · rw [advance.user, user, calls_foldl, calls, records, map_append]
    rfl
  · intro other member live devid stays serial inRefs
    rw [pointer] at stays
    have names := faithful.entered ledger within ready member (survived _ live)
      (advance.waited stays) inRefs
    unfold Names
    rw [pointer, (advance.kept _).serial, (advance.kept _).id]
    exact names

end

end

/-- In a run in which `event_new` never takes a container that a waiting event
refers to, and the information about components is plain, the file has each
event at most once and as its client means it: every reference is written as
the id of the event that was referenced. -/
theorem references_as_committed {history : History} {handler : Handler WriterLog}
    (run : Run Unreferenced PlainInfo history handler) (within : history.Within) :
    handler.user.writer = handler.user.calls.foldl
        (fun writer call => bufferEvent writer call.1 call.2) Writer.start ∧
      ∃ order : List Commit, order.Subperm history.commits ∧
        handler.user.calls = order.map history.record := by
  obtain ⟨waiting, missing, ledger, faithful⟩ :=
    run.invariant (fun _ _ plain => plain) within
      (show Faithful ⟨[], []⟩ (handleStart .start) fun _ => [] from
        ⟨rfl, ⟨[], .nil, by simp, by simp, rfl⟩, by simp⟩)
      (fun id ledger faithful condition =>
        faithful.allocate ledger condition id)
      (fun ledger faithful ready plain started info informed =>
        faithful.inform ledger ready started (plain started info).1 informed)
      (fun ledger faithful within ready _ traced =>
        faithful.trace ledger within ready traced)
  obtain ⟨order, nodup, inCommits, -, calls⟩ := faithful.written
  exact ⟨faithful.consistent, order, subperm_of_subset nodup inCommits, calls⟩

/-- An event is committed before the event that it refers to.  When both are
written, a container is used again. -/
def forwardScript : List Action :=
  [.alloc ⟨0, 0⟩, .alloc ⟨0, 1⟩, .alloc ⟨0, 2⟩, .commit (infoCommit 0),
    .commit (nullCommit 2 0 [1] oneRef_fit), .commit (nullCommit 1 1 [] noRefs_fit),
    .alloc ⟨0, 3⟩, .commit (nullCommit 3 0 [] noRefs_fit)]

theorem references_as_committed_forward :
    ∃ state, play forwardScript = some state ∧ state.2.nb < state.1.names.length ∧
      Run Unreferenced PlainInfo state.1 state.2 ∧ state.1.Within ∧
      state.2.user.writer = state.2.user.calls.foldl
        (fun writer call => bufferEvent writer call.1 call.2) Writer.start ∧
      ∃ order : List Commit, order.Subperm state.1.commits ∧
        state.2.user.calls = order.map state.1.record := by
  have played : (play forwardScript).isSome = true := by decide +kernel
  obtain ⟨state, performed⟩ := Option.isSome_iff_exists.mp played
  have counted : ∀ state ∈ play forwardScript,
      state.1.Balanced ∧ state.2.nb < state.1.names.length := by
    decide +kernel
  obtain ⟨balanced, reused⟩ := counted state performed
  have within : state.1.Within := fun commit member =>
    ⟨(balanced commit member).1.le, (balanced commit member).2⟩
  have meets : ∀ n < forwardScript.length, ∀ action ∈ forwardScript[n]?,
      ∀ middle ∈ play (forwardScript.take n), Meets Unreferenced PlainInfo middle.2 action := by
    decide +kernel
  have run := run_meets performed meets
  exact ⟨state, performed, reused, run, within, references_as_committed run within⟩

/-- Two events of a component are referenced by an event of another one that
is committed before them.  The first of them is written and its container used
again before the second one is committed. -/
def reusingScript : List Action :=
  [.alloc ⟨0, 0⟩, .alloc ⟨1, 0⟩, .commit (infoCommit 0),
    .commit (infoCommit 1), .alloc ⟨1, 1⟩, .alloc ⟨1, 2⟩, .alloc ⟨0, 1⟩,
    .commit (nullCommit 4 0 [2, 3] (by decide)),
    .commit (nullCommit 2 1 [] noRefs_fit), .alloc ⟨1, 3⟩,
    .commit (nullCommit 3 1 [] noRefs_fit),
    .commit (nullCommit 5 0 [] noRefs_fit)]

theorem reference_renamed :
    ∃ state, play reusingScript = some state ∧
      Run (fun _ => True) (fun _ _ => True) state.1 state.2 ∧
      state.1.Balanced ∧
      ∃ call ∈ state.2.user.calls, call ∉ state.1.commits.map state.1.record := by
  have played : (play reusingScript).isSome = true := by decide +kernel
  obtain ⟨state, found⟩ := Option.isSome_iff_exists.mp played
  have property : ∀ state ∈ play reusingScript, state.1.Balanced ∧
      ∃ call ∈ state.2.user.calls, call ∉ state.1.commits.map state.1.record := by
    decide +kernel
  exact ⟨state, found, run_play found, property state found⟩

end Reverse.Decopus
