import Mathlib.Data.List.TakeWhile
import Reverse.Decopus.Draining

/-!
# Waking the events that waited for a reference

When an event is committed, each event that refers to it has one reference less
to wait for.  Whatever this sets in motion writes events from the front of the
queues and leaves every queue blocked again, and it ends.
-/

namespace Reverse.Decopus

open Tasks Function
open List hiding after

abbrev Waiting := BitVec 8 → List EventPtr

/-- The queues of all components. -/
structure Queues (handler : Handler WriterLog) (waiting : Waiting) :
    Prop where
  queue : ∀ devid, Queue handler devid (waiting devid)
  device : ∀ devid, ∀ e ∈ waiting devid, (handler.events e).id.devid = devid

/-- No event at the front of a queue can be written. -/
def Blocked (handler : Handler WriterLog) (waiting : Waiting) : Prop :=
  ∀ devid, ∀ e ∈ (waiting devid).head?, handler.ready e = false

/-- The events `ran` have been written, in this order, and have left the
queues.  Those that were already referenced as often as expected have been put
back with their containers. -/
structure Advance (before : Handler WriterLog) (waiting : Waiting)
    (after : Handler WriterLog) (left : Waiting) (ran : List EventPtr) :
    Prop where
  nb : after.nb = before.nb
  births : after.births = before.births
  comp : after.comp = before.comp
  startDone : after.startDone = before.startDone
  kept : ∀ e, (before.events e).Kept (after.events e)
  commited : ∀ e, (before.events e).commited = true →
    (after.events e).commited = true
  outside : ∀ e, (∀ devid, e ∉ waiting devid) →
    after.events e = before.events e
  done : ∀ e ∈ ran, (after.events e).init.done = true ∧
    (after.events e).go.done = true
  still : ∀ e, e ∉ ran →
    (after.events e).init.done = (before.events e).init.done ∧
      (after.events e).go.done = (before.events e).go.done
  user : after.user =
    (ran.map before.record).foldl WriterLog.write before.user
  returned : ∃ back : List EventPtr,
    back.Perm (ran.filter fun e => (before.events e).missfol = 0) ∧
      after.list = (back.flatMap before.conts).reverse ++ before.list ∧
      after.recycled = before.recycled ++
        (back.flatMap before.conts).map fun e => (before.events e).serial
  split : ∀ devid, ∃ front, waiting devid = front ++ left devid ∧ ∀ e ∈ front, e ∈ ran
  queued : ∀ e ∈ ran, ∃ devid, e ∈ waiting devid
  gone : ∀ e ∈ ran, ∀ devid, e ∉ left devid
  nodup : ran.Nodup

namespace Advance

variable {before middle after : Handler WriterLog}
  {waiting still left : Waiting} {ran more : List EventPtr}

section

variable (advance : Advance before waiting after left ran)

include advance

theorem waited (member : e ∈ left devid) : e ∈ waiting devid := by
  obtain ⟨front, split, -⟩ := advance.split devid
  rw [split]
  exact mem_append_right _ member

theorem left_or_ran (member : e ∈ waiting devid) : e ∈ left devid ∨ e ∈ ran := by
  obtain ⟨front, split, inRan⟩ := advance.split devid
  rw [split, mem_append] at member
  rcases member with gone | stays
  · exact .inr (inRan e gone)
  · exact .inl stays

theorem conts : after.conts = before.conts := by
  funext e
  simp [Handler.conts, (advance.kept e).refnext]

end

theorem trans (first : Advance before waiting middle still ran)
    (second : Advance middle still after left more) :
    Advance before waiting after left (ran ++ more) where
  nb := second.nb.trans first.nb
  births := second.births.trans first.births
  comp := second.comp.trans first.comp
  startDone := second.startDone.trans first.startDone
  kept e := (first.kept e).trans (second.kept e)
  commited e was := second.commited e (first.commited e was)
  outside e apart := by
    rw [second.outside e fun devid member => apart devid (first.waited member),
      first.outside e apart]
  done e member := by
    by_cases later : e ∈ more
    · exact second.done e later
    · have earlier := (mem_append.mp member).resolve_right later
      rw [(second.still e later).1, (second.still e later).2]
      exact first.done e earlier
  still e member := by
    have notFirst : e ∉ ran := fun inRan =>
      member (mem_append_left _ inRan)
    have notSecond : e ∉ more := fun inMore =>
      member (mem_append_right _ inMore)
    rw [(second.still e notSecond).1, (second.still e notSecond).2]
    exact first.still e notFirst
  user := by
    rw [second.user, first.user, Handler.record_kept first.kept, map_append, foldl_append]
  returned := by
    obtain ⟨back, permutation, list, recycled⟩ := first.returned
    obtain ⟨later, permutation', list', recycled'⟩ := second.returned
    refine ⟨back ++ later, ?_, ?_, ?_⟩
    · rw [filter_append]
      apply permutation.append
      simpa [(first.kept _).missfol] using permutation'
    · rw [list', list, first.conts]
      simp
    · rw [recycled', recycled, first.conts]
      simp [(first.kept _).serial]
  split devid := by
    obtain ⟨front, split, inRan⟩ := first.split devid
    obtain ⟨next, split', inMore⟩ := second.split devid
    refine ⟨front ++ next, ?_, ?_⟩
    · rw [split, split', append_assoc]
    · intro e member
      rcases mem_append.mp member with earlier | later
      · exact mem_append_left _ (inRan e earlier)
      · exact mem_append_right _ (inMore e later)
  queued e member := by
    rcases mem_append.mp member with earlier | later
    · exact first.queued e earlier
    · obtain ⟨devid, queued⟩ := second.queued e later
      exact ⟨devid, first.waited queued⟩
  gone e member devid stays := by
    rcases mem_append.mp member with earlier | later
    · exact first.gone e earlier devid (second.waited stays)
    · exact second.gone e later devid stays
  nodup := by
    refine nodup_append.mpr ⟨first.nodup, second.nodup, ?_⟩
    rintro e earlier _ later rfl
    obtain ⟨devid, queued⟩ := second.queued e later
    exact first.gone e earlier devid queued

theorem modify (member : e ∈ waiting devid) (kept : ∀ event : EventT,
      event.Kept (change event) ∧
        (event.commited = true → (change event).commited = true) ∧
        (change event).init.done = event.init.done ∧
        (change event).go.done = event.go.done) :
    Advance handler waiting (handler.modify e change) waiting [] where
  nb := rfl
  births := rfl
  comp := rfl
  startDone := rfl
  kept x := by
    rw [Handler.modify_events]
    split
    · exact (kept _).1
    · exact .refl _
  commited x was := by
    rw [Handler.modify_events]
    split
    · exact (kept _).2.1 was
    · exact was
  outside x apart := by
    rw [Handler.modify_events, if_neg]
    rintro rfl
    exact apart devid member
  done x inRan := nomatch inRan
  still x _ := by
    rw [Handler.modify_events]
    split
    · exact (kept _).2.2
    · exact ⟨rfl, rfl⟩
  user := rfl
  returned := ⟨[], .refl _, by simp, by simp⟩
  split devid := ⟨[], rfl, by simp⟩
  queued x inRan := nomatch inRan
  gone x inRan := nomatch inRan
  nodup := .nil

theorem refl (handler : Handler WriterLog) (waiting : Waiting) :
    Advance handler waiting handler waiting [] where
  nb := rfl
  births := rfl
  comp := rfl
  startDone := rfl
  kept _ := .refl _
  commited _ was := was
  outside _ _ := rfl
  done _ inRan := nomatch inRan
  still _ _ := ⟨rfl, rfl⟩
  user := rfl
  returned := ⟨[], .refl _, by simp, by simp⟩
  split _ := ⟨[], rfl, by simp⟩
  queued _ inRan := nomatch inRan
  gone _ inRan := nomatch inRan
  nodup := .nil

end Advance

section

variable {handler : Handler WriterLog} {waiting : Waiting} {devid : BitVec 8}
  {ran left : List EventPtr}

theorem Queues.apart (queues : Queues handler waiting)
    (member : e ∈ waiting devid) (again : e ∈ waiting other) : devid = other :=
  (queues.device devid e member).symm.trans (queues.device other e again)

theorem drained_outside (notRan : e ∉ ran) (notLeft : e ∉ left) :
    (drained handler devid ran left).events e = handler.events e := by
  have notHead : left.head? ≠ some e := fun head => notLeft (mem_of_mem_head? head)
  simp [drained, notRan, notHead]

theorem drained_ready : (drained handler devid ran left).ready = handler.ready := by
  funext e
  unfold Handler.ready
  simp only [drained]
  split
  · rfl
  · split <;> rfl

theorem Linked.drop (linked : Linked events devid (front ++ queue)) :
    Linked events devid queue := by
  induction front with
  | nil => exact linked
  | cons e front ih =>
    apply ih
    cases rest : front ++ queue with
    | nil => trivial
    | cons next rest' =>
      rw [cons_append, rest] at linked
      exact linked.2.2

theorem Queue.drained (queued : Queue handler devid (ran ++ left)) :
    Queue (drained handler devid ran left) devid left := by
  have nodup := nodup_append.mp queued.nodup
  have notRan : ∀ e ∈ left, e ∉ ran := fun e inLeft inRan => nodup.2.2 e inRan e inLeft rfl
  refine ⟨queued.linked.drop.congr ?_ ?_, ?_, ?_, nodup.2.1⟩
  · intro e member
    simp only [Decopus.drained, if_neg (notRan e member)]
    split <;> rfl
  · intro e member
    have notHead : left.head? ≠ some e := by
      cases left with
      | nil => simp
      | cons first left =>
        rintro ⟨⟩
        exact (nodup_cons.mp nodup.2.1).1 member
    simp only [Decopus.drained, if_neg (notRan e (mem_of_mem_tail member)), if_neg notHead]
  · intro e head
    have isHead : left.head? = some e := head
    simp only [Decopus.drained, if_neg (notRan e (mem_of_mem_head? head)), if_pos isHead]
  · simp [Decopus.drained]

theorem Queue.congr (queued : Queue handler devid queue)
    (events : ∀ e ∈ queue, (after.events e).init = (handler.events e).init)
    (fifo : after.fifos (.comp devid) = handler.fifos (.comp devid)) :
    Queue after devid queue where
  linked := queued.linked.congr
    (fun e member => by rw [events e member])
    (fun e member => by rw [events e (mem_of_mem_tail member)])
  first e head := by
    rw [events e (mem_of_mem_head? head)]
    exact queued.first e head
  last := fifo.trans queued.last
  nodup := queued.nodup

theorem Queues.drained (queues : Queues handler waiting) (split : waiting devid = ran ++ left) :
    Queues (drained handler devid ran left) (update waiting devid left) := by
  constructor
  · intro other
    by_cases same : other = devid
    · subst same
      rw [update_self]
      exact Queue.drained (split ▸ queues.queue other)
    · rw [update_of_ne same]
      apply (queues.queue other).congr
      · intro e member
        have apart : e ∉ waiting devid := fun again =>
          same (queues.apart member again)
        rw [split, mem_append, not_or] at apart
        rw [drained_outside apart.1 apart.2]
      · simp [Decopus.drained, same]
  · intro other e member
    rw [(drained_kept handler devid ran left e).id]
    by_cases same : other = devid
    · subst same
      rw [update_self] at member
      exact queues.device other e (split ▸ mem_append_right _ member)
    · rw [update_of_ne same] at member
      exact queues.device other e member

theorem Advance.drained (queues : Queues handler waiting) (split : waiting devid = ran ++ left) :
    Advance handler waiting (drained handler devid ran left) (update waiting devid left) ran where
  nb := rfl
  births := rfl
  comp := rfl
  startDone := rfl
  kept := drained_kept handler devid ran left
  commited e was := by
    simp only [Decopus.drained]
    split
    · exact was
    · split <;> exact was
  outside e apart := by
    have notQueued := apart devid
    rw [split, mem_append, not_or] at notQueued
    exact drained_outside notQueued.1 notQueued.2
  done e member := by simp [Decopus.drained, member, EventT.finish]
  still e member := by
    simp only [Decopus.drained, if_neg member]
    split <;> exact ⟨rfl, rfl⟩
  user := rfl
  returned := by
    refine ⟨ran.reverse.filter fun e => (handler.events e).missfol = 0, ?_, rfl, rfl⟩
    exact ran.reverse_perm.filter _
  split other := by
    by_cases same : other = devid
    · subst same
      exact ⟨ran, by rw [update_self, split], fun e member => member⟩
    · exact ⟨[], by rw [update_of_ne same, nil_append], by simp⟩
  queued e member := ⟨devid, split ▸ mem_append_left _ member⟩
  gone e member other stays := by
    have queued : e ∈ waiting devid := split ▸ mem_append_left _ member
    by_cases same : other = devid
    · subst same
      rw [update_self] at stays
      have nodup := (queues.queue other).nodup
      rw [split] at nodup
      exact (nodup_append.mp nodup).2.2 e member e stays rfl
    · rw [update_of_ne same] at stays
      exact same (queues.apart queued stays).symm
  nodup := by
    have nodup := (queues.queue devid).nodup
    rw [split] at nodup
    exact (nodup_append.mp nodup).1

theorem Linked.cnt_tail (linked : Linked events devid queue)
    (member : e ∈ queue.tail) : (events e).init.cnt = 1 := by
  induction queue with
  | nil => cases member
  | cons first rest ih =>
    cases rest with
    | nil => cases member
    | cons next rest =>
      obtain ⟨-, count, later⟩ := linked
      rcases mem_cons.mp member with rfl | behind
      · exact count
      · exact ih later behind

theorem drained_counters (e : EventPtr) :
    ((drained handler devid ran left).events e).missref = (handler.events e).missref ∧
      ((drained handler devid ran left).events e).commited = (handler.events e).commited := by
  simp only [drained]
  split
  · exact ⟨rfl, rfl⟩
  · split <;> exact ⟨rfl, rfl⟩

theorem ready_iff :
    handler.ready e = true ↔
      (handler.events e).commited = true ∧ (handler.events e).missref = 0 := by
  simp [Handler.ready]

/-- A check of a waiting event ends, and leaves the queues blocked if this was
the only one that could be written. -/
theorem check_waiting (queues : Queues handler waiting) (member : e ∈ waiting devid)
    (blocked : ∀ other, ∀ x ∈ (waiting other).head?, x ≠ e → handler.ready x = false) :
    ∃ after left ran,
      Runs (exec hwetraceWrite) [.checkInit e] handler after ∧
        Queues after left ∧ Blocked after left ∧
        Advance handler waiting after left ran ∧
        (∀ x, (after.events x).missref = (handler.events x).missref ∧
          (after.events x).commited = (handler.events x).commited) ∧
        ∀ x ∈ ran, handler.ready x = true := by
  have queued := queues.queue devid
  cases split : waiting devid with
  | nil =>
    rw [split] at member
    cases member
  | cons first rest =>
    by_cases isFirst : first = e
    · subst isFirst
      have parts : waiting devid =
          (first :: rest).takeWhile handler.ready ++ (first :: rest).dropWhile handler.ready :=
        split.trans takeWhile_append_dropWhile.symm
      refine ⟨_, _, _, runs_checkInit (split ▸ queued), queues.drained parts,
        ?_, .drained queues parts, drained_counters, ?_⟩
      · intro other x head
        rw [drained_ready]
        by_cases same : other = devid
        · subst same
          rw [update_self] at head
          have stopped := List.head?_dropWhile_not handler.ready (first :: rest)
          rw [show _ = some x from head] at stopped
          exact stopped
        · rw [update_of_ne same] at head
          apply blocked other x head
          rintro rfl
          exact same (queues.apart (mem_of_mem_head? head) member)
      · intro x ran
        exact mem_takeWhile_imp ran
    · have behind : e ∈ (waiting devid).tail := by
        rw [split] at member ⊢
        exact (mem_cons.mp member).resolve_left (Ne.symm isFirst)
      have count := queued.linked.cnt_tail behind
      refine ⟨handler, waiting, [], ?_, queues, ?_, .refl handler waiting,
        fun _ => ⟨rfl, rfl⟩, by simp⟩
      · exact .call (exec_checkInit_blocked (.inr (by omega))) (runs_nil _)
      · intro other x head
        apply blocked other x head
        rintro rfl
        have same := queues.apart (mem_of_mem_head? head) member
        subst same
        rw [split] at head
        exact isFirst (Option.some.inj head)

theorem Queues.modify (queues : Queues handler waiting) (e : EventPtr)
    (same : ∀ event : EventT, (change event).init = event.init ∧ (change event).id = event.id) :
    Queues (handler.modify e change) waiting := by
  have unchanged : ∀ x,
      ((handler.modify e change).events x).init = (handler.events x).init ∧
        ((handler.modify e change).events x).id = (handler.events x).id := by
    intro x
    rw [Handler.modify_events]
    split
    · exact same _
    · exact ⟨rfl, rfl⟩
  constructor
  · intro devid
    exact (queues.queue devid).congr (fun x _ => (unchanged x).1) rfl
  · intro devid x member
    rw [(unchanged x).2]
    exact queues.device devid x member

end

/-- Between two checks: the events of `missing` are not committed, and the
followers in `rest` have not been told about the event that is. -/
structure Awaiting (handler : Handler WriterLog) (waiting : Waiting)
    (missing : EventPtr → List EventPtr) (rest : List EventPtr) : Prop where
  queues : Queues handler waiting
  blocked : Blocked handler waiting
  missref : ∀ devid, ∀ e ∈ waiting devid,
    (handler.events e).missref = (missing e).length + rest.count e
  owing : ∀ e, missing e ≠ [] → ∃ devid, e ∈ waiting devid
  told : ∀ e ∈ rest, ∃ devid, e ∈ waiting devid

section

variable (awaiting : Awaiting handler waiting missing rest)

include awaiting

theorem Awaiting.congr (fifos : after.fifos = handler.fifos) (events : ∀ devid, ∀ e ∈ waiting devid,
      (after.events e).id = (handler.events e).id ∧
        (after.events e).init = (handler.events e).init ∧
        (after.events e).commited = (handler.events e).commited ∧
        (after.events e).missref = (handler.events e).missref) :
    Awaiting after waiting missing rest where
  queues :=
    { queue := fun devid => (awaiting.queues.queue devid).congr
        (fun e member => (events devid e member).2.1) (by rw [fifos])
      device := fun devid e member => by
        rw [(events devid e member).1]
        exact awaiting.queues.device devid e member }
  blocked devid e head := by
    obtain ⟨-, -, commited, missref⟩ := events devid e (mem_of_mem_head? head)
    rw [Handler.ready, commited, missref]
    exact awaiting.blocked devid e head
  missref devid e member := by
    rw [(events devid e member).2.2.2]
    exact awaiting.missref devid e member
  owing := awaiting.owing
  told := awaiting.told

theorem runs_wake :
    ∃ after left ran,
      Runs (exec hwetraceWrite) [.wake rest] handler after ∧
        Awaiting after left missing [] ∧
        Advance handler waiting after left ran ∧
        (∀ e, (after.events e).commited = (handler.events e).commited) ∧
        ∀ e ∈ ran, (handler.events e).commited = true := by
  induction rest generalizing handler waiting with
  | nil =>
    exact ⟨handler, waiting, [], .call rfl (runs_nil _), awaiting,
      .refl handler waiting, fun _ => rfl, by simp⟩
  | cons follower rest ih =>
    obtain ⟨devid, member⟩ := awaiting.told follower mem_cons_self
    let told := handler.modify follower fun event =>
      { event with missref := event.missref - 1 }
    have queues : Queues told waiting := awaiting.queues.modify follower fun _ => ⟨rfl, rfl⟩
    have missref : ∀ other, ∀ e ∈ waiting other,
        (told.events e).missref = (missing e).length + rest.count e := by
      intro other e queued
      have before := awaiting.missref other e queued
      rw [count_cons] at before
      rw [Handler.modify_events]
      split
      · subst follower
        simp only [beq_self_eq_true, if_true] at before
        simp only [before]
        omega
      · have other : (follower == e) = false := by
          simpa using Ne.symm ‹¬ e = follower›
        simpa [other] using before
    have blocked : ∀ other, ∀ e ∈ (waiting other).head?, e ≠ follower → told.ready e = false := by
      intro other e head differ
      have before := awaiting.blocked other e head
      simpa [Handler.ready, told, differ] using before
    obtain ⟨middle, still, ran, checked, queues', blocked', advance,
      counters, ready⟩ := check_waiting queues member blocked
    have free : ∀ e ∈ ran, missing e = [] ∧ rest.count e = 0 := by
      intro e inRan
      obtain ⟨other, queued⟩ := advance.queued e inRan
      have counted := missref other e queued
      rw [(ready_iff.mp (ready e inRan)).2] at counted
      exact ⟨eq_nil_of_length_eq_zero (by omega), by omega⟩
    have woken : Awaiting middle still missing rest := by
      refine ⟨queues', blocked', ?_, ?_, ?_⟩
      · intro other e queued
        rw [(counters e).1]
        exact missref other e (advance.waited queued)
      · intro e owed
        obtain ⟨other, queued⟩ := awaiting.owing e owed
        rcases advance.left_or_ran queued with stays | gone
        · exact ⟨other, stays⟩
        · exact absurd (free e gone).1 owed
      · intro e later
        obtain ⟨other, queued⟩ := awaiting.told e (.tail _ later)
        rcases advance.left_or_ran queued with stays | gone
        · exact ⟨other, stays⟩
        · exact absurd later (count_eq_zero.mp (free e gone).2)
    obtain ⟨after, left, more, woke, awaiting', advance', commited, were⟩ := ih woken
    have same : ∀ e, (told.events e).commited = (handler.events e).commited := by
      intro e
      rw [Handler.modify_events]
      split <;> rfl
    have start : Advance handler waiting told waiting [] :=
      .modify member fun _ => ⟨⟨rfl, rfl, rfl, rfl, rfl⟩, id, rfl, rfl⟩
    refine ⟨after, left, ran ++ more, .call rfl (checked.cons woke), awaiting',
      start.trans (advance.trans advance'), ?_, ?_⟩
    · intro e
      rw [commited e, (counters e).2, same e]
    · intro e member
      rcases mem_append.mp member with inRan | inMore
      · rw [← same e]
        exact (ready_iff.mp (ready e inRan)).1
      · rw [← same e, ← (counters e).2]
        exact were e inMore

theorem runs_wake_commit (member : e ∈ waiting devid)
    (fresh : (handler.events e).commited = false) :
    ∃ after left ran,
      Runs (exec hwetraceWrite) [.wake rest, .commit e] handler after ∧
        Awaiting after left missing [] ∧
        Advance handler waiting after left ran ∧
        (after.events e).commited = true ∧
        ∀ x ≠ e, (after.events x).commited = (handler.events x).commited := by
  obtain ⟨woken, still, ran, woke, awaiting', advance, same, were⟩ := runs_wake awaiting
  have waits : e ∈ still devid := by
    apply (advance.left_or_ran member).resolve_right
    intro inRan
    rw [were e inRan] at fresh
    cases fresh
  let committed := woken.modify e fun event => { event with commited := true }
  have queues : Queues committed still := awaiting'.queues.modify e fun _ => ⟨rfl, rfl⟩
  have blocked : ∀ other, ∀ x ∈ (still other).head?, x ≠ e → committed.ready x = false := by
    intro other x head differ
    have before := awaiting'.blocked other x head
    simpa [Handler.ready, committed, differ] using before
  obtain ⟨after, left, more, checked, queues', blocked', advance',
    counters, ready⟩ := check_waiting queues waits blocked
  have start : Advance woken still committed still [] :=
    .modify waits fun _ => ⟨⟨rfl, rfl, rfl, rfl, rfl⟩, fun _ => rfl, rfl, rfl⟩
  have missref : ∀ other, ∀ x ∈ still other, (committed.events x).missref = (missing x).length := by
    intro other x queued
    have before := awaiting'.missref other x queued
    rw [Handler.modify_events]
    split <;> simpa using before
  refine ⟨after, left, _, woke.cons (.call rfl checked),
    ⟨queues', blocked', ?_, ?_, by simp⟩,
    advance.trans (start.trans advance'), ?_, ?_⟩
  · intro other x queued
    rw [(counters x).1, missref other x (advance'.waited queued)]
    simp
  · intro x owed
    obtain ⟨other, queued⟩ := awaiting'.owing x owed
    rcases advance'.left_or_ran queued with stays | gone
    · exact ⟨other, stays⟩
    · have counted := missref other x queued
      rw [(ready_iff.mp (ready x gone)).2] at counted
      exact absurd (eq_nil_of_length_eq_zero (by omega)) owed
  · rw [(counters e).2, Handler.modify_events, if_pos rfl]
  · intro x differ
    rw [(counters x).2, Handler.modify_events, if_neg differ, same x]

end

end Reverse.Decopus
