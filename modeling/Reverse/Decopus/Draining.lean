import Reverse.Decopus.TraceWriter

/-!
# The fifo of a component

The events of a component that are committed but not written form a queue: the
first one is blocked by a missing reference, each other one by the event before
it.  A check of the first event writes all events in front that miss no
reference.  The calls nest, so these events are finished in the reverse order.
-/

namespace Reverse.Decopus

open Tasks
open List hiding after

/-- The container of an event, and the counter that only commits change. -/
structure EventT.Kept (before after : EventT) : Prop where
  id : after.id = before.id
  hwe : after.hwe = before.hwe
  refnext : after.refnext = before.refnext
  serial : after.serial = before.serial
  missfol : after.missfol = before.missfol

theorem EventT.Kept.refl (event : EventT) : event.Kept event :=
  ⟨rfl, rfl, rfl, rfl, rfl⟩

theorem EventT.Kept.trans {before middle after : EventT}
    (first : before.Kept middle) (second : middle.Kept after) :
    before.Kept after :=
  ⟨second.id.trans first.id, second.hwe.trans first.hwe,
    second.refnext.trans first.refnext, second.serial.trans first.serial,
    second.missfol.trans first.missfol⟩

/-- The containers that are put back when the events have been written. -/
def Handler.returned (handler : Handler WriterLog) (ran : List EventPtr) : List EventPtr :=
  (ran.reverse.filter fun e => (handler.events e).missfol = 0).flatMap
    handler.conts

section

variable {before after : Handler WriterLog}

theorem Handler.record_kept (kept : ∀ e, (before.events e).Kept (after.events e)) :
    after.record = before.record := by
  have conts : after.cont = before.cont := by
    funext e
    simp [Handler.cont, (kept _).id, (kept e).hwe]
  funext e
  simp [Handler.record, conts, (kept e).refnext]

theorem Handler.returned_kept (kept : ∀ e, (before.events e).Kept (after.events e)) :
    after.returned = before.returned := by
  have conts : after.conts = before.conts := by
    funext e
    simp [Handler.conts, (kept e).refnext]
  funext ran
  simp [Handler.returned, conts, (kept _).missfol]

end

/-- A written event: nothing waits for it and it is past the stage `go`. -/
def EventT.finish (event : EventT) : EventT :=
  { event with
    followers := []
    init := { event.init with usrfol := [], done := true }
    go := { event.go with done := true } }

theorem foldl_eventRecycle (handler : Handler υ) (conts : List EventPtr) :
    conts.foldl eventRecycle handler =
      { handler with
        list := conts.reverse ++ handler.list
        recycled := handler.recycled ++ conts.map fun cont => (handler.events cont).serial } := by
  induction conts generalizing handler with
  | nil => simp
  | cons cont conts ih =>
    rw [foldl_cons, ih]
    simp [eventRecycle]

/-- What follows the loop of `check_init`. -/
def settle (handler : Handler WriterLog) (e : EventPtr) : Handler WriterLog :=
  let finished := handler.modify e EventT.finish
  if (handler.events e).missfol = 0 then
    (handler.conts e).foldl eventRecycle finished
  else finished

theorem exec_checkRet (handler : Handler WriterLog) (e : EventPtr) :
    exec hwetraceWrite (.checkRet e) (handler.modify e EventT.finish) = ([], settle handler e) := by
  have conts : (handler.modify e EventT.finish).conts e = handler.conts e := by
    simp [Handler.conts, EventT.finish]
  simp only [exec, settle, conts]
  by_cases counted : (handler.events e).missfol = 0
  · simp [EventT.finish, counted, hwetraceWrite]
  · simp [EventT.finish, counted]

theorem runs_initDone (handler : Handler WriterLog) (e : EventPtr) :
    Runs (exec hwetraceWrite) [.initDone e] handler (settle handler e) := by
  have passed : ∀ handler : Handler WriterLog,
      (handler.events e).init.done = true →
      exec hwetraceWrite (.checkGo e) handler = ([.goDone e], handler) := by
    intro handler done
    simp [exec, done, hwetraceWrite]
  apply Runs.call rfl
  apply Runs.call (passed _ (by simp))
  apply Runs.call rfl
  rw [Handler.modify_modify]
  exact Runs.call (exec_checkRet handler e) (runs_nil _)

/-- The queue of a component as its events are linked: the fifo has the last
one, and each one is released by the one before it. -/
def Linked (events : EventPtr → EventT) (devid : BitVec 8) : List EventPtr → Prop
  | [] => True
  | [e] => (events e).init.usrfol = [.fifo (.comp devid)]
  | e :: next :: rest =>
    (events e).init.usrfol = [.barrier next .init, .fifo (.comp devid)] ∧
      (events next).init.cnt = 1 ∧ Linked events devid (next :: rest)

structure Queue (handler : Handler WriterLog) (devid : BitVec 8)
    (queue : List EventPtr) : Prop where
  linked : Linked handler.events devid queue
  first : ∀ e ∈ queue.head?, (handler.events e).init.cnt = 0
  last : handler.fifos (.comp devid) = queue.getLast?.map fun e => (e, .init)
  nodup : queue.Nodup

def Handler.ready (handler : Handler WriterLog) (e : EventPtr) : Bool :=
  (handler.events e).commited && (handler.events e).missref == 0

/-- The events `ran` have been written and the queue is what is left. -/
def drained (handler : Handler WriterLog) (devid : BitVec 8)
    (ran left : List EventPtr) : Handler WriterLog :=
  { handler with
    events := fun e =>
      let event := handler.events e
      if e ∈ ran then
        { event.finish with init := { event.finish.init with cnt := 0 } }
      else if left.head? = some e then
        { event with init := { event.init with cnt := 0 } }
      else event
    list := (handler.returned ran).reverse ++ handler.list
    fifos := Function.update handler.fifos (.comp devid) (left.getLast?.map fun e => (e, .init))
    user := (ran.map handler.record).foldl WriterLog.write handler.user
    recycled := handler.recycled ++ (handler.returned ran).map fun cont =>
      (handler.events cont).serial }

theorem drained_kept (handler : Handler WriterLog) (devid : BitVec 8)
    (ran left : List EventPtr) (x : EventPtr) :
    (handler.events x).Kept ((drained handler devid ran left).events x) := by
  simp only [drained]
  split
  · exact ⟨rfl, rfl, rfl, rfl, rfl⟩
  · split <;> exact ⟨rfl, rfl, rfl, rfl, rfl⟩

theorem drained_nil (queued : Queue handler devid queue) :
    drained handler devid [] queue = handler := by
  apply Handler.ext
  · funext e
    by_cases head : queue.head? = some e
    · have counted := queued.first e head
      simp [drained, head, ← counted]
    · simp [drained, head]
  · simp [drained, Handler.returned]
  · rfl
  · simp [drained, ← queued.last]
  · rfl
  · rfl
  · rfl
  · rfl
  · simp [drained, Handler.returned]

theorem Linked.congr (linked : Linked events devid queue)
    (links : ∀ e ∈ queue, (after e).init.usrfol = (events e).init.usrfol)
    (counts : ∀ e ∈ queue.tail, (after e).init.cnt = (events e).init.cnt) :
    Linked after devid queue := by
  induction queue with
  | nil => trivial
  | cons e rest ih =>
    cases rest with
    | nil =>
      rw [Linked, links e (by simp)]
      exact linked
    | cons next rest =>
      obtain ⟨link, count, later⟩ := linked
      refine ⟨?_, ?_, ?_⟩
      · rw [links e (by simp), link]
      · rw [counts next (by simp), count]
      · apply ih later
        · intro x member
          exact links x (.tail _ member)
        · intro x member
          exact counts x (.tail _ member)

theorem exec_checkInit_ready (ready : handler.ready e = true)
    (count : (handler.events e).init.cnt = 0) :
    exec hwetraceWrite (.checkInit e) handler =
      ([.unlock e .init, .initDone e], writeEvent e handler) := by
  simp only [Handler.ready, Bool.and_eq_true, beq_iff_eq] at ready
  simp [exec, ready, count, hwetraceWrite]

theorem exec_checkInit_blocked
    (blocked : handler.ready e = false ∨ (handler.events e).init.cnt ≠ 0) :
    exec hwetraceWrite (.checkInit e) handler = ([], handler) := by
  rw [exec, if_neg]
  rintro ⟨commited, missref, count⟩
  simp [Handler.ready, commited, missref, count] at blocked

theorem runs_unlock_last (links : (handler.events e).init.usrfol = [.fifo fifo]) :
    Runs (exec hwetraceWrite) [.unlock e .init] handler (rmFrfifo handler fifo e) := by
  apply Runs.call rfl
  rw [EventT.stage, links]
  exact .call rfl (.call rfl (runs_nil _))

theorem runs_unlock_next
    (links : (handler.events e).init.usrfol = [.barrier later .init, .fifo fifo])
    (checked : Runs (exec hwetraceWrite) [.checkInit later] (freeBarrier handler later .init) after) :
    Runs (exec hwetraceWrite) [.unlock e .init] handler (rmFrfifo after fifo e) := by
  apply Runs.call rfl
  rw [EventT.stage, links]
  apply Runs.call rfl
  exact checked.cons (.call rfl (.call rfl (runs_nil _)))

/-- The first event has been written and the next one is released. -/
@[simps! list user recycled]
def released (handler : Handler WriterLog) (e next : EventPtr) : Handler WriterLog :=
  freeBarrier (writeEvent e handler) next .init

theorem released_events (handler : Handler WriterLog) (e later x : EventPtr) :
    (released handler e later).events x =
      if x = later then
        { handler.events x with
          init :=
            { (handler.events x).init with
              cnt := (handler.events x).init.cnt - 1 } }
      else handler.events x := by
  simp [released, freeBarrier, writeEvent, EventT.setStage, EventT.stage]

theorem released_ready (handler : Handler WriterLog) (e later : EventPtr) :
    (released handler e later).ready = handler.ready := by
  funext x
  unfold Handler.ready
  rw [released_events]
  split <;> rfl

theorem released_kept (handler : Handler WriterLog) (e later x : EventPtr) :
    (handler.events x).Kept ((released handler e later).events x) := by
  rw [released_events]
  split <;> exact ⟨rfl, rfl, rfl, rfl, rfl⟩

theorem Queue.released (queued : Queue handler devid (e :: later :: rest)) :
    Queue (released handler e later) devid (later :: rest) := by
  obtain ⟨link, count, linked⟩ := queued.linked
  have nodup := nodup_cons.mp queued.nodup |>.2
  refine ⟨linked.congr ?_ ?_, ?_, ?_, nodup⟩
  · intro x _
    rw [released_events]
    split <;> rfl
  · intro x member
    have differ : x ≠ later := by
      intro same
      exact (nodup_cons.mp nodup).1 (same ▸ member)
    rw [released_events, if_neg differ]
  · intro x head
    cases head
    rw [released_events, if_pos rfl]
    simp [count]
  · exact queued.last.trans (by simp)

theorem rmFrfifo_drained (apart : e ∉ left) :
    rmFrfifo (drained handler devid ran left) (.comp devid) e = drained handler devid ran left := by
  apply if_neg
  intro queued
  apply apart
  simp only [drained, Function.update_self, Option.map_map] at queued
  obtain ⟨last, found, rfl⟩ := Option.map_eq_some_iff.mp queued
  exact mem_of_getLast? found

theorem settle_eq (handler : Handler WriterLog) (e : EventPtr) :
    settle handler e =
      { handler.modify e EventT.finish with
        list := (handler.returned [e]).reverse ++ handler.list
        recycled := handler.recycled ++ (handler.returned [e]).map fun cont =>
          (handler.events cont).serial } := by
  have serial : ∀ cont, ((handler.modify e EventT.finish).events cont).serial =
      (handler.events cont).serial := by
    intro cont
    rw [Handler.modify_events]
    split <;> rfl
  unfold settle
  by_cases counted : (handler.events e).missfol = 0
  · rw [if_pos counted, foldl_eventRecycle]
    simp only [serial]
    simp [Handler.returned, counted]
  · rw [if_neg counted]
    simp [Handler.returned, counted, Handler.modify]

theorem returned_cons (handler : Handler WriterLog) (e : EventPtr) (ran : List EventPtr) :
    handler.returned (e :: ran) = handler.returned ran ++ handler.returned [e] := by
  simp [Handler.returned]

theorem settle_drained (split : later :: rest = ran ++ left) (apart : e ∉ later :: rest)
    (count : (handler.events e).init.cnt = 0) :
    settle (drained (released handler e later) devid ran left) e =
      drained handler devid (e :: ran) left := by
  have notRan : e ∉ ran := by
    intro member
    exact apart (split ▸ mem_append_left _ member)
  have notLeft : e ∉ left := by
    intro member
    exact apart (split ▸ mem_append_right _ member)
  have notNext : e ≠ later := by
    intro same
    exact apart (same ▸ mem_cons_self)
  have kept := released_kept handler e later
  have keptAll : ∀ x, (handler.events x).Kept
      ((drained (released handler e later) devid ran left).events x) :=
    fun x => (kept x).trans (drained_kept _ devid ran left x)
  rw [settle_eq]
  apply Handler.ext
  · funext x
    by_cases first : x = e
    · subst first
      have notHead : left.head? ≠ some x := fun head => notLeft (mem_of_mem_head? head)
      simp [drained, released_events, notRan, notHead, notNext, EventT.finish, count]
    · by_cases second : x = later
      · subst second
        by_cases member : x ∈ ran
        · simp [first, drained, released_events, member, EventT.finish]
        · have head : left.head? = some x := by
            cases ran with
            | nil =>
              rw [nil_append] at split
              rw [← split]
              rfl
            | cons head ran =>
              cases split
              exact absurd mem_cons_self member
          simp [first, drained, released_events, member, head]
      · simp [first, second, drained, released_events]
  · simp only [Handler.returned_kept keptAll]
    simp [drained, returned_cons _ e ran, Handler.returned_kept kept, writeEvent]
  · rfl
  · rfl
  · rfl
  · rfl
  · simp [drained, Handler.record_kept kept, writeEvent]
  · rfl
  · simp only [Handler.returned_kept keptAll, (keptAll _).serial]
    simp [drained, returned_cons _ e ran, Handler.returned_kept kept, (kept _).serial, writeEvent]

theorem settle_last (queued : Queue handler devid [e]) :
    settle (rmFrfifo (writeEvent e handler) (.comp devid) e) e = drained handler devid [e] [] := by
  have count := queued.first e rfl
  have removed : rmFrfifo (writeEvent e handler) (.comp devid) e =
      { writeEvent e handler with
        fifos := Function.update handler.fifos (.comp devid) none } :=
    if_pos (by simp [writeEvent, queued.last])
  rw [removed, settle_eq]
  apply Handler.ext
  · funext x
    by_cases same : x = e
    · subst same
      simp [drained, writeEvent, EventT.finish, count]
    · simp [drained, writeEvent, same]
  all_goals rfl

theorem runs_checkInit_blocked (queued : Queue handler devid (e :: rest))
    (blocked : handler.ready e = false) :
    Runs (exec hwetraceWrite) [.checkInit e] handler
      (drained handler devid ((e :: rest).takeWhile handler.ready)
        ((e :: rest).dropWhile handler.ready)) := by
  rw [takeWhile_cons_of_neg (by simp [blocked]),
    dropWhile_cons_of_neg (by simp [blocked]), drained_nil queued]
  exact .call (exec_checkInit_blocked (.inl blocked)) (runs_nil _)

/-- A check of the first event writes the events in front that miss no
reference. -/
theorem runs_checkInit (queued : Queue handler devid (e :: rest)) :
    Runs (exec hwetraceWrite) [.checkInit e] handler
      (drained handler devid ((e :: rest).takeWhile handler.ready)
        ((e :: rest).dropWhile handler.ready)) := by
  induction rest generalizing e handler with
  | nil =>
    cases ready : handler.ready e with
    | false => exact runs_checkInit_blocked queued ready
    | true =>
      have count := queued.first e rfl
      have link : ((writeEvent e handler).events e).init.usrfol =
        [.fifo (.comp devid)] := queued.linked
      rw [takeWhile_cons_of_pos ready, dropWhile_cons_of_pos ready]
      apply Runs.call (exec_checkInit_ready ready count)
      apply Runs.cons (runs_unlock_last link)
      rw [takeWhile_nil, dropWhile_nil, ← settle_last queued]
      exact runs_initDone _ e
  | cons next rest ih =>
    cases ready : handler.ready e with
    | false => exact runs_checkInit_blocked queued ready
    | true =>
      have count := queued.first e rfl
      have link : ((writeEvent e handler).events e).init.usrfol =
        [.barrier next .init, .fifo (.comp devid)] := queued.linked.1
      have apart := (nodup_cons.mp queued.nodup).1
      have later := ih queued.released
      rw [released_ready] at later
      have split : next :: rest = (next :: rest).takeWhile handler.ready ++
          (next :: rest).dropWhile handler.ready :=
        takeWhile_append_dropWhile.symm
      rw [takeWhile_cons_of_pos ready, dropWhile_cons_of_pos ready]
      apply Runs.call (exec_checkInit_ready ready count)
      apply Runs.cons (runs_unlock_next link later)
      rw [rmFrfifo_drained, ← settle_drained split apart count]
      · exact runs_initDone _ e
      · intro member
        exact apart (split ▸ mem_append_right _ member)

end Reverse.Decopus
