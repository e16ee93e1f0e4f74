import Reverse.Decopus.Waking

/-!
# Registering an event

Before the first check a committed event enters the queue of its component and
tells the events it refers to.  An event that is not committed remembers who
waits for it, and every waiting event counts the references it misses.
-/

namespace Reverse.Decopus

open Tasks Function
open List hiding after

section

variable (e : EventPtr) (handler : Handler WriterLog)

theorem noteReference_eq (ref : EventPtr) :
    noteReference hwetraceWrite e handler ref =
      { handler with
        events := fun x =>
          let event := handler.events x
          { event with
            missref := event.missref +
              if x = e ∧ (handler.events ref).commited = false then 1 else 0
            missfol := event.missfol - if x = ref then 1 else 0
            followers :=
              if x = ref ∧ event.go.done = false then e :: event.followers
              else event.followers } } := by
  have missed : ((handler.modify e fun event =>
      { event with missref := event.missref + 1 }).events ref).go.done =
        (handler.events ref).go.done := by
    rw [Handler.modify_events]
    split <;> rfl
  unfold noteReference
  cases commited : (handler.events ref).commited <;>
    cases done : (handler.events ref).go.done <;>
    simp only [missed, done, hwetraceWrite, if_true, if_false, Bool.false_eq_true]
  all_goals
    apply Handler.ext
    · funext x
      by_cases isRef : x = ref <;> by_cases isSelf : x = e <;> simp_all
    all_goals rfl

theorem foldl_noteReference (refs : List EventPtr) :
    refs.foldl (noteReference hwetraceWrite e) handler =
      { handler with
        events := fun x =>
          let event := handler.events x
          { event with
            missref := event.missref +
              if x = e then
                refs.countP fun ref => !(handler.events ref).commited
              else 0
            missfol := event.missfol - refs.count x
            followers :=
              if event.go.done then event.followers
              else List.replicate (refs.count x) e ++ event.followers } } := by
  induction refs generalizing handler with
  | nil => simp
  | cons ref refs ih =>
    rw [foldl_cons, ih, noteReference_eq]
    congr 1
    funext x
    apply EventT.ext <;> try rfl
    · simp only [countP_cons]
      by_cases isSelf : x = e
      · cases (handler.events ref).commited
        · simp [isSelf]
          omega
        · simp [isSelf]
      · simp [isSelf]
    · simp only [count_cons]
      by_cases isRef : x = ref
      · simp [isRef]
        omega
      · simp [isRef, Ne.symm isRef]
    · simp only [count_cons]
      cases (handler.events x).go.done with
      | true => simp
      | false =>
        by_cases isRef : x = ref
        · simp [isRef, replicate_succ', append_assoc]
        · simp [isRef, Ne.symm isRef]

end

section

variable {handler : Handler WriterLog} {devid : BitVec 8} {queue : List EventPtr} {e : EventPtr}

theorem putInfifo_events (queued : Queue handler devid queue) (x : EventPtr) :
    (putInfifo handler (.comp devid) e .init).events x =
      { handler.events x with
        init :=
          { (handler.events x).init with
            cnt := (handler.events x).init.cnt + if x = e ∧ queue ≠ [] then 1 else 0
            usrfol :=
              (if x = e then [.fifo (.comp devid)] else []) ++
                (if queue.getLast? = some x then [.barrier e .init] else []) ++
                (handler.events x).init.usrfol } } := by
  have last := queued.last
  unfold putInfifo
  rcases eq_nil_or_concat queue with rfl | ⟨front, final, rfl⟩
  · rw [List.getLast?_nil, Option.map_none] at last
    by_cases isSelf : x = e
    · simp [last, isSelf, EventT.setStage, EventT.stage]
    · simp [last, isSelf]
  · rw [concat_eq_append, List.getLast?_concat, Option.map_some] at last
    by_cases isLast : final = x
    · subst isLast
      by_cases isSelf : final = e
      · simp [last, isSelf, setBarrier, EventT.setStage, EventT.stage]
      · simp [last, isSelf, setBarrier, EventT.setStage, EventT.stage]
    · by_cases isSelf : x = e
      · subst isSelf
        simp [last, isLast, Ne.symm isLast, setBarrier, EventT.setStage, EventT.stage]
      · simp [last, isSelf, isLast, Ne.symm isLast, setBarrier, EventT.setStage, EventT.stage]

theorem putInfifo_fifos (handler : Handler WriterLog) (fifo : Fifo) (e : EventPtr) :
    (putInfifo handler fifo e .init).fifos = update handler.fifos fifo (some (e, .init)) := by
  unfold putInfifo
  cases handler.fifos fifo <;> rfl

theorem Linked.append (linked : Linked events devid queue) (nodup : queue.Nodup)
    (self : (after e).init.usrfol = [.fifo (.comp devid)])
    (count : queue ≠ [] → (after e).init.cnt = 1)
    (counts : ∀ x ∈ queue, (after x).init.cnt = (events x).init.cnt)
    (links : ∀ x ∈ queue, (after x).init.usrfol =
      (if queue.getLast? = some x then [.barrier e .init] else []) ++ (events x).init.usrfol) :
    Linked after devid (queue ++ [e]) := by
  induction queue with
  | nil => exact self
  | cons x rest ih =>
    obtain ⟨notMember, nodup⟩ := nodup_cons.mp nodup
    have link := links x mem_cons_self
    cases rest with
    | nil =>
      refine ⟨?_, count (by simp), self⟩
      rw [link, show (events x).init.usrfol = [.fifo (.comp devid)] from linked]
      simp
    | cons next rest =>
      obtain ⟨before, one, later⟩ := linked
      refine ⟨?_, ?_, ih later nodup ?_ ?_ ?_⟩
      · rw [link, before, if_neg]
        · rfl
        · intro last
          exact notMember (mem_of_getLast? last)
      · rw [counts next (by simp), one]
      · exact fun _ => count (by simp)
      · exact fun y member => counts y (.tail _ member)
      · exact fun y member => links y (.tail _ member)

theorem putInfifo_queue (queued : Queue handler devid queue)
    (apart : e ∉ queue) (fresh : (handler.events e).init = .empty) :
    Queue (putInfifo handler (.comp devid) e .init) devid (queue ++ [e]) := by
  have notSelf : ∀ x ∈ queue, x ≠ e := by
    rintro x member rfl
    exact apart member
  have notLast : queue.getLast? ≠ some e := fun last =>
    apart (mem_of_getLast? last)
  constructor
  · apply queued.linked.append queued.nodup
    · simp [putInfifo_events queued, notLast, fresh, EventStage.empty]
    · intro occupied
      simp [putInfifo_events queued, fresh, EventStage.empty, occupied]
    · intro x member
      simp [putInfifo_events queued, notSelf x member]
    · intro x member
      simp [putInfifo_events queued, notSelf x member]
  · intro x head
    cases queue with
    | nil =>
      cases head
      simp [putInfifo_events queued, fresh, EventStage.empty]
    | cons first rest =>
      cases head
      have counted := queued.first x rfl
      simp [putInfifo_events queued, notSelf x, counted]
  · simp [putInfifo_fifos]
  · refine nodup_append.mpr ⟨queued.nodup, by simp, ?_⟩
    intro x member y self
    rw [mem_singleton.mp self]
    exact notSelf x member

/-- The state before the loop on references. -/
def expecting (handler : Handler WriterLog) (e : EventPtr) : Handler WriterLog :=
  (putInfifo handler (.comp (handler.events e).id.devid) e .init).modify e
    fun event =>
      { event with missfol := event.missfol + event.hwe.expected.toNat }

theorem expecting_events (queued : Queue handler (handler.events e).id.devid queue) (x : EventPtr) :
    (expecting handler e).events x =
      { handler.events x with
        init := ((expecting handler e).events x).init
        missfol := (handler.events x).missfol +
          if x = e then ((handler.events e).hwe.expected.toNat : Int)
          else 0 } := by
  by_cases isSelf : x = e
  · subst isSelf
    simp [expecting, putInfifo_events queued]
  · simp [expecting, isSelf, putInfifo_events queued]

theorem expecting_refs (queued : Queue handler (handler.events e).id.devid queue) :
    (expecting handler e).refs = handler.refs := by
  have same : ∀ x, ((expecting handler e).events x).hwe = (handler.events x).hwe ∧
      ((expecting handler e).events x).refnext = (handler.events x).refnext := by
    intro x
    rw [expecting_events queued]
    exact ⟨rfl, rfl⟩
  funext x
  simp [Handler.refs, Handler.conts, (same _).1, (same x).2]

/-- Only events and fifos change. -/
structure Unmoved (before after : Handler WriterLog) : Prop where
  list : after.list = before.list
  nb : after.nb = before.nb
  comp : after.comp = before.comp
  startDone : after.startDone = before.startDone
  user : after.user = before.user
  births : after.births = before.births
  recycled : after.recycled = before.recycled

theorem expecting_unmoved (handler : Handler WriterLog) (e : EventPtr) :
    Unmoved handler (expecting handler e) := by
  unfold expecting putInfifo
  cases handler.fifos (.comp (handler.events e).id.devid) <;>
    exact ⟨rfl, rfl, rfl, rfl, rfl, rfl, rfl⟩

theorem registerEvent_eq (queued : Queue handler (handler.events e).id.devid queue) :
    registerEvent hwetraceWrite handler e =
      { expecting handler e with
        events := fun x =>
          { handler.events x with
            init := ((expecting handler e).events x).init
            missref := (handler.events x).missref +
              if x = e then
                (handler.refs e).countP fun ref =>
                  !(handler.events ref).commited
              else 0
            missfol := (handler.events x).missfol +
                (if x = e then ((handler.events e).hwe.expected.toNat : Int) else 0) -
              (handler.refs e).count x
            followers :=
              if (handler.events x).go.done then (handler.events x).followers
              else
                List.replicate ((handler.refs e).count x) e ++
                  (handler.events x).followers } } := by
  have commited : ∀ x, ((expecting handler e).events x).commited = (handler.events x).commited := by
    intro x
    rw [expecting_events queued]
  have loop : registerEvent hwetraceWrite handler e =
      ((expecting handler e).refs e).foldl (noteReference hwetraceWrite e)
        (expecting handler e) := rfl
  rw [loop, foldl_noteReference, expecting_refs queued]
  congr 1
  funext x
  simp only [commited]
  rw [expecting_events queued]

theorem registerEvent_unmoved (queued : Queue handler (handler.events e).id.devid queue) :
    Unmoved handler (registerEvent hwetraceWrite handler e) := by
  have unmoved := expecting_unmoved handler e
  rw [registerEvent_eq queued]
  exact ⟨unmoved.list, unmoved.nb, unmoved.comp, unmoved.startDone,
    unmoved.user, unmoved.births, unmoved.recycled⟩

end

/-- An event of which only the container is in use. -/
structure EventT.Fresh (event : EventT) : Prop where
  commited : event.commited = false
  missref : event.missref = 0
  init : event.init = .empty
  go : event.go.done = false

/-- The state between two calls of `handle_event`.  The events `missing e` are
those that `e` waits for, all of them held by the clients. -/
structure Steady (handler : Handler WriterLog) (waiting : Waiting)
    (missing : EventPtr → List EventPtr) (held : EventPtr → Prop) :
    Prop where
  awaiting : Awaiting handler waiting missing []
  commited : ∀ devid, ∀ e ∈ waiting devid, (handler.events e).commited = true
  owed : ∀ e, ∀ x ∈ missing e, held x
  followers : ∀ x, held x → ∀ e,
    (handler.events x).followers.count e = (missing e).count x
  fresh : ∀ x, held x → (handler.events x).Fresh

/-- An event that can be handed over: its references are events that are held
or committed, and nothing refers to its additional containers. -/
structure Admissible (handler : Handler WriterLog) (held : EventPtr → Prop)
    (e : EventPtr) : Prop where
  self : held e
  exts : ∀ x ∈ (handler.events e).refnext,
    held x ∧ x ≠ e ∧ (handler.events x).followers = []
  refs : ∀ x ∈ handler.refs e,
    (held x ∧ x ∉ (handler.events e).refnext) ∨
      (handler.events x).commited = true

section

variable {handler : Handler WriterLog} {waiting : Waiting}
  {missing : EventPtr → List EventPtr} {held : EventPtr → Prop} {e : EventPtr}

theorem Steady.not_waiting (steady : Steady handler waiting missing held)
    (isHeld : held x) (devid : BitVec 8) :
    x ∉ waiting devid := by
  intro member
  have commited := steady.commited devid x member
  rw [(steady.fresh x isHeld).commited] at commited
  cases commited

theorem Steady.missing_nil (steady : Steady handler waiting missing held)
    (isHeld : held x) : missing x = [] := by
  by_contra owed
  obtain ⟨devid, member⟩ := steady.awaiting.owing x owed
  exact steady.not_waiting isHeld devid member

/-- The event is the last one in the queue of its component. -/
def enter (handler : Handler WriterLog) (waiting : Waiting) (e : EventPtr) :
    Waiting :=
  update waiting (handler.events e).id.devid (waiting (handler.events e).id.devid ++ [e])

theorem mem_enter :
    x ∈ enter handler waiting e devid ↔
      x ∈ waiting devid ∨ (x = e ∧ devid = (handler.events e).id.devid) := by
  unfold enter
  by_cases same : devid = (handler.events e).id.devid
  · simp [same]
  · simp [same]

theorem head_enter (head : x ∈ (enter handler waiting e devid).head?) (isSelf : x ≠ e) :
    x ∈ (waiting devid).head? := by
  unfold enter at head
  by_cases same : devid = (handler.events e).id.devid
  · subst same
    rw [update_self, List.head?_append] at head
    cases first : (waiting (handler.events e).id.devid).head? with
    | none =>
      rw [first] at head
      exact absurd (Option.some.inj head).symm isSelf
    | some y =>
      rw [first] at head
      exact head
  · rwa [update_of_ne same] at head

/-- The references that the committed event misses. -/
def uncommitted (handler : Handler WriterLog) (e : EventPtr) : List EventPtr :=
  (handler.refs e).filter fun ref => !(handler.events ref).commited

/-- What is missing once the followers of the event have been told. -/
def missingAfter (handler : Handler WriterLog) (missing : EventPtr → List EventPtr) (e : EventPtr) :
    EventPtr → List EventPtr := fun x =>
  (if x = e then uncommitted handler e else missing x).filter (· ≠ e)

theorem expecting_init (x : EventPtr) :
    ((expecting handler e).events x).init =
      ((putInfifo handler (.comp (handler.events e).id.devid) e .init).events x).init := by
  rw [expecting, Handler.modify_events]
  split <;> rfl

theorem registerEvent_queues (steady : Steady handler waiting missing held) (isHeld : held e) :
    Queues (registerEvent hwetraceWrite handler e) (enter handler waiting e) := by
  have queued := steady.awaiting.queues.queue (handler.events e).id.devid
  rw [registerEvent_eq queued]
  constructor
  · intro devid
    unfold enter
    by_cases same : devid = (handler.events e).id.devid
    · subst same
      rw [update_self]
      apply (putInfifo_queue queued (steady.not_waiting isHeld _)
        (steady.fresh e isHeld).init).congr
      · exact fun x _ => expecting_init x
      · rfl
    · rw [update_of_ne same]
      apply (steady.awaiting.queues.queue devid).congr
      · intro x member
        have notSelf : x ≠ e := by
          rintro rfl
          exact steady.not_waiting isHeld devid member
        have notLast : (waiting (handler.events e).id.devid).getLast? ≠ some x := fun last =>
          same (steady.awaiting.queues.apart member (mem_of_getLast? last))
        simp [expecting_init, putInfifo_events queued, notSelf, notLast]
      · simp [expecting, putInfifo_fifos, same]
  · intro devid x member
    rcases mem_enter.mp member with before | ⟨rfl, rfl⟩
    · exact steady.awaiting.queues.device devid x before
    · rfl

theorem length_filter_ne (xs : List EventPtr) (x : EventPtr) :
    (xs.filter (· ≠ x)).length + xs.count x = xs.length := by
  rw [← countP_eq_length_filter, Nat.add_comm, length_eq_countP_add_countP (· == x)]
  simp [List.count]

section

variable (steady : Steady handler waiting missing held)

include steady

theorem registerEvent_followers (isHeld : held x) :
    ((registerEvent hwetraceWrite handler e).events x).followers =
      List.replicate ((handler.refs e).count x) e ++ (handler.events x).followers := by
  have queued := steady.awaiting.queues.queue (handler.events e).id.devid
  rw [registerEvent_eq queued]
  simp [(steady.fresh x isHeld).go]

theorem missingAfter_length (isHeld : held e) (x : EventPtr) :
    (missingAfter handler missing e x).length +
        ((registerEvent hwetraceWrite handler e).events e).followers.count x =
      if x = e then (uncommitted handler e).length
      else (missing x).length := by
  have fresh := steady.fresh e isHeld
  rw [registerEvent_followers steady isHeld, count_append, steady.followers e isHeld]
  by_cases isSelf : x = e
  · subst isSelf
    have count : (uncommitted handler x).count x = (handler.refs x).count x :=
      count_filter (by simp [fresh.commited])
    simpa [missingAfter, steady.missing_nil isHeld, ← count] using
      length_filter_ne (uncommitted handler x) x
  · simpa [missingAfter, isSelf, count_replicate, Ne.symm isSelf] using
      length_filter_ne (missing x) e

theorem registerEvent_awaiting (isHeld : held e) :
    Awaiting (registerEvent hwetraceWrite handler e) (enter handler waiting e)
      (missingAfter handler missing e)
      ((registerEvent hwetraceWrite handler e).events e).followers := by
  have queued := steady.awaiting.queues.queue (handler.events e).id.devid
  have fresh := steady.fresh e isHeld
  have events := congrArg Handler.events (registerEvent_eq queued)
  refine ⟨registerEvent_queues steady isHeld, ?_, ?_, ?_, ?_⟩
  · intro devid x head
    unfold Handler.ready
    rw [events]
    by_cases isSelf : x = e
    · simp [isSelf, fresh.commited]
    · have before := head_enter head isSelf
      simpa [isSelf, Handler.ready] using steady.awaiting.blocked devid x before
  · intro devid x member
    have counted := missingAfter_length steady isHeld x
    have waits : x ≠ e → x ∈ waiting devid := fun isSelf =>
      (mem_enter.mp member).resolve_right fun self => isSelf self.1
    rw [← Nat.cast_add, counted, events]
    by_cases isSelf : x = e
    · simp [isSelf, fresh.missref, uncommitted, countP_eq_length_filter]
    · simpa [isSelf] using steady.awaiting.missref devid x (waits isSelf)
  · intro x owed
    by_cases isSelf : x = e
    · exact ⟨_, mem_enter.mpr (.inr ⟨isSelf, rfl⟩)⟩
    · have before : missing x ≠ [] := by
        intro none
        simp [missingAfter, isSelf, none] at owed
      obtain ⟨devid, member⟩ := steady.awaiting.owing x before
      exact ⟨devid, mem_enter.mpr (.inl member)⟩
  · intro x told
    by_cases isSelf : x = e
    · exact ⟨_, mem_enter.mpr (.inr ⟨isSelf, rfl⟩)⟩
    · rw [registerEvent_followers steady isHeld, mem_append] at told
      have follows : x ∈ (handler.events e).followers :=
        told.resolve_left fun self => isSelf (eq_of_mem_replicate self)
      have counted := count_pos_iff.mpr follows
      rw [steady.followers e isHeld, count_pos_iff] at counted
      obtain ⟨devid, member⟩ := steady.awaiting.owing x (ne_nil_of_mem counted)
      exact ⟨devid, mem_enter.mpr (.inl member)⟩

end

theorem count_missingAfter (isHeld : held x) (other : x ≠ e)
    (steady : Steady handler waiting missing held) (y : EventPtr) :
    (missingAfter handler missing e y).count x =
      if y = e then (handler.refs e).count x else (missing y).count x := by
  have fresh := steady.fresh x isHeld
  unfold missingAfter
  rw [count_filter (by simpa using other)]
  split
  · exact count_filter (by simp [fresh.commited])
  · rfl

/-- The containers that stay with the clients. -/
def stillHeld (handler : Handler WriterLog) (held : EventPtr → Prop) (e x : EventPtr) : Prop :=
  held x ∧ x ∉ handler.conts e

section

variable (steady : Steady handler waiting missing held)

include steady

theorem missingAfter_held (admissible : Admissible handler held e)
    (owed : x ∈ missingAfter handler missing e y) :
    stillHeld handler held e x := by
  simp only [missingAfter, mem_filter, decide_eq_true_eq] at owed
  obtain ⟨member, other⟩ := owed
  by_cases isSelf : y = e
  · rw [if_pos isSelf] at member
    obtain ⟨ref, missed⟩ := mem_filter.mp member
    rcases admissible.refs x ref with ⟨isHeld, notExt⟩ | commited
    · exact ⟨isHeld, by simp [Handler.conts, other, notExt]⟩
    · simp [commited] at missed
  · rw [if_neg isSelf] at member
    have isHeld := steady.owed y x member
    refine ⟨isHeld, ?_⟩
    have follows := count_pos_iff.mpr member
    rw [← steady.followers x isHeld y] at follows
    intro cont
    rcases mem_cons.mp cont with rfl | ext
    · exact other rfl
    · rw [(admissible.exts x ext).2.2] at follows
      cases follows

theorem registerEvent_fresh (isHeld : held x) (other : x ≠ e) :
    ((registerEvent hwetraceWrite handler e).events x).Fresh := by
  have queued := steady.awaiting.queues.queue (handler.events e).id.devid
  have fresh := steady.fresh x isHeld
  have notLast : (waiting (handler.events e).id.devid).getLast? ≠ some x :=
    fun last =>
      steady.not_waiting isHeld _ (mem_of_getLast? last)
  rw [registerEvent_eq queued]
  refine ⟨fresh.commited, ?_, ?_, fresh.go⟩
  · simp [other, fresh.missref]
  · simp [expecting_init, putInfifo_events queued, other, notLast, fresh.init, EventStage.empty]

theorem runs_registered (admissible : Admissible handler held e) :
    ∃ after left ran,
      Runs (exec hwetraceWrite)
          [.wake ((registerEvent hwetraceWrite handler e).events e).followers, .commit e]
          (registerEvent hwetraceWrite handler e) after ∧
        Steady after left (missingAfter handler missing e) (stillHeld handler held e) ∧
        Advance (registerEvent hwetraceWrite handler e) (enter handler waiting e) after left ran ∧
        (after.events e).commited = true := by
  have queued := steady.awaiting.queues.queue (handler.events e).id.devid
  have events := congrArg Handler.events (registerEvent_eq queued)
  have self : e ∈ enter handler waiting e (handler.events e).id.devid :=
    mem_enter.mpr (.inr ⟨rfl, rfl⟩)
  have fresh : ((registerEvent hwetraceWrite handler e).events e).commited =
      false := by
    rw [events]
    exact (steady.fresh e admissible.self).commited
  obtain ⟨after, left, ran, runs, awaiting, advance, commited, same⟩ :=
    runs_wake_commit (registerEvent_awaiting steady admissible.self) self fresh
  have outside : ∀ x, stillHeld handler held e x →
      after.events x = (registerEvent hwetraceWrite handler e).events x := by
    intro x still
    apply advance.outside x
    intro devid member
    rcases mem_enter.mp member with waits | ⟨isSelf, -⟩
    · exact steady.not_waiting still.1 devid waits
    · exact still.2 (isSelf ▸ mem_cons_self)
  have notSelf : ∀ x, stillHeld handler held e x → x ≠ e := by
    rintro x still rfl
    exact still.2 mem_cons_self
  refine ⟨after, left, ran, runs, ⟨awaiting, ?_, ?_, ?_, ?_⟩, advance, commited⟩
  · intro devid x member
    by_cases isSelf : x = e
    · rw [isSelf, commited]
    · have waits := (mem_enter.mp (advance.waited member)).resolve_right fun self => isSelf self.1
      rw [same x isSelf, events]
      exact steady.commited devid x waits
  · exact fun y x owed => missingAfter_held steady admissible owed
  · intro x still y
    rw [outside x still, registerEvent_followers steady still.1,
      count_missingAfter still.1 (notSelf x still) steady, count_append,
      steady.followers x still.1]
    by_cases isSelf : y = e
    · simp [isSelf, steady.missing_nil admissible.self]
    · simp [isSelf, count_replicate, Ne.symm isSelf]
  · intro x still
    rw [outside x still]
    exact registerEvent_fresh steady still.1 (notSelf x still)

end

end

end Reverse.Decopus
