import Mathlib.Data.List.Nodup
import Reverse.Decopus.Registering

/-!
# The ledger of a run

Which container is where: with a client, in a queue, written but still
expecting to be referenced, or put back.  As long as no event is referenced
more often than it expects, a reference always points to the event that the
client means when it hands the reference over, and the counter `missfol` of an
event is what it still expects.
-/

namespace Reverse.Decopus

open Tasks
open List hiding after

namespace History

variable {history : History} {commit : Commit}

theorem references_hand (serial : Nat) :
    (history.hand commit).references serial =
      history.references serial + commit.refs.count serial := by
  simp [references, hand]

theorem mem_hand :
    other ∈ (history.hand commit).commits ↔ other ∈ history.commits ∨ other = commit := by
  simp [hand]

theorem Within.of_hand (within : (history.hand commit).Within) :
    history.Within := by
  intro other member
  obtain ⟨bound, exts⟩ := within other (mem_hand.mpr (.inl member))
  constructor
  · rw [references_hand] at bound
    omega
  · intro ext inExts
    have none := exts ext inExts
    rw [references_hand] at none
    omega

theorem held_hand :
    (history.hand commit).Held serial ↔ history.Held serial ∧ serial ∉ commit.serials := by
  simp [Held, hand]
  tauto

theorem name_allocate {id : HweId} (allocated : serial < history.names.length) :
    (history.allocate id).name serial = history.name serial := by
  simp [name, allocate, List.getElem?_append_left allocated]

/-- What holds of the events that clients can have handed over. -/
structure Proper (history : History) : Prop where
  nodup : (history.commits.flatMap Commit.serials).Nodup
  bounded : ∀ commit ∈ history.commits, ∀ serial ∈ commit.serials,
    serial < history.names.length
  allocated : ∀ commit ∈ history.commits, ∀ serial ∈ commit.refs,
    serial < history.names.length

theorem Proper.allocate (proper : history.Proper) (id : HweId) : (history.allocate id).Proper := by
  refine ⟨proper.nodup, ?_, ?_⟩
  · intro commit member serial inSerials
    have bound := proper.bounded commit member serial inSerials
    simp only [History.allocate, length_append]
    omega
  · intro commit member serial inRefs
    have bound := proper.allocated commit member serial inRefs
    simp only [History.allocate, length_append]
    omega

theorem Proper.hand (proper : history.Proper) (ready : history.Ready commit) :
    (history.hand commit).Proper := by
  refine ⟨?_, ?_, ?_⟩
  · simp only [History.hand, flatMap_append, flatMap_cons, flatMap_nil, append_nil]
    refine nodup_append.mpr ⟨proper.nodup, ready.distinct, ?_⟩
    rintro serial before _ inSerials rfl
    exact (ready.held serial inSerials).2 before
  · intro other member serial inSerials
    rcases mem_hand.mp member with before | rfl
    · exact proper.bounded other before serial inSerials
    · exact (ready.held serial inSerials).1
  · intro other member serial inRefs
    rcases mem_hand.mp member with before | rfl
    · exact proper.allocated other before serial inRefs
    · exact ready.allocated serial inRefs

theorem Proper.unique (proper : history.Proper)
    (first : commit ∈ history.commits) (second : other ∈ history.commits)
    (inFirst : serial ∈ commit.serials) (inSecond : serial ∈ other.serials) : commit = other := by
  by_contra differ
  have apart := (nodup_flatMap.mp proper.nodup).2
  have symmetric : Std.Symm (Function.onFun List.Disjoint Commit.serials) :=
    ⟨fun _ _ disjoint _ second first => disjoint first second⟩
  exact apart.forall first second differ inFirst inSecond

theorem held_allocate (proper : history.Proper) {id : HweId} :
    (history.allocate id).Held serial ↔ history.Held serial ∨ serial = history.names.length := by
  have unborn : history.names.length ∉ history.commits.flatMap Commit.serials := by
    intro member
    obtain ⟨commit, inCommits, inSerials⟩ := mem_flatMap.mp member
    have bound := proper.bounded commit inCommits _ inSerials
    omega
  simp only [Held, allocate, length_append, length_singleton]
  constructor
  · rintro ⟨bound, free⟩
    by_cases last : serial = history.names.length
    · exact .inr last
    · exact .inl ⟨by omega, free⟩
  · rintro (⟨bound, free⟩ | rfl)
    · exact ⟨by omega, free⟩
    · exact ⟨by omega, unborn⟩

end History

section

variable (history : History) (handler : Handler WriterLog)

/-- The container is in use under its serial number. -/
structure Placed (serial : Nat) : Prop where
  numbered : (handler.events (handler.pointer serial)).serial = serial
  unlisted : handler.pointer serial ∉ handler.list
  bound : handler.pointer serial < handler.nb

/-- The containers of an event have what the client filled in. -/
structure Stored (commit : Commit) : Prop where
  id : (handler.events (handler.pointer commit.main)).id =
    history.name commit.main
  hwe : (handler.events (handler.pointer commit.main)).hwe =
    commit.hwe.map handler.pointer
  refnext : (handler.events (handler.pointer commit.main)).refnext =
    commit.exts.map fun ext => handler.pointer ext.1
  extId : ∀ ext ∈ commit.exts,
    (handler.events (handler.pointer ext.1)).id = history.name commit.main
  extHwe : ∀ ext ∈ commit.exts,
    (handler.events (handler.pointer ext.1)).hwe = ext.2.map handler.pointer

/-- A container that a client holds. -/
structure Entrusted (serial : Nat) : Prop where
  id : (handler.events (handler.pointer serial)).id = history.name serial
  missfol : (handler.events (handler.pointer serial)).missfol =
    -history.references serial
  followers : (handler.events (handler.pointer serial)).followers.length =
    history.references serial

/-- A committed event that has not been put back. -/
structure Open (waiting : Waiting) (commit : Commit) : Prop where
  stored : Stored history handler commit
  commited : (handler.events (handler.pointer commit.main)).commited = true
  missfol : (handler.events (handler.pointer commit.main)).missfol =
    commit.expected - history.references commit.main
  stage : (∃ devid, handler.pointer commit.main ∈ waiting devid) ∨
    (handler.events (handler.pointer commit.main)).go.done = true

/-- The address of a container that a client holds. -/
def HeldAt (x : EventPtr) : Prop :=
  ∃ serial, history.Held serial ∧ handler.pointer serial = x

/-- An event whose references have all come. -/
def Closed (commit : Commit) : Prop :=
  commit.main ∈ handler.recycled ∧ history.references commit.main = commit.expected

structure Ledger (waiting : Waiting) (missing : EventPtr → List EventPtr) :
    Prop where
  proper : history.Proper
  steady : Steady handler waiting missing (HeldAt history handler)
  births : handler.births.length = history.names.length
  placed : ∀ serial < history.names.length, serial ∉ handler.recycled →
    Placed handler serial
  listNodup : handler.list.Nodup
  listBound : ∀ x ∈ handler.list, x < handler.nb
  recycledNodup : handler.recycled.Nodup
  closed : ∀ serial ∈ handler.recycled, ∃ commit ∈ history.commits,
    serial ∈ commit.serials ∧ Closed history handler commit
  entrusted : ∀ serial, history.Held serial →
    Entrusted history handler serial
  opened : ∀ commit ∈ history.commits, commit.main ∉ handler.recycled →
    Open history handler waiting commit
  waits : ∀ devid, ∀ x ∈ waiting devid,
    (handler.events x).init.done = false ∧
      (handler.events x).go.done = false ∧
      ∃ commit ∈ history.commits, commit.main ∉ handler.recycled ∧
        handler.pointer commit.main = x
  started : handler.startDone = false → ∀ devid, waiting devid = []

end

namespace Ledger

variable {history : History} {handler : Handler WriterLog} {waiting : Waiting}
  {missing : EventPtr → List EventPtr}

section

variable (ledger : Ledger history handler waiting missing)

include ledger

theorem held_live (held : history.Held serial) : serial ∉ handler.recycled := by
  intro member
  obtain ⟨commit, inCommits, inSerials, -⟩ := ledger.closed serial member
  exact held.2 (mem_flatMap.mpr ⟨commit, inCommits, inSerials⟩)

theorem placed_held (held : history.Held serial) : Placed handler serial :=
  ledger.placed serial held.1 (ledger.held_live held)

theorem open_live (member : commit ∈ history.commits) (live : commit.main ∉ handler.recycled)
    (inSerials : serial ∈ commit.serials) : serial ∉ handler.recycled := by
  intro recycled
  obtain ⟨other, inCommits, inOther, closed⟩ := ledger.closed serial recycled
  rw [ledger.proper.unique member inCommits inSerials inOther] at live
  exact live closed.1

theorem placed_open (member : commit ∈ history.commits) (live : commit.main ∉ handler.recycled)
    (inSerials : serial ∈ commit.serials) : Placed handler serial :=
  ledger.placed serial (ledger.proper.bounded commit member serial inSerials)
    (ledger.open_live member live inSerials)

end

end Ledger

theorem Placed.inj (left : Placed handler first) (right : Placed handler second)
    (same : handler.pointer first = handler.pointer second) :
    first = second := by
  rw [← left.numbered, same, right.numbered]

theorem Container.map_congr {container : Container ρ}
    (same : ∀ ref ∈ container.refs, first ref = second ref) :
    container.map first = container.map second := by
  simp only [Container.map, map_congr_left same]

theorem Commit.ext_mem {commit : Commit} (member : ext ∈ commit.exts) : ext.1 ∈ commit.serials :=
  .tail _ (mem_map_of_mem member)

theorem Stored.congr (stored : Stored history handler commit)
    (name : later.name commit.main = history.name commit.main)
    (pointers : ∀ serial, serial ∈ commit.serials ∨ serial ∈ commit.refs →
      after.pointer serial = handler.pointer serial)
    (events : ∀ serial ∈ commit.serials,
      (after.events (handler.pointer serial)).id = (handler.events (handler.pointer serial)).id ∧
        (after.events (handler.pointer serial)).hwe =
          (handler.events (handler.pointer serial)).hwe ∧
        (after.events (handler.pointer serial)).refnext =
          (handler.events (handler.pointer serial)).refnext) :
    Stored later after commit := by
  have mainMem : commit.main ∈ commit.serials := mem_cons_self
  obtain ⟨id, hwe, refnext⟩ := events commit.main mainMem
  have main := pointers commit.main (.inl mainMem)
  constructor
  · rw [main, id, stored.id, name]
  · rw [main, hwe, stored.hwe]
    apply Container.map_congr
    intro ref member
    exact (pointers ref (.inr (mem_append_left _ member))).symm
  · rw [main, refnext, stored.refnext]
    apply map_congr_left
    intro ext member
    exact (pointers ext.1 (.inl (Commit.ext_mem member))).symm
  · intro ext member
    rw [pointers ext.1 (.inl (Commit.ext_mem member)),
      (events ext.1 (Commit.ext_mem member)).1, stored.extId ext member, name]
  · intro ext member
    rw [pointers ext.1 (.inl (Commit.ext_mem member)),
      (events ext.1 (Commit.ext_mem member)).2.1, stored.extHwe ext member]
    apply Container.map_congr
    intro ref inRefs
    apply Eq.symm
    apply pointers ref
    exact .inr (mem_append_right _ (mem_flatMap.mpr ⟨ext, member, inRefs⟩))

section

variable {history : History} {handler : Handler WriterLog} {waiting : Waiting}
  {missing : EventPtr → List EventPtr} {id : HweId}

theorem allocate_events (handler : Handler WriterLog) (id : HweId) (x : EventPtr) :
    (allocate handler id).events x =
      if x = eventNext handler then
        { eventInit (handler.events x) with
          id := id, serial := handler.births.length }
      else handler.events x := by
  by_cases next : x = eventNext handler
  · simp [allocate, eventNew, next]
  · simp [allocate, eventNew, next]

theorem allocate_pointer (born : serial < handler.births.length) :
    (allocate handler id).pointer serial = handler.pointer serial := by
  simp [Handler.pointer, allocate, eventNew, List.getElem?_append_left born]

theorem allocate_pointer_last :
    (allocate handler id).pointer handler.births.length = eventNext handler := by
  simp [Handler.pointer, allocate, eventNew]

theorem Placed.not_next (placed : Placed handler serial) :
    handler.pointer serial ≠ eventNext handler := by
  intro same
  unfold eventNext at same
  cases list : handler.list with
  | nil =>
    have bound := placed.bound
    rw [same, list, headD_nil] at bound
    exact Nat.lt_irrefl _ bound
  | cons first rest =>
    apply placed.unlisted
    rw [same, list, headD_cons]
    exact mem_cons_self

theorem allocate_placed (placed : Placed handler serial) :
    (allocate handler id).events (handler.pointer serial) =
      handler.events (handler.pointer serial) := by
  rw [allocate_events, if_neg placed.not_next]

section

variable (ledger : Ledger history handler waiting missing)

include ledger

theorem Ledger.born (allocated : serial < history.names.length) :
    serial < handler.births.length := by
  rw [ledger.births]
  exact allocated

theorem heldAt_allocate :
    HeldAt (history.allocate id) (allocate handler id) x ↔
      HeldAt history handler x ∨ x = eventNext handler := by
  constructor
  · rintro ⟨serial, held, rfl⟩
    rcases (History.held_allocate ledger.proper).mp held with before | rfl
    · exact .inl ⟨serial, before, (allocate_pointer (ledger.born before.1)).symm⟩
    · rw [← ledger.births]
      exact .inr allocate_pointer_last
  · rintro (⟨serial, held, rfl⟩ | rfl)
    · exact ⟨serial, (History.held_allocate ledger.proper).mpr (.inl held),
        allocate_pointer (ledger.born held.1)⟩
    · refine ⟨history.names.length, (History.held_allocate ledger.proper).mpr (.inr rfl), ?_⟩
      rw [← ledger.births]
      exact allocate_pointer_last

theorem allocate_waiting (member : x ∈ waiting devid) :
    (allocate handler id).events x = handler.events x := by
  obtain ⟨-, -, commit, inCommits, live, rfl⟩ := ledger.waits devid x member
  exact allocate_placed (ledger.placed_open inCommits live mem_cons_self)

theorem allocate_heldAt (held : HeldAt history handler x) :
    (allocate handler id).events x = handler.events x := by
  obtain ⟨serial, held, rfl⟩ := held
  exact allocate_placed (ledger.placed_held held)

theorem Steady.allocate (id : HweId) :
    Steady (allocate handler id) waiting missing
      (HeldAt (history.allocate id) (Decopus.allocate handler id)) where
  awaiting := by
    refine ledger.steady.awaiting.congr ?_ ?_
    · rfl
    · intro devid x member
      rw [allocate_waiting ledger member]
      exact ⟨rfl, rfl, rfl, rfl⟩
  commited devid x member := by
    rw [allocate_waiting ledger member]
    exact ledger.steady.commited devid x member
  owed e x member :=
    (heldAt_allocate ledger).mpr (.inl (ledger.steady.owed e x member))
  followers x held e := by
    rcases (heldAt_allocate ledger).mp held with before | rfl
    · rw [allocate_heldAt ledger before]
      exact ledger.steady.followers x before e
    · have unknown : eventNext handler ∉ missing e := by
        intro member
        obtain ⟨serial, held, same⟩ := ledger.steady.owed e _ member
        exact (ledger.placed_held held).not_next same
      rw [allocate_events, if_pos rfl, count_eq_zero.mpr unknown]
      rfl
  fresh x held := by
    rcases (heldAt_allocate ledger).mp held with before | rfl
    · rw [allocate_heldAt ledger before]
      exact ledger.steady.fresh x before
    · rw [allocate_events, if_pos rfl]
      exact ⟨rfl, rfl, rfl, rfl⟩

theorem eventNext_fresh (id : HweId) :
    eventNext handler ∉ (allocate handler id).list ∧
      eventNext handler < (allocate handler id).nb ∧
      handler.nb ≤ (allocate handler id).nb := by
  cases list : handler.list with
  | nil => simp [allocate, eventNew, eventNext, list]
  | cons first rest =>
    have nodup := ledger.listNodup
    have bound := ledger.listBound first (by simp [list])
    rw [list, nodup_cons] at nodup
    simp [allocate, eventNew, eventNext, list, nodup.1, bound]

theorem Placed.allocate (allocated : serial < history.names.length)
    (placed : Placed handler serial) (id : HweId) :
    Placed (allocate handler id) serial := by
  have pointer := @allocate_pointer handler id serial (ledger.born allocated)
  have grown := (eventNext_fresh ledger id).2.2
  constructor
  · rw [pointer, allocate_placed placed, placed.numbered]
  · rw [pointer]
    exact fun member => placed.unlisted (mem_of_mem_tail member)
  · rw [pointer]
    exact Nat.lt_of_lt_of_le placed.bound grown

theorem Ledger.references_unborn : history.references history.names.length = 0 := by
  apply count_eq_zero.mpr
  intro member
  obtain ⟨commit, inCommits, inRefs⟩ := mem_flatMap.mp member
  exact Nat.lt_irrefl _ (ledger.proper.allocated commit inCommits _ inRefs)

theorem Ledger.allocate (id : HweId) :
    Ledger (history.allocate id) (allocate handler id) waiting missing where
  proper := ledger.proper.allocate id
  steady := .allocate ledger id
  births := by
    simp [Decopus.allocate, eventNew, History.allocate, ledger.births]
  placed serial allocated live := by
    simp only [History.allocate, length_append, length_singleton] at allocated
    by_cases last : serial = history.names.length
    · have fresh := eventNext_fresh ledger id
      have pointer := @allocate_pointer_last handler id
      rw [ledger.births, ← last] at pointer
      refine ⟨?_, pointer ▸ fresh.1, pointer ▸ fresh.2.1⟩
      rw [pointer, allocate_events, if_pos rfl, ledger.births, last]
    · exact (ledger.placed serial (by omega) live).allocate ledger (by omega) id
  listNodup := ledger.listNodup.tail
  listBound x member :=
    Nat.lt_of_lt_of_le (ledger.listBound x (mem_of_mem_tail member))
      (eventNext_fresh ledger id).2.2
  recycledNodup := ledger.recycledNodup
  closed := ledger.closed
  entrusted serial held := by
    rcases (History.held_allocate ledger.proper).mp held with before | rfl
    · have entrusted := ledger.entrusted serial before
      have pointer := @allocate_pointer handler id serial (ledger.born before.1)
      have same := @allocate_placed handler id serial (ledger.placed_held before)
      constructor
      · rw [pointer, same, entrusted.id, History.name_allocate before.1]
      · rw [pointer, same]
        exact entrusted.missfol
      · rw [pointer, same]
        exact entrusted.followers
    · have pointer := @allocate_pointer_last handler id
      have unborn := ledger.references_unborn
      rw [ledger.births] at pointer
      constructor
      · rw [pointer, allocate_events, if_pos rfl]
        simp [History.name, History.allocate]
      · rw [pointer, allocate_events, if_pos rfl]
        change (0 : Int) = -(history.references history.names.length : Nat)
        rw [unborn]
        rfl
      · rw [pointer, allocate_events, if_pos rfl]
        exact unborn.symm
  opened commit member live := by
    have opened := ledger.opened commit member live
    have bound := ledger.proper.bounded commit member
    have main := bound commit.main mem_cons_self
    have pointer := @allocate_pointer handler id commit.main (ledger.born main)
    have same := @allocate_placed handler id commit.main
      (ledger.placed_open member live mem_cons_self)
    constructor
    · apply opened.stored.congr
      · exact History.name_allocate main
      · rintro serial (inSerials | inRefs)
        · exact allocate_pointer (ledger.born (bound serial inSerials))
        · exact allocate_pointer (ledger.born (ledger.proper.allocated commit member serial inRefs))
      · intro serial inSerials
        rw [allocate_placed (ledger.placed_open member live inSerials)]
        exact ⟨rfl, rfl, rfl⟩
    · rw [pointer, same]
      exact opened.commited
    · rw [pointer, same]
      exact opened.missfol
    · rw [pointer, same]
      exact opened.stage
  waits devid x member := by
    rw [allocate_waiting ledger member]
    obtain ⟨init, go, commit, inCommits, live, same⟩ := ledger.waits devid x member
    refine ⟨init, go, commit, inCommits, live, ?_⟩
    rw [← same]
    exact allocate_pointer (ledger.born (ledger.proper.bounded commit inCommits _ mem_cons_self))
  started := ledger.started

end

end

end Reverse.Decopus
