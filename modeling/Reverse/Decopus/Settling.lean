import Mathlib.Data.List.Perm.Basic
import Reverse.Decopus.Handing

/-!
# The ledger after an event

What `handle_event` leaves behind: the events that have been written, those
among them that are put back, and the ledger of the longer history.
-/

namespace Reverse.Decopus

open Tasks
open List hiding after

section

variable {history : History} {handler : Handler WriterLog} {waiting : Waiting}
  {missing : EventPtr → List EventPtr} {commit : Commit}

/-- The events `closing` are put back with all their containers. -/
structure Traced (history : History) (handler : Handler WriterLog)
    (waiting : Waiting) (commit : Commit) (after : Handler WriterLog)
    (left : Waiting) (ran : List EventPtr) (closing : List Commit) :
    Prop where
  advance : Advance (registered handler commit)
    (enter (begun handler commit) waiting (handler.pointer commit.main))
    after left ran
  closes : ∀ other, other ∈ closing ↔
    other ∈ (history.hand commit).commits ∧
      other.main ∉ handler.recycled ∧
      handler.pointer other.main ∈ ran ∧
      ((registered handler commit).events
        (handler.pointer other.main)).missfol = 0
  nodup : closing.Nodup
  list : after.list =
    ((closing.flatMap Commit.serials).map handler.pointer).reverse ++
      handler.list
  recycled : after.recycled =
    handler.recycled ++ closing.flatMap Commit.serials

section

variable (ledger : Ledger history handler waiting missing) (ready : history.Ready commit)

include ledger ready

theorem Ledger.placed_handed (member : other ∈ (history.hand commit).commits)
    (live : other.main ∉ handler.recycled) (inSerials : serial ∈ other.serials) :
    Placed handler serial := by
  rcases History.mem_hand.mp member with before | rfl
  · exact ledger.placed_open before live inSerials
  · exact ledger.placed_ready ready inSerials

theorem Ledger.main_live : commit.main ∉ handler.recycled :=
  ledger.held_live (ready.held commit.main mem_cons_self)

theorem Ledger.waiting_commit
    (member : x ∈ enter (begun handler commit) waiting (handler.pointer commit.main) devid) :
    ∃ other, (other ∈ (history.hand commit).commits ∧
      other.main ∉ handler.recycled) ∧ handler.pointer other.main = x := by
  rcases mem_enter.mp member with before | ⟨rfl, -⟩
  · obtain ⟨-, -, other, inCommits, live, same⟩ := ledger.waits devid x before
    exact ⟨other, ⟨History.mem_hand.mpr (.inl inCommits), live⟩, same⟩
  · exact ⟨commit, ⟨History.mem_hand.mpr (.inr rfl), ledger.main_live ready⟩, rfl⟩

end

theorem exists_map {p : α → Prop} (all : ∀ y ∈ ys, ∃ x, p x ∧ f x = y) :
    ∃ xs : List α, xs.map f = ys ∧ ∀ x ∈ xs, p x := by
  induction ys with
  | nil => exact ⟨[], rfl, by simp⟩
  | cons y ys ih =>
    obtain ⟨x, holds, rfl⟩ := all y mem_cons_self
    obtain ⟨xs, rfl, rest⟩ := ih fun y member => all y (.tail _ member)
    exact ⟨x :: xs, rfl, by simpa using ⟨holds, rest⟩⟩

theorem Advance.traced (ledger : Ledger history handler waiting missing)
    (ready : history.Ready commit) (advance : Advance (registered handler commit)
      (enter (begun handler commit) waiting (handler.pointer commit.main))
      after left ran) :
    ∃ closing, Traced history handler waiting commit after left ran closing := by
  have unmoved := registered_unmoved ledger ready
  obtain ⟨back, permutation, list, recycled⟩ := advance.returned
  have inBack : ∀ {x}, x ∈ back ↔ x ∈ ran ∧ ((registered handler commit).events x).missfol = 0 := by
    intro x
    rw [permutation.mem_iff, mem_filter, decide_eq_true_iff]
  have named : ∀ x ∈ back, ∃ other,
      (other ∈ (history.hand commit).commits ∧
        other.main ∉ handler.recycled) ∧ handler.pointer other.main = x := by
    intro x member
    obtain ⟨devid, queued⟩ := advance.queued x (inBack.mp member).1
    exact ledger.waiting_commit ready queued
  obtain ⟨closing, rfl, handed⟩ := exists_map named
  have proper := ledger.proper.hand ready
  have placed : ∀ other ∈ closing, ∀ serial ∈ other.serials,
      Placed handler serial := fun other member serial inSerials =>
    ledger.placed_handed ready (handed other member).1 (handed other member).2 inSerials
  have conts : ((closing.map fun other => handler.pointer other.main).flatMap
      (registered handler commit).conts) =
        (closing.flatMap Commit.serials).map handler.pointer := by
    rw [flatMap_map, map_flatMap]
    apply flatMap_congr
    intro other member
    have stored := registered_stored ledger ready (handed other member).1 (handed other member).2
    have conts := stored.conts
    rwa [registered_pointer ledger ready] at conts
  have serials : ((closing.flatMap Commit.serials).map handler.pointer).map
      (fun x => ((registered handler commit).events x).serial) =
        closing.flatMap Commit.serials := by
    rw [map_map]
    refine Eq.trans (map_congr_left ?_) (map_id _)
    intro serial member
    obtain ⟨other, inClosing, inSerials⟩ := mem_flatMap.mp member
    exact (registered_kept ledger ready _).1.trans
      (placed other inClosing serial inSerials).numbered
  refine ⟨closing, advance, ?_, ?_, ?_, ?_⟩
  · intro other
    constructor
    · intro member
      have returned := inBack.mp (mem_map_of_mem member)
      exact ⟨(handed other member).1, (handed other member).2, returned⟩
    · rintro ⟨member, live, returned⟩
      obtain ⟨found, inClosing, same⟩ := mem_map.mp (inBack.mpr returned)
      have main : found.main = other.main :=
        (placed found inClosing _ mem_cons_self).inj
          (ledger.placed_handed ready member live mem_cons_self) same
      have equal := proper.unique (handed found inClosing).1 member
        mem_cons_self (main ▸ mem_cons_self)
      exact equal ▸ inClosing
  · exact List.Nodup.of_map _ (permutation.nodup_iff.mpr (advance.nodup.filter _))
  · rw [list, conts, unmoved.list]
    rfl
  · rw [recycled, conts, serials, unmoved.recycled]
    rfl

section

variable (ledger : Ledger history handler waiting missing)

include ledger

theorem Ledger.handed_live (ready : history.Ready commit)
    (member : other ∈ (history.hand commit).commits) (live : other.main ∉ handler.recycled)
    (inSerials : serial ∈ other.serials) :
    serial ∉ handler.recycled := by
  rcases History.mem_hand.mp member with before | rfl
  · exact ledger.open_live before live inSerials
  · exact ledger.held_live (ready.held serial inSerials)

/-- The counter `missfol` is what an event still expects. -/
theorem registered_owes (within : (history.hand commit).Within) (ready : history.Ready commit)
    (member : other ∈ (history.hand commit).commits) (live : other.main ∉ handler.recycled) :
    ((registered handler commit).events (handler.pointer other.main)).missfol =
      other.expected - (history.hand commit).references other.main := by
  rw [registered_missfol ledger within ready
    (ledger.placed_handed ready member live mem_cons_self),
    History.references_hand]
  rcases History.mem_hand.mp member with before | rfl
  · have differ : other.main ≠ commit.main := by
      intro same
      exact (ready.held commit.main mem_cons_self).2
        (mem_flatMap.mpr ⟨other, before, same ▸ mem_cons_self⟩)
    rw [(ledger.opened other before live).missfol, if_neg differ]
    push_cast
    ring
  · have held := ready.held other.main mem_cons_self
    rw [(ledger.entrusted other.main held).missfol, if_pos rfl]
    push_cast
    ring

theorem registered_init_done (ready : history.Ready commit) (x : EventPtr) :
    ((registered handler commit).events x).init.done = (handler.events x).init.done := by
  have queued := (begun_steady ledger ready).awaiting.queues.queue
    ((begun handler commit).events (handler.pointer commit.main)).id.devid
  have filled : ((begun handler commit).events x).init = (handler.events x).init := by
    change ((fill handler commit).events x).init = _
    rw [fill_filled handler commit x]
  rw [registered, registerEvent_eq queued]
  simp only [expecting_init, putInfifo_events queued, filled]

theorem stillHeld_iff (ready : history.Ready commit) :
    stillHeld (begun handler commit) (HeldAt history handler) (handler.pointer commit.main) x ↔
      ∃ serial, (history.hand commit).Held serial ∧ handler.pointer serial = x := by
  unfold stillHeld
  rw [begun_conts ledger ready]
  constructor
  · rintro ⟨⟨serial, held, rfl⟩, apart⟩
    refine ⟨serial, History.held_hand.mpr ⟨held, ?_⟩, rfl⟩
    exact fun inSerials => apart (mem_map_of_mem inSerials)
  · rintro ⟨serial, held, rfl⟩
    obtain ⟨before, apart⟩ := History.held_hand.mp held
    refine ⟨⟨serial, before, rfl⟩, ?_⟩
    intro member
    obtain ⟨other, inSerials, same⟩ := mem_map.mp member
    apply apart
    rwa [← (ledger.placed_ready ready inSerials).inj (ledger.placed_held before) same]

end

end

namespace Traced

variable {history : History} {handler : Handler WriterLog} {waiting : Waiting}
  {missing : EventPtr → List EventPtr} {commit : Commit}
  {after : Handler WriterLog} {left : Waiting} {ran : List EventPtr}
  {closing : List Commit}

section

variable (ledger : Ledger history handler waiting missing)
  (ready : history.Ready commit)
  (traced : Traced history handler waiting commit after left ran closing)

include ledger ready traced

theorem pointer : after.pointer = handler.pointer := by
  funext serial
  rw [← registered_pointer ledger ready]
  exact congrArg (fun births => births.getD serial 0) traced.advance.births

theorem returned_placed (member : serial ∈ closing.flatMap Commit.serials) :
    Placed handler serial ∧ serial ∉ handler.recycled := by
  obtain ⟨other, inClosing, inSerials⟩ := mem_flatMap.mp member
  obtain ⟨handed, live, -⟩ := (traced.closes other).mp inClosing
  exact ⟨ledger.placed_handed ready handed live inSerials,
    ledger.handed_live ready handed live inSerials⟩

theorem returned_nodup : (closing.flatMap Commit.serials).Nodup := by
  have proper := ledger.proper.hand ready
  apply nodup_flatMap.mpr
  constructor
  · intro other member
    exact (nodup_flatMap.mp proper.nodup).1 other ((traced.closes other).mp member).1
  · apply traced.nodup.pairwise_of_forall_ne
    intro first inFirst second inSecond differ serial isFirst isSecond
    exact differ (proper.unique ((traced.closes first).mp inFirst).1
      ((traced.closes second).mp inSecond).1 isFirst isSecond)

theorem placed (was : Placed handler serial) (live : serial ∉ after.recycled) :
    Placed after serial := by
  have pointer := congrFun (traced.pointer ledger ready) serial
  have unmoved := registered_unmoved ledger ready
  constructor
  · rw [pointer, (traced.advance.kept _).serial, (registered_kept ledger ready _).1, was.numbered]
  · rw [pointer, traced.list, mem_append, mem_reverse]
    rintro (returned | listed)
    · obtain ⟨other, member, same⟩ := mem_map.mp returned
      apply live
      rw [traced.recycled, ← (traced.returned_placed ledger ready member).1.inj was same]
      exact mem_append_right _ member
    · exact was.unlisted listed
  · rw [pointer, traced.advance.nb, unmoved.nb]
    exact was.bound

theorem listNodup : after.list.Nodup := by
  rw [traced.list]
  refine nodup_append.mpr ⟨?_, ledger.listNodup, ?_⟩
  · rw [nodup_reverse]
    apply (traced.returned_nodup ledger ready).map_on
    intro first inFirst second inSecond same
    exact (traced.returned_placed ledger ready inFirst).1.inj
      (traced.returned_placed ledger ready inSecond).1 same
  · rintro x returned _ listed rfl
    obtain ⟨serial, member, rfl⟩ := mem_map.mp (mem_reverse.mp returned)
    exact (traced.returned_placed ledger ready member).1.unlisted listed

theorem listBound : ∀ x ∈ after.list, x < after.nb := by
  intro x member
  rw [traced.advance.nb, (registered_unmoved ledger ready).nb]
  rw [traced.list, mem_append, mem_reverse] at member
  rcases member with returned | listed
  · obtain ⟨serial, member, rfl⟩ := mem_map.mp returned
    exact (traced.returned_placed ledger ready member).1.bound
  · exact ledger.listBound x listed

theorem recycledNodup : after.recycled.Nodup := by
  rw [traced.recycled]
  refine nodup_append.mpr ⟨ledger.recycledNodup, traced.returned_nodup ledger ready, ?_⟩
  rintro serial before _ returned rfl
  exact (traced.returned_placed ledger ready returned).2 before

end

section

variable (ledger : Ledger history handler waiting missing)
  (within : (history.hand commit).Within) (ready : history.Ready commit)
  (traced : Traced history handler waiting commit after left ran closing)

include ledger within ready traced

theorem closed (member : serial ∈ after.recycled) :
    ∃ other ∈ (history.hand commit).commits, serial ∈ other.serials ∧
      Closed (history.hand commit) after other := by
  rw [traced.recycled, mem_append] at member
  rcases member with before | returned
  · obtain ⟨other, inCommits, inSerials, recycled, counted⟩ := ledger.closed serial before
    have handed : other ∈ (history.hand commit).commits := History.mem_hand.mpr (.inl inCommits)
    refine ⟨other, handed, inSerials, ?_, ?_⟩
    · rw [traced.recycled]
      exact mem_append_left _ recycled
    · have bound := (within other handed).1
      rw [History.references_hand] at bound ⊢
      omega
  · obtain ⟨other, inClosing, inSerials⟩ := mem_flatMap.mp returned
    obtain ⟨handed, live, -, settled⟩ := (traced.closes other).mp inClosing
    refine ⟨other, handed, inSerials, ?_, ?_⟩
    · rw [traced.recycled]
      exact mem_append_right _ (mem_flatMap.mpr ⟨other, inClosing, mem_cons_self⟩)
    · rw [registered_owes ledger within ready handed live] at settled
      omega

theorem entrusted (held : (history.hand commit).Held serial) :
    Entrusted (history.hand commit) after serial := by
  obtain ⟨before, apart⟩ := History.held_hand.mp held
  have steady := begun_steady ledger ready
  have placed := ledger.placed_held before
  have entrusted := ledger.entrusted serial before
  have pointer := congrFun (traced.pointer ledger ready) serial
  have filled := fill_open ledger ready placed apart
  have notMain : serial ≠ commit.main := by
    rintro rfl
    exact apart mem_cons_self
  have same : after.events (handler.pointer serial) =
      (registered handler commit).events (handler.pointer serial) := by
    apply traced.advance.outside
    intro devid member
    rcases mem_enter.mp member with waits | ⟨isMain, -⟩
    · exact ledger.steady.not_waiting ⟨serial, before, rfl⟩ devid waits
    · exact notMain (placed.inj (ledger.placed_ready ready mem_cons_self) isMain)
  constructor
  · rw [pointer, same, registered_eq ledger ready]
    exact (congrArg EventT.id filled).trans entrusted.id
  · rw [pointer, same, registered_missfol ledger within ready placed,
      entrusted.missfol, if_neg notMain, History.references_hand]
    push_cast
    ring
  · rw [pointer, same, registered,
      registerEvent_followers steady ⟨serial, before, rfl⟩,
      begun_refs ledger ready, count_pointer ledger within ready placed,
      length_append, length_replicate, History.references_hand,
      Nat.add_comm]
    congr 1
    rw [← entrusted.followers]
    exact congrArg (fun event => event.followers.length) filled

theorem opened (commited : (after.events (handler.pointer commit.main)).commited = true)
    (member : other ∈ (history.hand commit).commits) (live : other.main ∉ handler.recycled) :
    Open (history.hand commit) after left other := by
  have pointer := traced.pointer ledger ready
  have main := congrFun pointer other.main
  constructor
  · refine (registered_stored ledger ready member live).congr rfl ?_ ?_
    · intro serial _
      rw [pointer, registered_pointer ledger ready]
    · intro serial _
      have kept := traced.advance.kept ((registered handler commit).pointer serial)
      exact ⟨kept.id, kept.hwe, kept.refnext⟩
  · rw [main]
    rcases History.mem_hand.mp member with before | rfl
    · apply traced.advance.commited
      rw [(registered_kept ledger ready _).2.1]
      exact (ledger.opened other before live).commited
    · exact commited
  · rw [main, (traced.advance.kept _).missfol]
    exact registered_owes ledger within ready member live
  · rw [main]
    have entered : (∃ devid, handler.pointer other.main ∈
        enter (begun handler commit) waiting (handler.pointer commit.main)
          devid) ∨
          (handler.events (handler.pointer other.main)).go.done = true := by
      rcases History.mem_hand.mp member with before | rfl
      · rcases (ledger.opened other before live).stage with
          ⟨devid, waits⟩ | done
        · exact .inl ⟨devid, mem_enter.mpr (.inl waits)⟩
        · exact .inr done
      · exact .inl ⟨_, mem_enter.mpr (.inr ⟨rfl, rfl⟩)⟩
    rcases entered with ⟨devid, waits⟩ | done
    · rcases traced.advance.left_or_ran waits with stays | inRan
      · exact .inl ⟨devid, stays⟩
      · exact .inr (traced.advance.done _ inRan).2
    · right
      by_cases inRan : handler.pointer other.main ∈ ran
      · exact (traced.advance.done _ inRan).2
      · rw [(traced.advance.still _ inRan).2, (registered_kept ledger ready _).2.2]
        exact done

end

theorem waits (ledger : Ledger history handler waiting missing) (ready : history.Ready commit)
    (traced : Traced history handler waiting commit after left ran closing)
    (member : x ∈ left devid) :
    (after.events x).init.done = false ∧ (after.events x).go.done = false ∧
      ∃ other ∈ (history.hand commit).commits,
        other.main ∉ after.recycled ∧ after.pointer other.main = x := by
  have notRan : x ∉ ran := fun inRan =>
    traced.advance.gone x inRan devid member
  have entered := traced.advance.waited member
  have before : (handler.events x).init.done = false ∧ (handler.events x).go.done = false := by
    rcases mem_enter.mp entered with waits | ⟨rfl, -⟩
    · obtain ⟨init, go, -⟩ := ledger.waits devid x waits
      exact ⟨init, go⟩
    · have fresh := ledger.steady.fresh _ ⟨commit.main, ready.held commit.main mem_cons_self, rfl⟩
      rw [fresh.init]
      exact ⟨rfl, fresh.go⟩
  obtain ⟨other, ⟨handed, live⟩, same⟩ := ledger.waiting_commit ready entered
  refine ⟨?_, ?_, other, handed, ?_, ?_⟩
  · rw [(traced.advance.still x notRan).1, registered_init_done ledger ready]
    exact before.1
  · rw [(traced.advance.still x notRan).2, (registered_kept ledger ready x).2.2]
    exact before.2
  · rw [traced.recycled, mem_append]
    rintro (recycled | returned)
    · exact live recycled
    · obtain ⟨found, inClosing, inSerials⟩ := mem_flatMap.mp returned
      obtain ⟨isHanded, -, inRan, -⟩ := (traced.closes found).mp inClosing
      have equal := (ledger.proper.hand ready).unique isHanded handed inSerials mem_cons_self
      exact notRan (same ▸ equal ▸ inRan)
  · rw [traced.pointer ledger ready, same]

theorem ledger (before : Ledger history handler waiting missing)
    (within : (history.hand commit).Within) (ready : history.Ready commit)
    (traced : Traced history handler waiting commit after left ran closing)
    (steady : Steady after left
      (missingAfter (begun handler commit) missing (handler.pointer commit.main))
      (stillHeld (begun handler commit) (HeldAt history handler) (handler.pointer commit.main)))
    (commited : (after.events (handler.pointer commit.main)).commited = true) :
    Ledger (history.hand commit) after left
      (missingAfter (begun handler commit) missing (handler.pointer commit.main)) := by
  have pointer := traced.pointer before ready
  have unmoved := registered_unmoved before ready
  have survived : ∀ serial, serial ∉ after.recycled → serial ∉ handler.recycled := by
    intro serial live recycled
    rw [traced.recycled] at live
    exact live (mem_append_left _ recycled)
  have heldAt : stillHeld (begun handler commit) (HeldAt history handler)
      (handler.pointer commit.main) = HeldAt (history.hand commit) after := by
    funext x
    apply propext
    rw [stillHeld_iff before ready, HeldAt, pointer]
  exact
    { proper := before.proper.hand ready
      steady := heldAt ▸ steady
      births := by
        rw [traced.advance.births, unmoved.births]
        exact before.births
      placed := fun serial allocated live =>
        traced.placed before ready (before.placed serial allocated (survived serial live)) live
      listNodup := traced.listNodup before ready
      listBound := traced.listBound before ready
      recycledNodup := traced.recycledNodup before ready
      closed := fun serial => traced.closed before within ready
      entrusted := fun serial => traced.entrusted before within ready
      opened := fun other member live =>
        traced.opened before within ready commited member (survived other.main live)
      waits := fun devid x => traced.waits before ready
      started := by
        intro notStarted
        rw [traced.advance.startDone, unmoved.startDone] at notStarted
        cases notStarted }

end Traced

end Reverse.Decopus
