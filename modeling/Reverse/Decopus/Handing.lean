import Reverse.Decopus.Ledger

/-!
# Handing over an event

A client fills the containers of an event and `handle_event` takes it over.
With the ledger in order the event is admissible, so that the call returns,
and the ledger is in order again.
-/

namespace Reverse.Decopus

open Tasks List

def EventT.Filled (before after : EventT) : Prop :=
  after = { before with
    id := after.id, hwe := after.hwe, refnext := after.refnext }

theorem fill_filled (handler : Handler WriterLog) (commit : Commit) (x : EventPtr) :
    (handler.events x).Filled ((fill handler commit).events x) := by
  simp only [fill]
  split
  · rfl
  · split <;> rfl

section

variable {history : History} {handler : Handler WriterLog} {waiting : Waiting}
  {missing : EventPtr → List EventPtr} {commit : Commit}

theorem fill_main :
    (fill handler commit).events (handler.pointer commit.main) =
      { handler.events (handler.pointer commit.main) with
        hwe := commit.hwe.map handler.pointer
        refnext := commit.exts.map fun ext => handler.pointer ext.1 } :=
  if_pos rfl

theorem fill_outside (outside : ∀ serial ∈ commit.serials, handler.pointer serial ≠ x) :
    (fill handler commit).events x = handler.events x := by
  have notMain : x ≠ handler.pointer commit.main := (outside commit.main mem_cons_self).symm
  have none : commit.exts.find? (fun ext => handler.pointer ext.1 = x) =
      none := by
    apply List.find?_eq_none.mpr
    intro ext member
    simpa using outside ext.1 (Commit.ext_mem member)
  simp [fill, notMain, none]

section

variable (ledger : Ledger history handler waiting missing) (ready : history.Ready commit)

include ledger ready

theorem Ledger.placed_ready (member : serial ∈ commit.serials) :
    Placed handler serial :=
  ledger.placed_held (ready.held serial member)

theorem fill_ext (member : ext ∈ commit.exts) :
    (fill handler commit).events (handler.pointer ext.1) =
      { handler.events (handler.pointer ext.1) with
        id := (handler.events (handler.pointer commit.main)).id
        hwe := ext.2.map handler.pointer } := by
  have distinct := nodup_cons.mp ready.distinct
  have placed := ledger.placed_ready ready (Commit.ext_mem member)
  have notMain : handler.pointer ext.1 ≠ handler.pointer commit.main := by
    intro same
    have serial := placed.inj (ledger.placed_ready ready mem_cons_self) same
    exact distinct.1 (serial ▸ mem_map_of_mem member)
  have found : commit.exts.find?
      (fun other => handler.pointer other.1 = handler.pointer ext.1) =
        some ext := by
    cases search : commit.exts.find?
        fun other => handler.pointer other.1 = handler.pointer ext.1 with
    | none => simpa using List.find?_eq_none.mp search ext member
    | some other =>
      have inExts := mem_of_find?_eq_some search
      have same : handler.pointer other.1 = handler.pointer ext.1 := by
        simpa using List.find?_some search
      have serial := (ledger.placed_ready ready (Commit.ext_mem inExts)).inj placed same
      rw [inj_on_of_nodup_map distinct.2 inExts member serial]
  simp [fill, notMain, found]

theorem fill_waiting (member : x ∈ waiting devid) :
    (fill handler commit).events x = handler.events x := by
  apply fill_outside
  rintro serial inSerials rfl
  exact ledger.steady.not_waiting ⟨serial, ready.held serial inSerials, rfl⟩ devid member

theorem fill_steady : Steady (fill handler commit) waiting missing (HeldAt history handler) where
  awaiting := by
    refine ledger.steady.awaiting.congr ?_ ?_
    · rfl
    · intro devid x member
      rw [fill_waiting ledger ready member]
      exact ⟨rfl, rfl, rfl, rfl⟩
  commited devid x member := by
    rw [fill_waiting ledger ready member]
    exact ledger.steady.commited devid x member
  owed := ledger.steady.owed
  followers x held e := by
    rw [fill_filled handler commit x]
    exact ledger.steady.followers x held e
  fresh x held := by
    have fresh := ledger.steady.fresh x held
    rw [fill_filled handler commit x]
    exact ⟨fresh.commited, fresh.missref, fresh.init, fresh.go⟩

theorem fill_stored : Stored history (fill handler commit) commit := by
  have main := ledger.entrusted commit.main (ready.held commit.main mem_cons_self)
  constructor
  · exact (congrArg EventT.id fill_main).trans main.id
  · exact congrArg EventT.hwe fill_main
  · exact congrArg EventT.refnext fill_main
  · intro ext member
    exact (congrArg EventT.id (fill_ext ledger ready member)).trans main.id
  · intro ext member
    exact congrArg EventT.hwe (fill_ext ledger ready member)

end

end

section

variable {history : History} {handler : Handler WriterLog} {commit : Commit}

theorem Stored.conts (stored : Stored history handler commit) :
    handler.conts (handler.pointer commit.main) = commit.serials.map handler.pointer := by
  simp [Handler.conts, stored.refnext, Commit.serials]

theorem Stored.refs (stored : Stored history handler commit) :
    handler.refs (handler.pointer commit.main) = commit.refs.map handler.pointer := by
  have exts : (commit.exts.flatMap fun ext =>
      (handler.events (handler.pointer ext.1)).hwe.refs) =
        commit.exts.flatMap fun ext => ext.2.refs.map handler.pointer := by
    apply flatMap_congr
    intro ext member
    rw [stored.extHwe ext member]
    rfl
  simp only [Handler.refs, stored.conts, Commit.serials, map_cons,
    flatMap_cons, map_map, flatMap_map, stored.hwe,
    Commit.refs, map_append, map_flatMap, Function.comp_apply, exts]
  rfl

end

section

variable {history : History} {handler : Handler WriterLog} {waiting : Waiting}
  {missing : EventPtr → List EventPtr} {commit : Commit}

section

variable (ledger : Ledger history handler waiting missing)
  (within : (history.hand commit).Within) (ready : history.Ready commit)

include ledger within ready

/-- A reference is to an event that is held or open.  It cannot be to one that
has been put back, since that event has all the references it expects. -/
theorem Ledger.reference (inRefs : serial ∈ commit.refs) :
    (history.Held serial ∧ serial ∉ commit.exts.map Prod.fst) ∨
      ∃ other ∈ history.commits, serial = other.main ∧ other.main ∉ handler.recycled := by
  have counted := count_pos_iff.mpr inRefs
  have more := @History.references_hand history commit serial
  have notExt : ∀ other ∈ (history.hand commit).commits, serial ∉ other.exts.map Prod.fst := by
    intro other member inExts
    obtain ⟨ext, isExt, rfl⟩ := mem_map.mp inExts
    have none := (within other member).2 ext isExt
    omega
  by_cases held : history.Held serial
  · exact .inl ⟨held, notExt commit (History.mem_hand.mpr (.inr rfl))⟩
  · have handed : serial ∈ history.commits.flatMap Commit.serials := by
      by_contra free
      exact held ⟨ready.allocated serial inRefs, free⟩
    obtain ⟨other, inCommits, inSerials⟩ := mem_flatMap.mp handed
    have inHand : other ∈ (history.hand commit).commits := History.mem_hand.mpr (.inl inCommits)
    have main : serial = other.main := (mem_cons.mp inSerials).resolve_right (notExt other inHand)
    refine .inr ⟨other, inCommits, main, ?_⟩
    intro recycled
    obtain ⟨closedOne, isCommit, inClosed, closed⟩ := ledger.closed other.main recycled
    have bound := (within other inHand).1
    have same := ledger.proper.unique inCommits isCommit mem_cons_self inClosed
    subst same
    rw [main] at more counted
    rw [more, closed.2] at bound
    omega

theorem Ledger.placed_reference (inRefs : serial ∈ commit.refs) : Placed handler serial := by
  rcases ledger.reference within ready inRefs with
    ⟨held, -⟩ | ⟨other, member, rfl, live⟩
  · exact ledger.placed_held held
  · exact ledger.placed_open member live mem_cons_self

theorem fill_admissible :
    Admissible (fill handler commit) (HeldAt history handler) (handler.pointer commit.main) := by
  have stored := fill_stored ledger ready
  have refnext : ((fill handler commit).events
      (handler.pointer commit.main)).refnext = (commit.exts.map Prod.fst).map handler.pointer := by
    rw [map_map]
    exact stored.refnext
  have distinct := nodup_cons.mp ready.distinct
  have placed := fun {serial} member =>
    @Ledger.placed_ready history handler waiting missing commit ledger ready serial member
  constructor
  · exact ⟨commit.main, ready.held commit.main mem_cons_self, rfl⟩
  · intro x member
    rw [refnext] at member
    obtain ⟨serial, inExts, rfl⟩ := mem_map.mp member
    have inSerials : serial ∈ commit.serials := .tail _ inExts
    have held := ready.held serial inSerials
    refine ⟨⟨serial, held, rfl⟩, ?_, ?_⟩
    · intro same
      rw [(placed inSerials).inj (placed mem_cons_self) same] at inExts
      exact distinct.1 inExts
    · rw [fill_filled handler commit]
      apply eq_nil_of_length_eq_zero
      obtain ⟨ext, isExt, rfl⟩ := mem_map.mp inExts
      have none := (within commit (History.mem_hand.mpr (.inr rfl))).2 ext isExt
      rw [History.references_hand] at none
      rw [(ledger.entrusted ext.1 held).followers]
      omega
  · intro x member
    rw [show (fill handler commit).refs (handler.pointer commit.main) =
      commit.refs.map handler.pointer from stored.refs] at member
    obtain ⟨serial, inRefs, rfl⟩ := mem_map.mp member
    rcases ledger.reference within ready inRefs with
      ⟨held, notExt⟩ | ⟨other, inCommits, rfl, live⟩
    · refine .inl ⟨⟨serial, held, rfl⟩, ?_⟩
      rw [refnext]
      intro isExt
      obtain ⟨ext, inExts, same⟩ := mem_map.mp isExt
      rw [(placed (.tail _ inExts)).inj (ledger.placed_held held) same] at inExts
      exact notExt inExts
    · right
      rw [fill_filled handler commit]
      exact (ledger.opened other inCommits live).commited

end

/-- The state in which an event is registered. -/
def begun (handler : Handler WriterLog) (commit : Commit) : Handler WriterLog :=
  { fill handler commit with startDone := true }

def registered (handler : Handler WriterLog) (commit : Commit) : Handler WriterLog :=
  registerEvent hwetraceWrite (begun handler commit) (handler.pointer commit.main)

section

variable (ledger : Ledger history handler waiting missing)

include ledger

theorem begun_steady (ready : history.Ready commit) :
    Steady (begun handler commit) waiting missing (HeldAt history handler) :=
  have steady := fill_steady ledger ready
  { awaiting := steady.awaiting.congr rfl fun _ _ _ => ⟨rfl, rfl, rfl, rfl⟩
    commited := steady.commited
    owed := steady.owed
    followers := steady.followers
    fresh := steady.fresh }

theorem begun_admissible (within : (history.hand commit).Within) (ready : history.Ready commit) :
    Admissible (begun handler commit) (HeldAt history handler) (handler.pointer commit.main) :=
  have admissible := fill_admissible ledger within ready
  ⟨admissible.self, admissible.exts, admissible.refs⟩

theorem begun_refs (ready : history.Ready commit) :
    (begun handler commit).refs (handler.pointer commit.main) = commit.refs.map handler.pointer :=
  (fill_stored ledger ready).refs

theorem begun_conts (ready : history.Ready commit) :
    (begun handler commit).conts (handler.pointer commit.main) =
      commit.serials.map handler.pointer :=
  (fill_stored ledger ready).conts

theorem count_pointer (within : (history.hand commit).Within)
    (ready : history.Ready commit) (placed : Placed handler serial) :
    (commit.refs.map handler.pointer).count (handler.pointer serial) =
      commit.refs.count serial := by
  rw [List.count, countP_map]
  apply countP_congr
  intro ref inRefs
  have other := ledger.placed_reference within ready inRefs
  simp only [Function.comp_apply, beq_iff_eq]
  constructor
  · exact fun same => other.inj placed same
  · rintro rfl
    rfl

theorem registered_eq (ready : history.Ready commit) (x : EventPtr) :
    (registered handler commit).events x =
      { (fill handler commit).events x with
        init := ((registered handler commit).events x).init
        missref := ((registered handler commit).events x).missref
        missfol := (handler.events x).missfol +
            (if x = handler.pointer commit.main then (commit.expected : Int) else 0) -
          (commit.refs.map handler.pointer).count x
        followers := ((registered handler commit).events x).followers } := by
  have queued := (begun_steady ledger ready).awaiting.queues.queue
    ((begun handler commit).events (handler.pointer commit.main)).id.devid
  have refs := begun_refs ledger ready
  have main : ((begun handler commit).events
      (handler.pointer commit.main)).hwe.expected = commit.hwe.expected :=
    congrArg (fun event => event.hwe.expected) fill_main
  have missfol : ((begun handler commit).events x).missfol = (handler.events x).missfol := by
    change ((fill handler commit).events x).missfol = _
    rw [fill_filled handler commit x]
  rw [registered, registerEvent_eq queued]
  simp only [refs, main, missfol]
  rfl

theorem registered_unmoved (ready : history.Ready commit) :
    Unmoved (begun handler commit) (registered handler commit) :=
  registerEvent_unmoved ((begun_steady ledger ready).awaiting.queues.queue _)

theorem registered_pointer (ready : history.Ready commit) :
    (registered handler commit).pointer = handler.pointer := by
  funext serial
  exact congrArg (fun births => births.getD serial 0) (registered_unmoved ledger ready).births

theorem registered_kept (ready : history.Ready commit) (x : EventPtr) :
    ((registered handler commit).events x).serial = (handler.events x).serial ∧
      ((registered handler commit).events x).commited = (handler.events x).commited ∧
      ((registered handler commit).events x).go = (handler.events x).go := by
  rw [registered_eq ledger ready x]
  change ((fill handler commit).events x).serial = _ ∧
    ((fill handler commit).events x).commited = _ ∧
    ((fill handler commit).events x).go = _
  rw [fill_filled handler commit x]
  exact ⟨rfl, rfl, rfl⟩

theorem registered_missfol (within : (history.hand commit).Within)
    (ready : history.Ready commit) (placed : Placed handler serial) :
    ((registered handler commit).events (handler.pointer serial)).missfol =
      (handler.events (handler.pointer serial)).missfol +
          (if serial = commit.main then (commit.expected : Int) else 0) -
        commit.refs.count serial := by
  have main : handler.pointer serial = handler.pointer commit.main ↔ serial = commit.main := by
    constructor
    · exact placed.inj (ledger.placed_ready ready mem_cons_self)
    · rintro rfl
      rfl
  rw [registered_eq ledger ready]
  simp only [count_pointer ledger within ready placed, main]

theorem fill_open (ready : history.Ready commit)
    (placed : Placed handler serial) (apart : serial ∉ commit.serials) :
    (fill handler commit).events (handler.pointer serial) =
      handler.events (handler.pointer serial) := by
  apply fill_outside
  intro other inSerials same
  exact apart ((ledger.placed_ready ready inSerials).inj placed same ▸ inSerials)

theorem registered_stored (ready : history.Ready commit)
    (member : other ∈ (history.hand commit).commits) (live : other.main ∉ handler.recycled) :
    Stored (history.hand commit) (registered handler commit) other := by
  have pointer := registered_pointer ledger ready
  have stored : Stored history (fill handler commit) other := by
    rcases History.mem_hand.mp member with before | rfl
    · refine (ledger.opened other before live).stored.congr rfl (fun _ _ => rfl) ?_
      intro serial inSerials
      rw [fill_open ledger ready (ledger.placed_open before live inSerials)]
      · exact ⟨rfl, rfl, rfl⟩
      · intro again
        exact (ready.held serial again).2 (mem_flatMap.mpr ⟨other, before, inSerials⟩)
    · exact fill_stored ledger ready
  refine stored.congr ?_ ?_ ?_
  · rfl
  · intro serial _
    exact congrFun pointer serial
  · intro serial _
    rw [registered_eq ledger ready]
    exact ⟨rfl, rfl, rfl⟩

end

end

end Reverse.Decopus
