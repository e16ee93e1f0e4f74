import Reverse.Decopus.ReaderSteps

/-!
# The events of the reader

An event is stored, inserted, handed over when nothing it refers to is missing,
and its node is deleted when nothing more refers to it.
-/

namespace Reverse.Decopus

open Function List

section

variable {exact : Prop} {ms : Reader} {g : Ghost}

theorem NodeInv.state_sent {id : HweId} (fits : NodeInv ms g id node) (trace : ReaderTrace ms g)
    (member : event ∈ g.seen) (isId : event.id = id) (isSent : event ∉ g.unsent)
    (isMain : node.hwe = some main) : node.state = .commited := by
  obtain ⟨other, isSeen, otherId, -, isUnsent | isState⟩ := fits.known main isMain
  · rw [trace.event_unique isSeen member (otherId.trans isId.symm)] at isUnsent
    exact absurd isUnsent isSent
  · exact isState

theorem ReaderNodes.not_unsent (nodes : ReaderNodes ms g)
    (isState : (ms.nodes p).state = .commited) (member : event ∈ g.unsent) :
    p ∉ ms.trees event.id := by
  intro found
  cases Option.some.inj ((nodes.place event member).symm.trans found)
  have state := (nodes.entry event member).state
  rw [isState] at state
  split at state <;> cases state

theorem NodeInv.commited {id : HweId} (fits : NodeInv ms g id node)
    (isState : node.state = .commited) : ∃ main, node.hwe = some main := by
  cases isMain : node.hwe with
  | none => cases isState.symm.trans (fits.unknown isMain).1
  | some main => exact ⟨main, rfl⟩

theorem ReaderNodes.unsolved_commited (nodes : ReaderNodes ms g) (trace : ReaderTrace ms g)
    {id : HweId} (found : p ∈ ms.trees id) (isState : (ms.nodes p).state = .commited) :
    g.unsolved ms id = [] := by
  have fits := nodes.node id p found
  obtain ⟨main, isMain⟩ := fits.commited isState
  have waiting := fits.waits
  rw [Ghost.waiting_known isMain] at waiting
  · exact map_eq_nil_iff.mp waiting.nil_eq.symm
  · intro isCur
    obtain ⟨current, isUnsent, isCurrent⟩ := nodes.current main isCur
    obtain ⟨event, isSeen, isId, eventMain, -⟩ := fits.known main isMain
    have same : event = current :=
      trace.main_unique isSeen (Ghost.unsent_seen isUnsent) (eventMain.trans isCurrent.symm)
    rw [← isId, same] at found
    exact nodes.not_unsent isState isUnsent found

/-- The reader without the node of an id. -/
abbrev Reader.deleted (ms : Reader) (id : HweId) (p : RhwePtr) : Reader :=
  { ms with trees := update ms.trees id none, free := p :: ms.free }

theorem trees_delete {id other : HweId} (isTree : q ∈ update ms.trees id none other) :
    q ∈ ms.trees other ∧ id ≠ other := by
  by_cases same : other = id
  · rw [same, update_self] at isTree
    cases isTree
  · rw [update_of_ne same] at isTree
    exact ⟨isTree, Ne.symm same⟩

section Delete

variable {id : HweId} (nodes : ReaderNodes ms g) (found : p ∈ ms.trees id)
  (isState : (ms.nodes p).state = .commited)

include nodes found isState

theorem ReaderNodes.delete : ReaderNodes (ms.deleted id p) { g with doomed := none } := by
  obtain ⟨isBound, isUsed⟩ := nodes.trees id p found
  refine { nodes with
    trees := ?_, node := ?_, freeNodup := ?_, freeBound := ?_, place := ?_
    entry := fun event member => { nodes.entry event member with } }
  · intro other q isTree
    obtain ⟨wasTree, differ⟩ := trees_delete isTree
    obtain ⟨bound, unlisted⟩ := nodes.trees other q wasTree
    refine ⟨bound, not_mem_cons_of_ne_of_not_mem ?_ unlisted⟩
    exact mt (nodes.same_iff found wasTree).mp differ
  · intro other q isTree
    exact { nodes.node other q (trees_delete isTree).1 with }
  · exact nodup_cons.mpr ⟨isUsed, nodes.freeNodup⟩
  · exact forall_mem_cons.mpr ⟨isBound, nodes.freeBound⟩
  · intro event member
    refine (update_of_ne ?_ ..).trans (nodes.place event member)
    rintro rfl
    exact nodes.not_unsent isState member found

theorem ReaderCounts.delete (counts : ReaderCounts ms g) (doomed : g.doomed = some p)
    (unsolved : g.unsolved ms id = []) (noMore : (ms.nodes p).missExp = 0) :
    ReaderCounts (ms.deleted id p) { g with doomed := none } := by
  refine ⟨?_, ?_, ?_⟩
  · intro other q isTree
    obtain ⟨wasTree, differ⟩ := trees_delete isTree
    have fits := counts.node other q wasTree
    refine { fits with kept := fun event member sameId isSent _ => ?_ }
    refine fits.kept event member sameId isSent fun isDoomed => differ ?_
    exact (nodes.same_iff found wasTree).mp (Option.some.inj (isDoomed.symm.trans doomed))
  · intro event member isNone
    by_cases same : event.id = id
    · have missExp := (counts.node id p found).missExp event member same
      have total := g.closed_add_unsolved ms id
      rw [unsolved, length_nil] at total
      dsimp only
      rw [same]
      omega
    · exact counts.removed event member ((update_of_ne same ..).symm.trans isNone)
  · intro other isNew
    refine ⟨(counts.unread other isNew).1, fun isNone => ?_⟩
    have differ : other ≠ id := by
      rintro rfl
      have fits := nodes.node other p found
      obtain ⟨main, isMain⟩ := fits.commited isState
      obtain ⟨event, isSeen, isId, -⟩ := fits.known main isMain
      exact isNew event isSeen isId
    exact (counts.unread other isNew).2 ((update_of_ne differ ..).symm.trans isNone)

end Delete

theorem ReaderInv.delete {id : HweId} (inv : ReaderInv exact ms g)
    (found : p ∈ ms.trees id) (doomed : g.doomed = some p)
    (isState : (ms.nodes p).state = .commited) (noMore : (ms.nodes p).missExp = 0) :
    ReaderInv exact (ms.deleted id p) { g with doomed := none } := by
  obtain ⟨trace, nodes, waits, counts, log⟩ := inv
  have unsolved := nodes.unsolved_commited trace found isState
  refine ⟨{ trace with }, nodes.delete found isState, { waits with absent := ?_ },
    fun isExact => (counts isExact).delete nodes found isState doomed unsolved noMore, log⟩
  intro other isNone
  by_cases same : other = id
  · rw [same]
    exact unsolved
  · exact waits.absent other ((update_of_ne same ..).symm.trans isNone)

theorem ReaderInv.tryDelete {id : HweId} (inv : ReaderInv exact ms g)
    (found : p ∈ ms.trees id) (doomed : g.doomed = some p) :
    ReaderInv exact (tryDelete ms p) { g with doomed := none } := by
  have here := inv.nodes.node id p found
  unfold Decopus.tryDelete
  split
  next ready =>
    rw [here.key]
    exact inv.delete found doomed ready.1 ready.2
  next notReady =>
    obtain ⟨trace, nodes, waits, counts, log⟩ := inv
    refine ⟨{ trace with }, { nodes with node := ?_, entry := ?_ }, { waits with }, fun isExact => ?_,
      log⟩
    · exact fun other q isTree => { nodes.node other q isTree with }
    · exact fun event member => { nodes.entry event member with }
    · refine { counts isExact with node := fun other q isTree => ?_ }
      have fits := (counts isExact).node other q isTree
      refine { fits with kept := fun event member sameId isSent _ => ?_ }
      by_cases isHere : q = p
      · subst isHere
        intro noMore
        have isMain := fits.present event member sameId
        exact notReady ⟨(nodes.node other q isTree).state_sent trace member sameId isSent isMain,
          noMore⟩
      · refine fits.kept event member sameId isSent fun isDoomed => ?_
        exact isHere (Option.some.inj (isDoomed.symm.trans doomed))

theorem ReaderInv.head (inv : ReaderInv exact ms g) (isFifo : ms.fifo = rhwe :: fifo) :
    ∃ event unsent, g.unsent = event :: unsent ∧
      rhwe = g.place event.main ∧
      fifo = unsent.map fun event => g.place event.main := by
  have fifo := inv.nodes.fifo
  rw [isFifo] at fifo
  cases isUnsent : g.unsent with
  | nil =>
    rw [isUnsent] at fifo
    cases fifo
  | cons event unsent =>
    rw [isUnsent, map_cons] at fifo
    obtain ⟨isRhwe, isRest⟩ := List.cons.inj fifo
    exact ⟨event, unsent, rfl, isRhwe, isRest⟩

/-- What the trace has for an id. -/
def handleOf (events : List TraceEvent) (id : HweId) : Nat :=
  ((events.find? fun event => event.id = id).map TraceEvent.main).getD 0

theorem ReaderTrace.handleOf_id (trace : ReaderTrace ms g) (member : event ∈ g.seen) :
    handleOf g.seen event.id = event.main := by
  unfold handleOf
  have found : (g.seen.find? fun other => other.id = event.id) =
      some event := by
    cases isFound : g.seen.find? fun other => other.id = event.id with
    | none =>
      have never := List.find?_eq_none.mp isFound event member
      simp at never
    | some other =>
      have sameId := List.find?_some isFound
      rw [trace.event_unique (mem_of_find?_eq_some isFound) member (of_decide_eq_true sameId)]
  rw [found]
  rfl

theorem TraceEvent.notes_mem {event : TraceEvent} (member : cont ∈ event.conts)
    (bound : i < cont.2.refs.length) :
    (⟨event.main, cont.1, i, cont.2.refs[i]⟩ : Note) ∈ event.notes := by
  unfold TraceEvent.notes
  apply mem_flatMap_of_mem member
  apply mem_map.mpr
  refine ⟨(cont.2.refs[i], i), ?_, rfl⟩
  rw [mem_zipIdx_iff_getElem?]
  exact List.getElem?_eq_getElem bound

theorem ReaderInv.solved_conts (inv : ReaderInv exact ms g)
    (isSeen : event ∈ g.seen) (isRead : ∀ note ∈ event.notes, note ∈ g.noted)
    (isSolved : ∀ note ∈ event.notes, ms.cell note ≠ none) :
    Delivered g.seen event (ms.event event.main) := by
  obtain ⟨trace, -, -, -, -⟩ := inv
  have found : ∀ cont ∈ event.conts, ∀ i, ∀ bound : i < cont.2.refs.length,
      ∃ other ∈ g.seen, other.id = cont.2.refs[i] ∧ (ms.conts cont.1).refs i = some other.main := by
    intro cont member i bound
    have inside := TraceEvent.notes_mem member bound
    obtain ⟨main, isMain⟩ := Option.ne_none_iff_exists'.mp (isSolved _ inside)
    obtain ⟨other, otherSeen, isId, otherMain⟩ := trace.solved _ (isRead _ inside) main isMain
    exact ⟨other, otherSeen, isId, otherMain ▸ isMain⟩
  refine ⟨handleOf g.seen, ?_, ?_⟩
  · intro id isRef
    obtain ⟨cont, member, inside⟩ := mem_flatMap.mp isRef
    obtain ⟨i, bound, isId⟩ := mem_iff_getElem.mp inside
    obtain ⟨other, otherSeen, otherId, -⟩ := found cont member i bound
    refine ⟨other, otherSeen, otherId.trans isId, ?_⟩
    rw [← isId, ← otherId, trace.handleOf_id otherSeen]
  · obtain ⟨isId, isHwe, isNext, isExts⟩ := trace.stored event isSeen
    have conts : event.main :: (ms.conts event.main).refnext = event.conts.map Prod.fst := by
      rw [isNext]
      rfl
    unfold Reader.event
    rw [conts, map_map]
    apply map_congr_left
    intro cont member
    have stored : (ms.conts cont.1).hwe = cont.2 := by
      rcases mem_cons.mp member with rfl | isExt
      · exact isHwe
      · exact isExts cont isExt
    change (cont.1, (ms.conts cont.1).solved) = _
    congr 1
    unfold ReadCont.solved Container.map
    simp only [stored]
    congr 1
    apply ext_getElem
    · simp
    · intro i first second
      simp only [length_map, length_range] at first
      obtain ⟨other, otherSeen, otherId, isRef⟩ := found cont member i first
      simp only [getElem_map, getElem_range]
      rw [isRef, ← otherId, trace.handleOf_id otherSeen]

theorem Reader.handled_event (ms : Reader) (conts : List (Nat × Container (Option Nat))) :
    { ms with calls := ms.calls ++ [ReaderCall.event conts] }.handled =
      ms.handled ++ [conts] := by
  unfold Reader.handled
  rw [filterMap_append]
  rfl

theorem setNode_state (ms : Reader) (p q : RhwePtr) (state : ReadState) :
    (ms.setNode p fun node => { node with state := state }).nodes q =
      { ms.nodes q with state := if q = p then state else (ms.nodes q).state } := by
  rw [setNode_nodes]
  split <;> simp

/-- The reader after the event at the head of the fifo was handed over. -/
abbrev Reader.sentHead (ms : Reader) (p : RhwePtr) (fifo : List RhwePtr) (hwe : Nat) : Reader :=
  { ms with
    fifo := fifo
    calls := ms.calls ++ [ReaderCall.event (ms.event hwe)] }.setNode p
      fun node => { node with state := .commited }

/-- The next event has to be handed over, and `p` may have to be deleted. -/
abbrev Ghost.sendHead (g : Ghost) (p : RhwePtr) (fifo : List RhwePtr) : Ghost :=
  { g with sent := g.sent + 1, hot := fifo.head?, doomed := some p }

section Send

variable {event : TraceEvent} {rest : List TraceEvent} (isUnsent : g.unsent = event :: rest)

include isUnsent

theorem Ghost.unsent_sendHead (p : RhwePtr) (fifo : List RhwePtr) :
    (g.sendHead p fifo).unsent = rest := by
  unfold Ghost.unsent at isUnsent ⊢
  dsimp only
  rw [← drop_drop, isUnsent]
  rfl

theorem Ghost.mem_unsent_iff : other ∈ g.unsent ↔ other = event ∨ other ∈ rest := by
  rw [isUnsent, mem_cons]

theorem ReaderNodes.send {fifo : List RhwePtr} (nodes : ReaderNodes ms g) (trace : ReaderTrace ms g)
    (isFifo : ms.fifo = g.place event.main :: fifo) (notCur : g.cur ≠ some event.main) :
    ReaderNodes (ms.sentHead (g.place event.main) fifo event.main)
      (g.sendHead (g.place event.main) fifo) := by
  have either : ∀ {other}, other ∈ g.unsent ↔ other = event ∨ other ∈ rest :=
    Ghost.mem_unsent_iff isUnsent
  have member := either.mpr (.inl rfl)
  have later := Ghost.unsent_sendHead isUnsent (g.place event.main) fifo
  have node : ∀ q, (ms.sentHead (g.place event.main) fifo event.main).nodes q = { ms.nodes q with
      state := if q = g.place event.main then .commited else (ms.nodes q).state } :=
    fun q => setNode_state _ (g.place event.main) q .commited
  have apart : ∀ {other : TraceEvent}, other ∈ rest →
      g.place other.main ≠ g.place event.main := by
    intro other isOther same
    have sameMain := (nodes.place_iff trace member (either.mpr (.inr isOther))).mp same
    have isEvent := trace.main_unique (Ghost.unsent_seen member)
      (Ghost.unsent_seen (either.mpr (.inr isOther))) sameMain
    have nodup : g.unsent.Nodup := (trace.distinct.of_map _).sublist (drop_sublist _ _)
    rw [isUnsent, nodup_cons, isEvent] at nodup
    exact nodup.1 isOther
  refine { nodes with
    node := ?_, fifo := ?_, place := ?_, entry := ?_, current := ?_
    hot := fun q isHead cold => absurd isHead cold }
  · intro id q isTree
    have fits := nodes.node id q isTree
    rw [node]
    refine { fits with known := ?_, unknown := ?_ }
    · intro main isMain
      obtain ⟨other, isOther, isId, otherMain, wasUnsent | wasSent⟩ := fits.known main isMain
      · refine ⟨other, isOther, isId, otherMain, ?_⟩
        rcases either.mp wasUnsent with rfl | inRest
        · exact .inr (if_pos ((nodes.same_iff (nodes.place other member) isTree).mpr isId))
        · exact .inl (later ▸ inRest)
      · refine ⟨other, isOther, isId, otherMain, .inr ?_⟩
        dsimp only
        rw [wasSent, ite_self]
    · intro noHwe
      have notHere : q ≠ g.place event.main := by
        rintro rfl
        cases noHwe.symm.trans (nodes.entry event member).hwe
      simpa [notHere] using fits.unknown noHwe
  · have list := nodes.fifo
    rw [isFifo, isUnsent, map_cons] at list
    rw [later]
    exact (List.cons.inj list).2
  · intro other isOther
    rw [later] at isOther
    exact nodes.place other (either.mpr (.inr isOther))
  · intro other isOther
    rw [later] at isOther
    have fits := nodes.entry other (either.mpr (.inr isOther))
    rw [node]
    exact { fits with state := (if_neg (apart isOther)).trans fits.state }
  · intro main isCur
    obtain ⟨current, isCurrent, isMain⟩ := nodes.current main isCur
    rw [later]
    rcases either.mp isCurrent with rfl | inRest
    · exact absurd (isMain ▸ isCur) notCur
    · exact ⟨current, inRest, isMain⟩

theorem ReaderCounts.send (counts : ReaderCounts ms g) (nodes : ReaderNodes ms g)
    (kept : g.doomed = none) (fifo : List RhwePtr) :
    ReaderCounts (ms.sentHead (g.place event.main) fifo event.main)
      (g.sendHead (g.place event.main) fifo) := by
  have either : ∀ {other}, other ∈ g.unsent ↔ other = event ∨ other ∈ rest :=
    Ghost.mem_unsent_iff isUnsent
  refine ⟨fun id q isTree => ?_, counts.removed, counts.unread⟩
  have fits := counts.node id q isTree
  rw [setNode_state]
  refine { fits with kept := ?_ }
  intro other isOther sameId isSent notDoomed
  rw [Ghost.unsent_sendHead isUnsent] at isSent
  refine fits.kept other isOther sameId (fun wasUnsent => ?_) (kept ▸ nofun)
  rcases either.mp wasUnsent with rfl | inRest
  · apply notDoomed
    have isHere := (nodes.same_iff (nodes.place other wasUnsent) isTree).mpr sameId
    rw [isHere]
  · exact isSent inRest

theorem ReaderInv.send (inv : ReaderInv exact ms g) (isFifo : ms.fifo = g.place event.main :: fifo)
    (isState : (ms.nodes (g.place event.main)).state = .read)
    (noMiss : (ms.nodes (g.place event.main)).missRef = 0) (kept : g.doomed = none) :
    ReaderInv exact (ms.sentHead (g.place event.main) fifo event.main)
      (g.sendHead (g.place event.main) fifo) := by
  have member := (Ghost.mem_unsent_iff isUnsent).mpr (.inl rfl)
  have here := inv.nodes.entry event member
  have notCur : g.cur ≠ some event.main := by
    intro isCur
    have state := here.state
    rw [if_pos isCur, isState] at state
    cases state
  have nothing : g.owed ms event.main = [] := by
    have missRef := here.missRef
    rw [noMiss] at missRef
    exact eq_nil_of_length_eq_zero (by omega)
  have isRead := here.complete notCur
  have notOwner : ∀ note ∈ g.noted, ms.cell note = none → note.owner ≠ event.main := by
    intro note inside isOpen isOwner
    have isOwed : note ∈ g.owed ms event.main := (OpenNote.mk inside isOpen).mem_owed.mpr isOwner
    rw [nothing] at isOwed
    cases isOwed
  have delivered : Delivered g.seen event (ms.event event.main) := by
    apply inv.solved_conts (Ghost.unsent_seen member) isRead
    intro note inside isOpen
    exact notOwner note (isRead note inside) isOpen (Note.owner_of_mem inside)
  obtain ⟨trace, nodes, waits, counts, log⟩ := inv
  have isNext : g.seen[g.sent]? = some event := by
    have first := congrArg List.head? isUnsent
    unfold Ghost.unsent at first
    rw [List.head?_drop] at first
    exact first
  refine ⟨{ trace with sent := (List.getElem?_eq_some_iff.mp isNext).1 },
    nodes.send isUnsent trace isFifo notCur, ⟨waits.absent, ?_, waits.waiting⟩,
    fun isExact => (counts isExact).send isUnsent nodes kept fifo, ?_⟩
  · intro note inside isOpen
    rw [Ghost.unsent_sendHead isUnsent]
    obtain ⟨owner, isOwner, isMain⟩ := mem_map.mp (waits.owner note inside isOpen)
    rcases (Ghost.mem_unsent_iff isUnsent).mp isOwner with rfl | inRest
    · exact absurd isMain.symm (notOwner note inside isOpen)
    · exact mem_map.mpr ⟨owner, inRest, isMain⟩
  · change List.Forall₂ _ (g.seen.take (g.sent + 1)) (Reader.handled
      { ms with calls :=
        ms.calls ++ [ReaderCall.event (ms.event event.main)] })
    rw [Reader.handled_event, take_add_one, isNext]
    exact rel_append log (.cons delivered .nil)

end Send

/-- All references of the event, and all references to it, were treated. -/
theorem ReaderInv.markRead (inv : ReaderInv exact ms g)
    (member : event ∈ g.unsent) (isCur : g.cur = some event.main)
    (noPend : g.pend = []) (cold : g.hot = none) (isNoted : ∀ note ∈ event.notes, note ∈ g.noted) :
    ReaderInv exact
      (ms.setNode (g.place event.main) fun node => { node with state := .read })
      { g with cur := none, hot := some (g.place event.main) } := by
  obtain ⟨trace, nodes, waits, counts, log⟩ := inv
  have node := fun q => setNode_state ms (g.place event.main) q .read
  have isHere := fun {id q} (isTree : q ∈ ms.trees id) =>
    nodes.same_iff (nodes.place event member) isTree
  have onlyCur : ∀ {other : TraceEvent}, other ∈ g.unsent →
      g.cur = some other.main → event.main = other.main := by
    intro other isOther alsoCur
    exact Option.some.inj (isCur.symm.trans alsoCur)
  refine ⟨{ trace with }, ?_, ⟨waits.absent, waits.owner, fun _ => noPend⟩, fun isExact => ?_, log⟩
  · refine { nodes with node := ?_, entry := ?_, current := nofun, hot := ?_ }
    · intro id q isTree
      have fits := nodes.node id q isTree
      rw [node]
      refine { fits with known := ?_, unknown := ?_, waits := ?_ }
      · intro main isMain
        obtain ⟨other, isSeen, isId, otherMain, state⟩ := fits.known main isMain
        refine ⟨other, isSeen, isId, otherMain, ?_⟩
        by_cases here : q = g.place event.main
        · rw [trace.event_unique isSeen (Ghost.unsent_seen member)
            (isId.trans ((isHere isTree).mp here).symm)]
          exact .inl member
        · rw [if_neg here]
          exact state
      · intro noHwe
        have notHere : q ≠ g.place event.main := by
          rintro rfl
          cases noHwe.symm.trans (nodes.entry event member).hwe
        simpa [notHere] using fits.unknown noHwe
      · have before := fits.waits
        unfold Ghost.waiting at before ⊢
        dsimp only
        cases isMain : (ms.nodes q).hwe with
        | none =>
          rw [isMain] at before
          exact before
        | some main =>
          rw [isMain] at before
          dsimp only at before ⊢
          rw [noPend, ite_self] at before
          rw [if_neg nofun]
          exact before
    · intro other isOther
      have fits := nodes.entry other isOther
      have samePlace := nodes.place_iff trace member isOther
      rw [node]
      refine { fits with state := ?_, complete := ?_ }
      · refine Eq.trans ?_ (if_neg (Option.some_ne_none other.main).symm).symm
        dsimp only
        rw [fits.state]
        split
        · rfl
        next notHere => exact if_neg fun alsoCur => notHere (samePlace.mpr (onlyCur isOther alsoCur))
      · intro _ note inside
        by_cases alsoCur : g.cur = some other.main
        · rw [← trace.main_unique (Ghost.unsent_seen member) (Ghost.unsent_seen isOther)
            (onlyCur isOther alsoCur)] at inside
          exact isNoted note inside
        · exact fits.complete alsoCur note inside
    · intro q isHead isCold
      have notHere : q ≠ g.place event.main := by
        rintro rfl
        exact isCold rfl
      rw [node]
      simpa [notHere] using nodes.hot q isHead (cold ▸ nofun)
  · refine ⟨fun id q isTree => ?_, (counts isExact).removed, (counts isExact).unread⟩
    rw [node]
    exact { (counts isExact).node id q isTree with }

theorem ReaderInv.stored (inv : ReaderInv exact ms g) (conts : Nat → ReadCont)
    (nalloc ncomp : Nat) (calls : List ReaderCall)
    (same : ∀ event ∈ g.seen, ∀ cont ∈ event.conts, conts cont.1 = ms.conts cont.1)
    (le : ms.nalloc ≤ nalloc) (handled : { ms with calls := calls }.handled = ms.handled) :
    ReaderInv exact { ms with conts := conts, nalloc := nalloc, ncomp := ncomp, calls := calls }
      g := by
  have cell : ∀ note ∈ g.noted, Reader.cell { ms with conts := conts } note = ms.cell note := by
    intro note member
    obtain ⟨event, isSeen, inside⟩ := inv.trace.owners note member
    obtain ⟨cont, isCont, inside⟩ := mem_flatMap.mp inside
    obtain ⟨_, -, rfl⟩ := mem_map.mp inside
    unfold Reader.cell
    dsimp only
    rw [same event isSeen cont isCont]
  have filter : ∀ test : Note → Option Nat → Bool,
      (g.noted.filter fun note => test note (Reader.cell { ms with conts := conts } note)) =
        g.noted.filter fun note => test note (ms.cell note) := by
    intro test
    apply filter_congr
    intro note member
    rw [cell note member]
  have unsolved : ∀ id, g.unsolved { ms with conts := conts } id = g.unsolved ms id :=
    fun id => filter fun note cell => note.id = id && cell.isNone
  have owed : ∀ main, g.owed { ms with conts := conts } main = g.owed ms main :=
    fun main => filter fun note cell => note.owner = main && cell.isNone
  have closed : ∀ id, g.closed { ms with conts := conts } id = g.closed ms id :=
    fun id => filter fun note cell => note.id = id && cell.isSome
  obtain ⟨trace, nodes, waits, counts, log⟩ := inv
  refine ⟨?_, ?_, ⟨?_, ?_, waits.waiting⟩, fun isExact => ?_, handled.symm ▸ log⟩
  · refine { trace with bounded := ?_, stored := ?_, solved := ?_ }
    · intro event member cont inside
      exact Nat.lt_of_lt_of_le (trace.bounded event member cont inside) le
    · intro event member
      have isMain := same event member (event.main, event.hwe) mem_cons_self
      dsimp only at isMain
      obtain ⟨isId, isHwe, isNext, isExts⟩ := trace.stored event member
      refine ⟨?_, ?_, ?_, fun ext inside => ?_⟩
      · exact (congrArg ReadCont.id isMain).trans isId
      · exact (congrArg ReadCont.hwe isMain).trans isHwe
      · exact (congrArg ReadCont.refnext isMain).trans isNext
      · exact (congrArg ReadCont.hwe (same event member ext (mem_cons_of_mem _ inside))).trans
          (isExts ext inside)
    · intro note member main isMain
      exact trace.solved note member main (cell note member ▸ isMain)
  · refine { nodes with node := fun id p isTree => ?_, entry := fun event member => ?_ }
    · have fits := nodes.node id p isTree
      exact { fits with
        waits := fits.waits.trans (.of_eq (congrArg (List.map g.refT) (unsolved id)).symm) }
    · have fits := nodes.entry event member
      exact { fits with
        missRef := fits.missRef.trans (congrArg (fun list => (list.length : Int))
          (owed event.main)).symm }
  · exact fun id isNone => (unsolved id).trans (waits.absent id isNone)
  · exact fun note member isOpen => waits.owner note member ((cell note member).symm.trans isOpen)
  · refine ⟨fun id p isTree => ?_, (counts isExact).removed, fun id isNew => ?_⟩
    · have fits := (counts isExact).node id p isTree
      exact { fits with
        missExp := fun event member sameId => (fits.missExp event member sameId).trans
          (congrArg (fun list : List Note => event.expected - (list.length : Int)) (closed id)).symm }
    · obtain ⟨noneClosed, noneNoted⟩ := (counts isExact).unread id isNew
      exact ⟨(closed id).trans noneClosed, noneNoted⟩

/-- An event that has been stored and not been treated. -/
structure NewEvent (ms : Reader) (g : Ghost) (event : TraceEvent) : Prop where
  id : ∀ other ∈ g.seen, other.id ≠ event.id
  serials : (event.conts.map Prod.fst).Nodup
  apart : ∀ other ∈ g.seen, ∀ cont ∈ other.conts,
    cont.1 ∉ event.conts.map Prod.fst
  bounded : ∀ cont ∈ event.conts, cont.1 < ms.nalloc
  stored : ReadStored ms.conts event

/-- The event is read next, and has a node where references may wait. -/
def Ghost.insert (g : Ghost) (event : TraceEvent) (p : RhwePtr) (waiting : List RefT) : Ghost :=
  { g with
    seen := g.seen ++ [event]
    place := update g.place event.main p
    cur := some event.main
    pend := waiting
    focus := none }

theorem ReaderTrace.insert (trace : ReaderTrace ms g)
    (new : NewEvent ms g event) (p : RhwePtr) (waiting : List RefT) :
    ReaderTrace ms (g.insert event p waiting) := by
  have old : ∀ {other : TraceEvent}, other ∈ g.seen → other ∈ g.seen ++ [event] := mem_append_left _
  have either : ∀ {other : TraceEvent}, other ∈ g.seen ++ [event] →
      other ∈ g.seen ∨ other = event := by
    intro other member
    rcases mem_append.mp member with isOld | isNew
    · exact Or.inl isOld
    · exact Or.inr (mem_singleton.mp isNew)
  unfold Ghost.insert
  constructor
  · rw [length_append]
    exact Nat.le_add_right_of_le trace.sent
  · rw [map_append]
    refine trace.distinct.append (nodup_singleton _) ?_
    intro id isOld isNew
    obtain ⟨other, member, isId⟩ := mem_map.mp isOld
    rw [map_singleton, mem_singleton] at isNew
    exact new.id other member (isId.trans isNew)
  · rw [flatMap_append]
    refine trace.serials.append ?_ ?_
    · rw [flatMap_singleton]
      exact new.serials
    · intro serial isOld isNew
      rw [flatMap_singleton] at isNew
      obtain ⟨other, member, inside⟩ := mem_flatMap.mp isOld
      obtain ⟨cont, isCont, rfl⟩ := mem_map.mp inside
      exact new.apart other member cont isCont isNew
  · intro other member
    rcases either member with isOld | rfl
    · exact trace.bounded other isOld
    · exact new.bounded
  · intro other member
    rcases either member with isOld | rfl
    · exact trace.stored other isOld
    · exact new.stored
  · exact trace.keys
  · intro note member
    obtain ⟨other, isSeen, inside⟩ := trace.owners note member
    exact ⟨other, old isSeen, inside⟩
  · intro note member main isMain
    obtain ⟨other, isSeen, isId⟩ := trace.solved note member main isMain
    exact ⟨other, old isSeen, isId⟩

theorem Delivered.mono (delivered : Delivered events event conts)
    (grows : ∀ other ∈ events, other ∈ later) :
    Delivered later event conts := by
  obtain ⟨handle, isHandle, isConts⟩ := delivered
  refine ⟨handle, fun id isRef => ?_, isConts⟩
  obtain ⟨other, member, isOther⟩ := isHandle id isRef
  exact ⟨other, grows other member, isOther⟩

/-- The reader after an event was put into its node. -/
abbrev Reader.inserted (ms : Reader) (p : RhwePtr) (hwe expected : Nat) : Reader :=
  { ms.setNode p fun node =>
    { node with hwe := some hwe, missExp := node.missExp + expected } with
    fifo := ms.fifo ++ [p] }

theorem inserted_nodes (ms : Reader) (p q : RhwePtr) (hwe expected : Nat) :
    (ms.inserted p hwe expected).nodes q =
      { ms.nodes q with
        hwe := if q = p then some hwe else (ms.nodes q).hwe
        missExp := (ms.nodes q).missExp + if q = p then (expected : Int) else 0 } := by
  simp only [setNode_nodes]
  split <;> simp

theorem ReaderTrace.unsent_insert (trace : ReaderTrace ms g) (event : TraceEvent) (p : RhwePtr)
    (waiting : List RefT) : (g.insert event p waiting).unsent = g.unsent ++ [event] :=
  drop_append_of_le_length trace.sent

section Insert

variable {event : TraceEvent} (trace : ReaderTrace ms g) (new : NewEvent ms g event)

include new

theorem NewEvent.main : ∀ other ∈ g.seen, other.main ≠ event.main := by
  intro other member same
  have apart := new.apart other member (other.main, other.hwe) mem_cons_self
  rw [show (other.main, other.hwe).1 = event.main from same] at apart
  exact apart event.main_mem

include trace

theorem NewEvent.owner : ∀ note ∈ g.noted, note.owner ≠ event.main := by
  intro note member
  obtain ⟨other, isSeen, inside⟩ := trace.owners note member
  rw [Note.owner_of_mem inside]
  exact new.main other isSeen

variable (nodes : ReaderNodes ms g) (found : p ∈ ms.trees event.id)

include nodes found

omit trace in
theorem ReaderNodes.insert_unknown : (ms.nodes p).hwe = none := by
  cases isMain : (ms.nodes p).hwe with
  | none => rfl
  | some main =>
    obtain ⟨other, isSeen, isId, -⟩ := (nodes.node event.id p found).known main isMain
    exact absurd isId (new.id other isSeen)

theorem ReaderNodes.insert_node (noCur : g.cur = none) {id : HweId} (isTree : q ∈ ms.trees id) :
    NodeInv (ms.inserted p event.main event.expected) (g.insert event p (ms.nodes p).waiting) id
      ((ms.inserted p event.main event.expected).nodes q) := by
  have noHwe := nodes.insert_unknown new found
  have later := trace.unsent_insert event p (ms.nodes p).waiting
  have fits := nodes.node id q isTree
  have map : (g.unsolved ms id).map (g.insert event p (ms.nodes p).waiting).refT =
      (g.unsolved ms id).map g.refT := by
    apply map_congr_left
    intro note member
    unfold Ghost.refT Ghost.insert
    dsimp only
    rw [update_of_ne (new.owner trace note (mem_filter.mp member).1)]
  rw [inserted_nodes]
  by_cases here : q = p
  · subst here
    have sameId := nodes.tree_unique found isTree
    refine { fits with known := ?_, unknown := ?_, waits := ?_ }
    · intro main isMain
      rw [if_pos rfl] at isMain
      refine ⟨event, mem_append_right _ mem_cons_self, sameId, Option.some.inj isMain, ?_⟩
      rw [later]
      exact .inl (mem_append_right _ mem_cons_self)
    · intro isNone
      rw [if_pos rfl] at isNone
      cases isNone
    · have before := fits.waits
      rw [Ghost.waiting_unknown noHwe] at before
      refine List.Perm.trans ?_ (before.trans (.of_eq map.symm))
      rw [Ghost.waiting_cur (if_pos rfl) rfl]
      rfl
  · refine { fits with known := ?_, unknown := ?_, waits := ?_ }
    · intro main isMain
      rw [if_neg here] at isMain
      obtain ⟨other, isSeen, isId, isOther, state⟩ := fits.known main isMain
      refine ⟨other, mem_append_left _ isSeen, isId, isOther, ?_⟩
      rw [later]
      exact state.imp_left (mem_append_left _)
    · simpa [here] using fits.unknown
    · refine List.Perm.trans (.of_eq ?_) (fits.waits.trans (.of_eq map.symm))
      rw [if_neg here]
      cases isMain : (ms.nodes q).hwe with
      | none =>
        rw [Ghost.waiting_unknown isMain]
        exact Ghost.waiting_unknown rfl
      | some main =>
        rw [Ghost.waiting_known isMain (noCur ▸ nofun)]
        refine Ghost.waiting_known rfl fun same => ?_
        obtain ⟨other, isSeen, -, isOther, -⟩ := fits.known main isMain
        exact new.main other isSeen (isOther.trans (Option.some.inj same).symm)

theorem ReaderNodes.insert_entry (noCur : g.cur = none)
    (member : other ∈ (g.insert event p (ms.nodes p).waiting).unsent) :
    ms.trees other.id = some ((g.insert event p (ms.nodes p).waiting).place other.main) ∧
      EventInv (ms.inserted p event.main event.expected) (g.insert event p (ms.nodes p).waiting)
        other ((ms.inserted p event.main event.expected).nodes
          ((g.insert event p (ms.nodes p).waiting).place other.main)) := by
  have noHwe := nodes.insert_unknown new found
  rw [trace.unsent_insert event, mem_append, mem_singleton] at member
  rcases member with isOld | rfl
  · have differ := new.main other (Ghost.unsent_seen isOld)
    have fits := nodes.entry other isOld
    have apart : g.place other.main ≠ p := by
      rintro rfl
      cases noHwe.symm.trans fits.hwe
    have place : (g.insert event p (ms.nodes p).waiting).place other.main = g.place other.main :=
      update_of_ne differ ..
    rw [place, inserted_nodes]
    refine ⟨nodes.place other isOld, { fits with hwe := ?_, state := ?_, complete := ?_ }⟩
    · exact (if_neg apart).trans fits.hwe
    · refine fits.state.trans ?_
      rw [noCur, if_neg nofun]
      exact (if_neg fun same => differ (Option.some.inj same).symm).symm
    · exact fun _ => fits.complete (noCur ▸ nofun)
  · obtain ⟨isUnread, noMissRef, -⟩ := (nodes.node other.id p found).unknown noHwe
    have place : (g.insert other p (ms.nodes p).waiting).place other.main = p := update_self ..
    rw [place, inserted_nodes]
    refine ⟨found, if_pos rfl, isUnread.trans (if_pos rfl).symm, noMissRef.trans ?_,
      fun notCur => absurd rfl notCur⟩
    have nothing : g.owed ms other.main = [] := by
      apply filter_eq_nil_iff.mpr
      intro note member
      simp [new.owner trace note member]
    exact congrArg (fun list => (List.length list : Int)) nothing.symm

theorem ReaderNodes.insert (noCur : g.cur = none) :
    ReaderNodes (ms.inserted p event.main event.expected)
      (g.insert event p (ms.nodes p).waiting) := by
  have noHwe := nodes.insert_unknown new found
  have later := trace.unsent_insert event p (ms.nodes p).waiting
  refine { nodes with
    node := fun id q isTree => nodes.insert_node trace new found noCur isTree
    place := fun other member => (nodes.insert_entry trace new found noCur member).1
    entry := fun other member => (nodes.insert_entry trace new found noCur member).2
    fifo := ?_, current := ?_, hot := ?_ }
  · rw [later, map_append]
    dsimp only [Ghost.insert]
    rw [nodes.fifo, map_singleton, update_self]
    congr 1
    apply map_congr_left
    intro other member
    rw [update_of_ne (new.main other (Ghost.unsent_seen member))]
  · intro main isMain
    rw [later]
    exact ⟨event, mem_append_right _ mem_cons_self, Option.some.inj isMain⟩
  · intro q isHead cold
    rw [inserted_nodes]
    rw [List.head?_append] at isHead
    cases isFirst : ms.fifo.head? with
    | none =>
      rw [isFirst] at isHead
      cases Option.some.inj isHead
      rintro ⟨isRead, -⟩
      cases isRead.symm.trans ((nodes.node event.id p found).unknown noHwe).1
    | some first =>
      rw [isFirst] at isHead
      cases Option.some.inj isHead
      exact nodes.hot q isFirst cold

omit trace in
theorem ReaderCounts.insert (counts : ReaderCounts ms g)
    (later : (g.insert event p (ms.nodes p).waiting).unsent = g.unsent ++ [event])
    (focused : ∀ id ∈ g.focus, id = event.id) :
    ReaderCounts (ms.inserted p event.main event.expected)
      (g.insert event p (ms.nodes p).waiting) := by
  have noHwe := nodes.insert_unknown new found
  have either : ∀ {other}, other ∈ g.seen ++ [event] → other ∈ g.seen ∨ other = event := by
    intro other member
    rwa [mem_append, mem_singleton] at member
  have isOld : ∀ {id}, (∀ other ∈ g.seen ++ [event], other.id ≠ id) →
      ∀ other ∈ g.seen, other.id ≠ id :=
    fun isNew other member => isNew other (mem_append_left _ member)
  refine ⟨?_, ?_, fun id isNew => counts.unread id (isOld isNew)⟩
  · intro id q isTree
    have fits := counts.node id q isTree
    have isHere := nodes.same_iff found isTree
    have keep : ∀ {other}, other ∈ g.seen → other.id = id → q ≠ p := fun member sameId here =>
      new.id _ member (sameId.trans (isHere.mp here).symm)
    rw [inserted_nodes]
    refine ⟨?_, ?_, ?_, ?_⟩
    · intro other member sameId
      rcases either member with old | rfl
      · exact (if_neg (keep old sameId)).trans (fits.present other old sameId)
      · exact if_pos (isHere.mpr sameId)
    · intro other member sameId
      rcases either member with old | rfl
      · dsimp only
        rw [if_neg (keep old sameId), Int.add_zero]
        exact fits.missExp other old sameId
      · have here := isHere.mpr sameId
        subst here sameId
        have noMissExp := ((nodes.node other.id q found).unknown noHwe).2.2
        have noneClosed := congrArg List.length (counts.unread other.id new.id).1
        refine Eq.trans ?_ (congrArg (fun length : Nat => other.expected - (length : Int))
          noneClosed).symm
        simp [noMissExp]
    · intro other member sameId isSent notDoomed
      rw [later] at isSent
      rcases either member with old | rfl
      · have before := fits.kept other old sameId
          (fun wasUnsent => isSent (mem_append_left _ wasUnsent)) notDoomed
        simpa [keep old sameId] using before
      · exact absurd (mem_append_right _ mem_cons_self) isSent
    · intro isNew _
      refine fits.noted (isOld isNew) fun isFocus => ?_
      exact isNew event (mem_append_right _ mem_cons_self) (focused id isFocus).symm
  · intro other member isNone
    rcases either member with old | rfl
    · exact counts.removed other old isNone
    · cases found.symm.trans isNone

end Insert

theorem ReaderInv.insert (inv : ReaderInv exact ms g)
    (new : NewEvent ms g event) (found : p ∈ ms.trees event.id)
    (noCur : g.cur = none) (focused : ∀ id ∈ g.focus, id = event.id) :
    ReaderInv exact (ms.inserted p event.main event.expected)
      (g.insert event p (ms.nodes p).waiting) := by
  obtain ⟨trace, nodes, waits, counts, log⟩ := inv
  have later := trace.unsent_insert event p (ms.nodes p).waiting
  refine ⟨{ trace.insert new p (ms.nodes p).waiting with },
    nodes.insert trace new found noCur, ⟨waits.absent, ?_, nofun⟩,
    fun isExact => (counts isExact).insert new nodes found later focused, ?_⟩
  · intro note member isOpen
    rw [later, map_append]
    exact mem_append_left _ (waits.owner note member isOpen)
  · have same : (g.seen ++ [event]).take g.sent = g.seen.take g.sent :=
      take_append_of_le_length trace.sent
    change List.Forall₂ _ ((g.seen ++ [event]).take g.sent) ms.handled
    rw [same]
    apply log.imp
    intro other conts delivered
    exact delivered.mono fun _ => mem_append_left _

end

end Reverse.Decopus
