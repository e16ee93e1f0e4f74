import Reverse.Decopus.ReaderMoves

/-!
# Whole runs of the reader

The functions of the reader keep the invariant, and what the reader has seen is
what the trace says.
-/

namespace Reverse.Decopus

open Function List

section

variable {exact : Prop} {ms : Reader} {g : Ghost}

/-- The containers are kept up to the references that were solved. -/
structure Kept (ms later : Reader) : Prop where
  nalloc : later.nalloc = ms.nalloc
  ncomp : later.ncomp = ms.ncomp
  conts : ∀ cont, (later.conts cont).id = (ms.conts cont).id ∧
    (later.conts cont).hwe = (ms.conts cont).hwe ∧
    (later.conts cont).refnext = (ms.conts cont).refnext

theorem Kept.of_conts (nalloc : later.nalloc = ms.nalloc)
    (ncomp : later.ncomp = ms.ncomp) (conts : later.conts = ms.conts) :
    Kept ms later :=
  ⟨nalloc, ncomp, fun _ => conts ▸ ⟨rfl, rfl, rfl⟩⟩

theorem Kept.refl (ms : Reader) : Kept ms ms :=
  .of_conts rfl rfl rfl

theorem Kept.trans (first : Kept ms between) (second : Kept between later) : Kept ms later := by
  refine ⟨second.nalloc.trans first.nalloc, second.ncomp.trans first.ncomp, ?_⟩
  intro cont
  obtain ⟨id, hwe, refnext⟩ := first.conts cont
  obtain ⟨laterId, laterHwe, laterNext⟩ := second.conts cont
  exact ⟨laterId.trans id, laterHwe.trans hwe, laterNext.trans refnext⟩

theorem Kept.stored (kept : Kept ms later) (stored : ReadStored ms.conts event) :
    ReadStored later.conts event := by
  obtain ⟨id, hwe, refnext, exts⟩ := stored
  refine ⟨?_, ?_, ?_, fun ext member => ?_⟩
  · rw [(kept.conts _).1, id]
  · rw [(kept.conts _).2.1, hwe]
  · rw [(kept.conts _).2.2, refnext]
  · rw [(kept.conts _).2.1, exts ext member]

theorem kept_hweSetref (ms : Reader) (cont i : Nat) (ref : Option Nat) :
    Kept ms (ms.hweSetref cont i ref) := by
  refine ⟨rfl, rfl, fun other => ?_⟩
  unfold Reader.hweSetref
  dsimp only
  by_cases isCont : other = cont
  · rw [isCont, update_self]
    exact ⟨rfl, rfl, rfl⟩
  · rw [update_of_ne isCont]
    exact ⟨rfl, rfl, rfl⟩

theorem kept_tryDelete (ms : Reader) (p : RhwePtr) : Kept ms (tryDelete ms p) := by
  unfold tryDelete
  split <;> exact .of_conts rfl rfl rfl

theorem kept_setNode (ms : Reader) (p : RhwePtr) (change : RhweT → RhweT) :
    Kept ms (ms.setNode p change) :=
  .of_conts rfl rfl rfl

theorem tryDelete_nodes (ms : Reader) (p : RhwePtr) : (tryDelete ms p).nodes = ms.nodes := by
  unfold tryDelete
  split <;> rfl

theorem findnode_found {id : HweId} (found : p ∈ ms.trees id) : findnode ms id = (p, ms) := by
  unfold findnode
  rw [show ms.trees id = some p from found]

theorem findnode_created {id : HweId} (absent : ms.trees id = none) :
    findnode ms id = (ms.free.headD ms.nb, ms.created id) := by
  unfold findnode
  rw [absent]

theorem ReaderInv.findnode {id : HweId} (inv : ReaderInv exact ms g) (unfocused : g.focus = none)
    (unread : exact → ms.trees id = none → ∀ event ∈ g.seen, event.id ≠ id) :
    ∃ p later focus, findnode ms id = (p, later) ∧
      ReaderInv exact later { g with focus := focus } ∧
      (∀ other ∈ focus, other = id) ∧ p ∈ later.trees id ∧
      Kept ms later ∧
      ((later.nodes p).hwe ≠ none → focus = none) ∧
      (∀ other, ∀ q ∈ ms.trees other, later.nodes q = ms.nodes q) := by
  cases isTree : ms.trees id with
  | none =>
    refine ⟨_, _, some id, findnode_created isTree,
      inv.create isTree unfocused fun isExact => unread isExact isTree,
      ?_, ?_, .of_conts rfl rfl rfl, ?_, ?_⟩
    · intro other isOther
      exact (Option.some.inj isOther).symm
    · dsimp only
      rw [update_self]
      rfl
    · intro isKnown
      dsimp only at isKnown
      rw [update_self] at isKnown
      exact absurd rfl isKnown
    · intro other q found
      exact update_of_ne (headD_fresh inv.nodes found) ..
  | some p =>
    refine ⟨p, ms, none, findnode_found isTree, ?_, nofun, isTree,
      Kept.refl ms, fun _ => rfl, fun _ _ _ => rfl⟩
    rw [← unfocused]
    exact inv

theorem ReaderInv.solveOurRef (inv : ReaderInv exact ms g)
    (new : NewNote ms g note) (isCur : g.cur = some note.owner)
    (unfocused : g.focus = none) (undoomed : g.doomed = none)
    (bound : note.id.devid.toNat < ms.ncomp) (spare : exact → ∀ event ∈ g.seen, event.id = note.id →
      (g.noted.filter fun other => other.id = note.id).length <
        event.expected) :
    ∃ later, solveOurRef (g.place note.owner) ms (note.cont, note.pos, note.id) = some later ∧
      ReaderInv exact later { g with noted := g.noted ++ [note] } ∧
      Kept ms later ∧ (later.nodes (g.place note.owner)).waiting =
        (ms.nodes (g.place note.owner)).waiting := by
  have unread : exact → ms.trees note.id = none → ∀ event ∈ g.seen, event.id ≠ note.id := by
    intro isExact isNone event member isId
    have few := spare isExact event member isId
    rw [← isId] at few isNone
    have all := (inv.counts isExact).removed event member isNone
    omega
  obtain ⟨current, isUnsent, isCurrent⟩ := inv.nodes.current _ isCur
  have isPlace := inv.nodes.place current isUnsent
  have isHwe := (inv.nodes.entry current isUnsent).hwe
  rw [isCurrent] at isPlace isHwe
  obtain ⟨p, between, focus, isNode, found, isFocus, isTree, kept, known,
    same⟩ := inv.findnode unfocused unread
  have samePlace := same current.id _ isPlace
  have newLater : NewNote between { g with focus := focus } note := ⟨new.key, new.owner⟩
  unfold Decopus.solveOurRef
  dsimp only
  rw [if_pos bound, isNode]
  dsimp only
  cases isMain : (between.nodes p).hwe with
  | some main =>
    have noFocus := known (by rw [isMain]; nofun)
    subst noFocus
    refine ⟨_, rfl, ?_, ?_, ?_⟩
    · have solved := found.solveNow newLater isTree isMain undoomed
      have deleted := solved.tryDelete isTree rfl
      obtain ⟨seen, noted, sent, place, cur, pend, focus, hot, doomed⟩ := g
      dsimp only at unfocused undoomed
      subst unfocused undoomed
      exact deleted
    · apply kept.trans
      apply (kept_hweSetref between note.cont note.pos (some main)).trans
      exact (kept_setNode _ _ _).trans (kept_tryDelete _ _)
    · rw [tryDelete_nodes, setNode_nodes, hweSetref_nodes, ← samePlace]
      split <;> rfl
  | none =>
    refine ⟨_, rfl, ?_, ?_, ?_⟩
    · have waits := found.wait newLater isTree isMain isCur isFocus
      obtain ⟨seen, noted, sent, place, cur, pend, oldFocus, hot, doomed⟩ := g
      dsimp only at unfocused
      subst unfocused
      exact waits
    · apply kept.trans
      apply (kept_setNode _ _ _).trans
      exact (kept_setNode _ _ _).trans (kept_hweSetref _ _ _ _)
    · have apart : g.place note.owner ≠ p := by
        rintro rfl
        rw [samePlace] at isMain
        cases isMain.symm.trans isHwe
      rw [hweSetref_nodes, setNode_nodes, if_pos rfl]
      dsimp only
      rw [setNode_nodes, if_neg apart, samePlace]

/-- The note of a reference as the loops of the reader find it. -/
def Note.found (note : Note) : Nat × Nat × HweId :=
  (note.cont, note.pos, note.id)

theorem idsFrom_notes (stored : ReadStored ms.conts event) :
    idsFrom ms (event.main :: (ms.conts event.main).refnext) = event.notes.map Note.found := by
  obtain ⟨-, isHwe, isNext, isExts⟩ := stored
  have conts : event.main :: (ms.conts event.main).refnext = event.conts.map Prod.fst := by
    rw [isNext]
    rfl
  unfold idsFrom TraceEvent.notes
  rw [conts, flatMap_map, map_flatMap]
  apply flatMap_congr
  intro cont member
  have stored : (ms.conts cont.1).hwe = cont.2 := by
    rcases mem_cons.mp member with rfl | isExt
    · exact isHwe
    · exact isExts cont isExt
  rw [stored, map_map]
  rfl

theorem notes_keys_nodup {events : List TraceEvent}
    (serials : (events.flatMap fun event => event.conts.map Prod.fst).Nodup) :
    ((events.flatMap TraceEvent.notes).map Note.key).Nodup := by
  have keys : (events.flatMap TraceEvent.notes).map Note.key =
      (events.flatMap TraceEvent.conts).flatMap fun cont =>
        (List.range cont.2.refs.length).map fun i => (cont.1, i) := by
    rw [map_flatMap, flatMap_assoc]
    apply flatMap_congr
    intro event _
    unfold TraceEvent.notes
    rw [map_flatMap]
    apply flatMap_congr
    intro cont _
    rw [map_map, range_eq_range', ← zipIdx_map_snd, map_map]
    rfl
  rw [keys, nodup_flatMap]
  constructor
  · intro cont _
    refine nodup_range.map ?_
    intro i j same
    exact (Prod.mk.inj same).2
  · have apart : ((events.flatMap TraceEvent.conts).map Prod.fst).Nodup := by
      rw [map_flatMap]
      exact serials
    refine (pairwise_map.mp apart).imp ?_
    intro first second differ key isFirst isSecond
    obtain ⟨_, -, rfl⟩ := mem_map.mp isFirst
    obtain ⟨_, -, same⟩ := mem_map.mp isSecond
    exact differ (Prod.mk.inj same).1.symm

/-- No event that was read is referenced more often than it expects. -/
def Spare (events : List TraceEvent) : Prop :=
  ∀ event ∈ events,
    ((events.flatMap TraceEvent.notes).filter fun note =>
      note.id = event.id).length ≤ event.expected

theorem ReaderInv.solveOurRefs (todo : List Note) :
    ∀ {ms : Reader} {g : Ghost}, ReaderInv exact ms g →
      g.cur = some event.main → g.focus = none → g.doomed = none →
      event ∈ g.seen → g.noted ++ todo = g.seen.flatMap TraceEvent.notes →
      (∀ note ∈ todo, note ∈ event.notes ∧ note.id.devid.toNat < ms.ncomp) →
      (exact → Spare g.seen) →
      ∃ later, (todo.map Note.found).foldlM
          (Decopus.solveOurRef (g.place event.main)) ms = some later ∧
        ReaderInv exact later { g with noted := g.seen.flatMap TraceEvent.notes } ∧
        Kept ms later ∧ (later.nodes (g.place event.main)).waiting =
          (ms.nodes (g.place event.main)).waiting := by
  induction todo with
  | nil =>
    intro ms g inv _ _ _ _ all _ _
    rw [append_nil] at all
    refine ⟨ms, rfl, ?_, Kept.refl ms, rfl⟩
    rw [← all]
    exact inv
  | cons note todo ih =>
    intro ms g inv isCur unfocused undoomed isSeen all isNote spare
    obtain ⟨inside, bound⟩ := isNote note mem_cons_self
    have isOwner : note.owner = event.main := Note.owner_of_mem inside
    have new : NewNote ms g note := by
      refine ⟨?_, event, isSeen, inside⟩
      have keys := notes_keys_nodup inv.trace.serials
      rw [← all, map_append, map_cons] at keys
      intro member
      exact disjoint_of_nodup_append keys member mem_cons_self
    obtain ⟨between, isBetween, solved, kept, waiting⟩ :=
      inv.solveOurRef new (isOwner ▸ isCur) unfocused undoomed bound (by
        intro isExact other member isId
        have few := spare isExact other member
        rw [← all, filter_append, filter_cons_of_pos
          (by simp [isId]), length_append, length_cons,
          isId] at few
        omega)
    rw [isOwner] at isBetween waiting
    obtain ⟨later, isLater, inv, keptLater, waitingLater⟩ :=
      ih solved isCur unfocused undoomed isSeen
        (by rw [← all, append_assoc, singleton_append])
        (fun other member => by
          rw [kept.ncomp]
          exact isNote other (mem_cons_of_mem _ member)) spare
    refine ⟨later, ?_, inv, kept.trans keptLater, waitingLater.trans waiting⟩
    rw [map_cons, foldlM_cons]
    change (Decopus.solveOurRef _ ms (note.cont, note.pos, note.id)).bind _ = some later
    rw [isBetween]
    exact isLater

theorem ReaderInv.cool (inv : ReaderInv exact ms g)
    (notReady : ∀ p ∈ ms.fifo.head?, g.hot = some p →
      ¬((ms.nodes p).state = .read ∧ (ms.nodes p).missRef = 0)) :
    ReaderInv exact ms { g with hot := none } := by
  obtain ⟨trace, nodes, waits, counts, log⟩ := inv
  refine ⟨{ trace with }, { nodes with
      node := fun id p isTree => { nodes.node id p isTree with }
      entry := fun event member => { nodes.entry event member with }
      hot := ?_ }, { waits with }, fun isExact => { counts isExact with
        node := fun id p isTree => { (counts isExact).node id p isTree with } }, log⟩
  intro p isHead _
  by_cases isHot : g.hot = some p
  · exact notReady p isHead isHot
  · exact nodes.hot p isHead isHot

theorem tryDelete_fifo (ms : Reader) (p : RhwePtr) (fifo : List RhwePtr) :
    tryDelete { ms with fifo := fifo } p =
      { tryDelete ms p with fifo := fifo } := by
  unfold tryDelete
  dsimp only
  split <;> rfl

/-- The loop hands events over until one has to wait. -/
theorem ReaderInv.commitFrom (fifo : List RhwePtr) :
    ∀ {ms : Reader} {g : Ghost},
      ReaderInv exact { ms with fifo := fifo } g → g.doomed = none →
      ∃ sent, ReaderInv exact (commitFrom fifo ms) { g with sent := sent, hot := none } ∧
        Kept ms (Decopus.commitFrom fifo ms) := by
  induction fifo with
  | nil =>
    intro ms g inv _
    exact ⟨g.sent, inv.cool nofun, .of_conts rfl rfl rfl⟩
  | cons rhwe fifo ih =>
    intro ms g inv undoomed
    unfold Decopus.commitFrom
    split
    next ready =>
      obtain ⟨event, unsent, isUnsent, rfl, -⟩ := inv.head rfl
      have member : event ∈ g.unsent := isUnsent ▸ mem_cons_self
      have isPlace := inv.nodes.place event member
      have isHwe := (inv.nodes.entry event member).hwe
      have sent := inv.send isUnsent rfl ready.1 ready.2 undoomed
      have deleted := sent.tryDelete isPlace rfl
      dsimp only at isHwe ⊢
      rw [isHwe]
      have same := tryDelete_fifo (Reader.setNode { ms with
        calls := ms.calls ++ [ReaderCall.event (ms.event event.main)] }
          (g.place event.main) fun node => { node with state := .commited })
            (g.place event.main) fifo
      obtain ⟨last, later, kept⟩ := ih (same ▸ deleted) rfl
      refine ⟨last, ?_, ?_⟩
      · obtain ⟨seen, noted, sent, place, cur, pend, focus, hot, doomed⟩ := g
        dsimp only at undoomed
        subst undoomed
        exact later
      · refine Kept.trans ?_ kept
        refine Kept.trans ?_ (kept_tryDelete _ _)
        exact .of_conts rfl rfl rfl
    next notReady =>
      refine ⟨g.sent, inv.cool ?_, .of_conts rfl rfl rfl⟩
      intro p isHead _
      cases Option.some.inj isHead
      exact notReady

theorem ReaderInv.tryCommit (inv : ReaderInv exact ms g)
    (isHot : g.hot = some rhwe) (undoomed : g.doomed = none) :
    ∃ sent, ReaderInv exact (tryCommit ms rhwe) { g with sent := sent, hot := none } ∧
      Kept ms (Decopus.tryCommit ms rhwe) := by
  unfold Decopus.tryCommit
  split
  · exact ReaderInv.commitFrom ms.fifo inv undoomed
  next notHead =>
    refine ⟨g.sent, inv.cool ?_, Kept.refl ms⟩
    intro p isHead alsoHot
    rw [isHot.symm.trans alsoHot] at notHead
    exact absurd isHead notHead

/-- What waited at a node no longer matters when its event was read. -/
theorem ReaderInv.setWaiting (waiting : List RefT) (inv : ReaderInv exact ms g)
    (isMain : (ms.nodes p).hwe = some main) :
    ReaderInv exact (ms.setNode p fun node => { node with waiting := waiting }) g := by
  obtain ⟨trace, nodes, waits, counts, log⟩ := inv
  have node : ∀ q, (ms.setNode p fun node => { node with waiting := waiting }).nodes q =
      { ms.nodes q with waiting := if q = p then waiting else (ms.nodes q).waiting } := by
    intro q
    rw [setNode_nodes]
    split <;> simp
  refine ⟨{ trace with }, { nodes with node := ?_, entry := ?_, hot := ?_ }, { waits with },
    fun isExact => { counts isExact with node := ?_ }, log⟩
  · intro id q isTree
    have fits := nodes.node id q isTree
    rw [node]
    refine { fits with waits := List.Perm.trans (.of_eq ?_) fits.waits }
    by_cases isHere : q = p
    · subst isHere
      unfold Ghost.waiting
      dsimp only
      rw [isMain]
    · rw [if_neg isHere]
  · intro event member
    rw [node]
    exact { nodes.entry event member with }
  · intro q isHead cold
    rw [node]
    exact nodes.hot q isHead cold
  · intro id q isTree
    rw [node]
    exact { (counts isExact).node id q isTree with }

theorem ReaderInv.current_unsent (inv : ReaderInv exact ms g)
    (isSeen : event ∈ g.seen) (isCur : g.cur = some event.main) : event ∈ g.unsent := by
  obtain ⟨current, isUnsent, isMain⟩ := inv.nodes.current event.main isCur
  rw [inv.trace.main_unique isSeen (Ghost.unsent_seen isUnsent) isMain.symm]
  exact isUnsent

theorem ReaderInv.solvePendingRef (pend : List RefT) :
    ∀ {ms : Reader} {g : Ghost}, ReaderInv exact ms g → event ∈ g.seen →
      g.cur = some event.main → g.pend = pend → g.hot = none →
      g.doomed = none →
      ∃ sent, ReaderInv exact
          (solvePendingRef (g.place event.main) pend ms)
          { g with sent := sent, pend := [] } ∧
        Kept ms (Decopus.solvePendingRef (g.place event.main) pend ms) := by
  induction pend with
  | nil =>
    intro ms g inv _ _ isPend _ _
    refine ⟨g.sent, ?_, Kept.refl ms⟩
    change ReaderInv exact ms { g with pend := [] }
    rw [← isPend]
    exact inv
  | cons ref pend ih =>
    intro ms g inv isSeen isCur isPend cold undoomed
    have isUnsent := inv.current_unsent isSeen isCur
    have isHwe := (inv.nodes.entry event isUnsent).hwe
    have solved := inv.solvePending isUnsent isCur isPend cold
    obtain ⟨sent, tried, kept⟩ := solved.tryCommit rfl undoomed
    have stillUnsent := tried.current_unsent isSeen isCur
    have stillHwe := (tried.nodes.entry event stillUnsent).hwe
    have set := tried.setWaiting pend stillHwe
    obtain ⟨last, later, keptLater⟩ := ih set isSeen isCur rfl rfl undoomed
    unfold Decopus.solvePendingRef
    dsimp only
    rw [isHwe]
    refine ⟨last, ?_, ?_⟩
    · obtain ⟨seen, noted, sent, place, cur, pend, focus, hot, doomed⟩ := g
      dsimp only at cold
      subst cold
      exact later
    · refine Kept.trans ?_ keptLater
      refine Kept.trans ?_ (kept_setNode _ _ _)
      refine Kept.trans ?_ kept
      refine Kept.trans ?_ (kept_setNode _ _ _)
      refine Kept.trans ?_ (kept_setNode _ _ _)
      exact kept_hweSetref _ _ _ _

/-- Between two events nothing is under way. -/
structure Settled (exact : Prop) (ms : Reader) (g : Ghost) : Prop where
  inv : ReaderInv exact ms g
  cur : g.cur = none
  focus : g.focus = none
  hot : g.hot = none
  doomed : g.doomed = none
  noted : g.noted = g.seen.flatMap TraceEvent.notes

theorem NewEvent.kept (new : NewEvent ms g event) (kept : Kept ms later) (focus : Option HweId) :
    NewEvent later { g with focus := focus } event :=
  { new with
    bounded := fun cont member => kept.nalloc ▸ new.bounded cont member
    stored := kept.stored new.stored }

theorem ReaderInv.insertEvent (inv : ReaderInv exact ms g)
    (unfocused : g.focus = none) (noCur : g.cur = none)
    (new : NewEvent ms g event) (bound : event.id.devid.toNat < ms.ncomp) :
    ∃ p later waiting,
      insertEvent ms event.main = some (p, later) ∧
      ReaderInv exact later (g.insert event p waiting) ∧
      (later.nodes p).waiting = waiting ∧ Kept ms later := by
  obtain ⟨p, between, focus, isNode, found, isFocus, isTree, kept, -⟩ :=
    inv.findnode unfocused fun _ _ => new.id
  have inserted := found.insert (new.kept kept focus) isTree noCur isFocus
  have isHwe : (between.conts event.main).hwe = event.hwe := (kept.stored new.stored).hwe
  refine ⟨p, _, _, ?_, inserted, ?_, ?_⟩
  · unfold Decopus.insertEvent
    rw [new.stored.id]
    dsimp only
    rw [if_pos bound, isNode]
    dsimp only
    rw [isHwe]
    rfl
  · rw [setNode_nodes, if_pos rfl]
  · refine kept.trans ?_
    exact .of_conts rfl rfl rfl

/-- What `main` does with an event. -/
theorem Settled.readEvent (settled : Settled exact ms g)
    (new : NewEvent ms g event) (bound : event.id.devid.toNat < ms.ncomp)
    (refs : ∀ note ∈ event.notes, note.id.devid.toNat < ms.ncomp)
    (spare : exact → Spare (g.seen ++ [event])) :
    ∃ later g', readEvent ms event.main = some later ∧
      Settled exact later g' ∧ g'.seen = g.seen ++ [event] ∧
      Kept ms later := by
  obtain ⟨inv, noCur, unfocused, cold, undoomed, noted⟩ := settled
  obtain ⟨p, inserted, waiting, isInserted, first, isWaiting, kept⟩ :=
    inv.insertEvent unfocused noCur new bound
  have isPlace : (g.insert event p waiting).place event.main = p := update_self ..
  have isSeen : event ∈ (g.insert event p waiting).seen := mem_append_right _ mem_cons_self
  obtain ⟨solved, isSolved, second, keptSolved, sameWaiting⟩ :=
    first.solveOurRefs event.notes rfl rfl undoomed isSeen (by
      unfold Ghost.insert
      rw [noted, flatMap_append, flatMap_singleton])
    (fun note member => ⟨member, kept.ncomp ▸ refs note member⟩) spare
  rw [isPlace] at isSolved sameWaiting
  obtain ⟨sent, third, keptThird⟩ := second.solvePendingRef waiting isSeen rfl rfl cold undoomed
  have isUnsent := third.current_unsent isSeen rfl
  have fourth := third.markRead isUnsent rfl rfl cold fun note member =>
    mem_flatMap_of_mem isSeen member
  obtain ⟨last, fifth, keptFifth⟩ := fourth.tryCommit rfl undoomed
  dsimp only at keptThird fifth keptFifth
  rw [isPlace] at keptThird fifth keptFifth
  refine ⟨_, _, ?_, ⟨fifth, rfl, rfl, rfl, undoomed, rfl⟩, rfl, ?_⟩
  · have ours : trySolveOurRef inserted p event.main = some solved := by
      unfold trySolveOurRef
      rw [idsFrom_notes (kept.stored new.stored)]
      exact isSolved
    unfold Decopus.readEvent
    rw [isInserted]
    change (trySolveOurRef inserted p event.main).bind _ = _
    rw [ours]
    change some (Decopus.tryCommit ((Decopus.solvePendingRef p
      (solved.nodes p).waiting solved).setNode p _) p) = _
    rw [sameWaiting, isWaiting]
  · exact kept.trans (keptSolved.trans (keptThird.trans ((kept_setNode _ _ _).trans keptFifth)))

end

end Reverse.Decopus
