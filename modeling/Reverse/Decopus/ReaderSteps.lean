import Reverse.Decopus.ReaderInvariant

/-!
# The steps of the reader

Each change that the reader makes to its nodes and to the references keeps what
the counters and the lists of waiting references say.
-/

namespace Reverse.Decopus

open Function List

section

variable {exact : Prop} {ms : Reader} {g : Ghost}

theorem cell_hweSetref (ms : Reader) (cont i : Nat) (ref : Option Nat) (note : Note) :
    (ms.hweSetref cont i ref).cell note = if note.key = (cont, i) then ref else ms.cell note := by
  unfold Reader.cell Reader.hweSetref Note.key
  dsimp only
  by_cases sameCont : note.cont = cont
  · rw [sameCont, update_self]
    dsimp only
    by_cases samePos : note.pos = i
    · rw [samePos, update_self, if_pos rfl]
    · rw [update_of_ne samePos, if_neg]
      intro same
      exact samePos (Prod.mk.inj same).2
  · rw [update_of_ne sameCont, if_neg]
    intro same
    exact sameCont (Prod.mk.inj same).1

theorem ReaderTrace.event_unique (trace : ReaderTrace ms g)
    (first : event ∈ g.seen) (second : other ∈ g.seen)
    (same : event.id = other.id) : event = other :=
  inj_on_of_nodup_map trace.distinct first second same

theorem TraceEvent.main_mem (event : TraceEvent) : event.main ∈ event.conts.map Prod.fst :=
  mem_cons_self

theorem ReaderTrace.main_unique (trace : ReaderTrace ms g)
    (first : event ∈ g.seen) (second : other ∈ g.seen) (same : event.main = other.main) :
    event = other := by
  by_contra differ
  have apart := (nodup_flatMap.mp trace.serials).2
  have symmetric : Std.Symm (Function.onFun List.Disjoint
      fun event : TraceEvent => event.conts.map Prod.fst) :=
    ⟨fun _ _ disjoint _ second first => disjoint first second⟩
  exact apart.forall first second differ event.main_mem (same ▸ other.main_mem)

theorem Ghost.unsent_seen (member : event ∈ g.unsent) : event ∈ g.seen :=
  mem_of_mem_drop member

theorem ReaderNodes.tree_unique (nodes : ReaderNodes ms g) {id other : HweId}
    (first : p ∈ ms.trees id) (second : p ∈ ms.trees other) :
    id = other := by
  rw [← (nodes.node id p first).key, (nodes.node other p second).key]

theorem ReaderNodes.same_iff (nodes : ReaderNodes ms g) {id other : HweId}
    (first : p ∈ ms.trees id) (second : q ∈ ms.trees other) : q = p ↔ id = other := by
  constructor
  · rintro rfl
    exact nodes.tree_unique first second
  · rintro rfl
    exact Option.some.inj (second.symm.trans first)

theorem ReaderNodes.place_iff (nodes : ReaderNodes ms g) (trace : ReaderTrace ms g)
    (first : event ∈ g.unsent) (second : other ∈ g.unsent) :
    g.place other.main = g.place event.main ↔ event.main = other.main := by
  rw [nodes.same_iff (nodes.place event first) (nodes.place other second)]
  have isFirst := Ghost.unsent_seen first
  have isSecond := Ghost.unsent_seen second
  constructor
  · intro same
    rw [trace.event_unique isFirst isSecond same]
  · intro same
    rw [trace.main_unique isFirst isSecond same]

theorem Note.owner_of_mem {event : TraceEvent} (member : note ∈ event.notes) :
    note.owner = event.main := by
  unfold TraceEvent.notes at member
  obtain ⟨cont, -, inside⟩ := mem_flatMap.mp member
  obtain ⟨_, -, isNote⟩ := mem_map.mp inside
  rw [← isNote]

theorem Ghost.closed_add_unsolved (g : Ghost) (ms : Reader) (id : HweId) :
    (g.closed ms id).length + (g.unsolved ms id).length =
      (g.noted.filter fun note => note.id = id).length := by
  unfold Ghost.closed Ghost.unsolved
  induction g.noted with
  | nil => rfl
  | cons note noted ih =>
    simp only [filter_cons]
    by_cases sameId : note.id = id
    · cases ms.cell note with
      | none =>
        simp only [sameId, Option.isNone_none, Option.isSome_none,
          decide_true, Bool.and_false, Bool.and_true, if_true,
          length_cons]
        exact congrArg (· + 1) ih
      | some main =>
        simp only [sameId, Option.isNone_some, Option.isSome_some,
          decide_true, Bool.and_false, Bool.and_true, if_true,
          length_cons]
        rw [Nat.add_right_comm]
        exact congrArg (· + 1) ih
    · simpa [sameId] using ih

theorem Ghost.waiting_unknown (noHwe : node.hwe = none) : g.waiting node = node.waiting := by
  unfold Ghost.waiting
  rw [noHwe]

theorem Ghost.waiting_cur (isMain : node.hwe = some main) (isCur : g.cur = some main) :
    g.waiting node = g.pend := by
  unfold Ghost.waiting
  rw [isMain]
  exact if_pos isCur

theorem Ghost.waiting_known (isMain : node.hwe = some main) (notCur : g.cur ≠ some main) :
    g.waiting node = [] := by
  unfold Ghost.waiting
  rw [isMain]
  exact if_neg notCur

theorem setNode_nodes (ms : Reader) (p q : RhwePtr) (change : RhweT → RhweT) :
    (ms.setNode p change).nodes q = if q = p then change (ms.nodes q) else ms.nodes q := by
  unfold Reader.setNode
  dsimp only
  rw [update_apply]
  by_cases same : q = p
  · rw [same]
  · rw [if_neg same, if_neg same]

theorem hweSetref_nodes (ms : Reader) (cont i : Nat) (ref : Option Nat) :
    (ms.hweSetref cont i ref).nodes = ms.nodes :=
  rfl

theorem setNode_missExp (ms : Reader) (p q : RhwePtr) :
    (ms.setNode p fun node => { node with missExp := node.missExp - 1 }).nodes q =
      { ms.nodes q with missExp := (ms.nodes q).missExp - if q = p then 1 else 0 } := by
  rw [setNode_nodes]
  split <;> simp

theorem pool_headD (nodup : free.Nodup) (bound : ∀ p ∈ free, p < nb) :
    (free.headD nb < if free = [] then nb + 1 else nb) ∧ free.headD nb ∉ free.tail := by
  cases free with
  | nil => simp
  | cons first rest =>
    rw [nodup_cons] at nodup
    simpa using ⟨bound first mem_cons_self, nodup.1⟩

theorem pool_grows (small : p < nb) :
    p < if free = [] then nb + 1 else nb := by
  split
  · exact Nat.lt_succ_of_lt small
  · exact small

theorem headD_fresh (nodes : ReaderNodes ms g) {id : HweId}
    (found : p ∈ ms.trees id) : p ≠ ms.free.headD ms.nb := by
  rintro rfl
  obtain ⟨bound, unlisted⟩ := nodes.trees id _ found
  cases isFree : ms.free with
  | nil =>
    rw [isFree] at bound
    exact Nat.lt_irrefl _ bound
  | cons first rest =>
    rw [isFree] at unlisted
    exact unlisted mem_cons_self

/-- The reader after `findnode` has made a node for an id. -/
abbrev Reader.created (ms : Reader) (id : HweId) : Reader :=
  { ms with
    free := ms.free.tail
    nb := if ms.free = [] then ms.nb + 1 else ms.nb
    trees := update ms.trees id (some (ms.free.headD ms.nb))
    nodes := update ms.nodes (ms.free.headD ms.nb) ⟨id, none, [], .unread, 0, 0⟩ }

theorem trees_create {id other : HweId} (found : p ∈ update ms.trees id (some q) other) :
    (other = id ∧ p = q) ∨ p ∈ ms.trees other := by
  by_cases same : other = id
  · rw [same, update_self] at found
    exact .inl ⟨same, (Option.some.inj found).symm⟩
  · rw [update_of_ne same] at found
    exact .inr found

section Create

variable {id : HweId} (absent : ms.trees id = none)

include absent

theorem ReaderNodes.create_old (nodes : ReaderNodes ms g)
    (found : p ∈ ms.trees other) (node : RhweT) :
    other ≠ id ∧ update ms.nodes (ms.free.headD ms.nb) node p = ms.nodes p := by
  refine ⟨?_, update_of_ne (headD_fresh nodes found) ..⟩
  rintro rfl
  cases absent.symm.trans found

theorem ReaderNodes.create (nodes : ReaderNodes ms g) (waits : ReaderWaits ms g) :
    ReaderNodes (ms.created id) { g with focus := some id } := by
  have old := fun {other p} (found : p ∈ ms.trees other) =>
    nodes.create_old absent found ⟨id, none, [], .unread, 0, 0⟩
  refine { nodes with
    trees := ?_, node := ?_, freeNodup := ?_, freeBound := ?_, place := ?_, entry := ?_, hot := ?_ }
  · intro other p found
    rcases trees_create found with ⟨-, rfl⟩ | found
    · exact pool_headD nodes.freeNodup nodes.freeBound
    · obtain ⟨bound, unlisted⟩ := nodes.trees other p found
      exact ⟨pool_grows bound, fun member => unlisted (mem_of_mem_tail member)⟩
  · intro other p found
    dsimp only
    rcases trees_create found with ⟨rfl, rfl⟩ | found
    · rw [update_self]
      refine ⟨rfl, nofun, fun _ => ⟨rfl, rfl, rfl⟩, ?_⟩
      exact .of_eq (congrArg (List.map g.refT) (waits.absent other absent)).symm
    · rw [(old found).2]
      exact { nodes.node other p found with }
  · exact nodes.freeNodup.sublist (tail_sublist _)
  · intro p member
    exact pool_grows (nodes.freeBound p (mem_of_mem_tail member))
  · intro event member
    have place := nodes.place event member
    exact (update_of_ne (old place).1 ..).trans place
  · intro event member
    dsimp only
    rw [(old (nodes.place event member)).2]
    exact { nodes.entry event member with }
  · intro p isHead cold
    have inFifo := mem_of_mem_head? isHead
    rw [nodes.fifo] at inFifo
    obtain ⟨event, member, rfl⟩ := mem_map.mp inFifo
    dsimp only
    rw [(old (nodes.place event member)).2]
    exact nodes.hot _ isHead cold

theorem ReaderCounts.create (counts : ReaderCounts ms g) (nodes : ReaderNodes ms g)
    (unfocused : g.focus = none) (unread : ∀ event ∈ g.seen, event.id ≠ id) :
    ReaderCounts (ms.created id) { g with focus := some id } := by
  refine ⟨?_, ?_, ?_⟩
  · intro other p found
    dsimp only
    rcases trees_create found with ⟨rfl, rfl⟩ | found
    · have never : ∀ {event}, event ∈ g.seen → event.id ≠ other := fun member => unread _ member
      exact ⟨fun event member same => absurd same (never member),
        fun event member same => absurd same (never member),
        fun event member same => absurd same (never member), fun _ cold => absurd rfl cold⟩
    · rw [(nodes.create_old absent found _).2]
      have fits := counts.node other p found
      exact { fits with noted := fun isNew _ => fits.noted isNew (unfocused ▸ nofun) }
  · intro event member isNone
    exact counts.removed event member ((update_of_ne (unread event member) ..).symm.trans isNone)
  · intro other isNew
    obtain ⟨noneClosed, noneNoted⟩ := counts.unread other isNew
    refine ⟨noneClosed, fun isNone => noneNoted ?_⟩
    by_cases same : other = id
    · rw [same]
      exact absent
    · exact (update_of_ne same ..).symm.trans isNone

theorem ReaderInv.create (inv : ReaderInv exact ms g) (unfocused : g.focus = none)
    (unread : exact → ∀ event ∈ g.seen, event.id ≠ id) :
    ReaderInv exact (ms.created id) { g with focus := some id } := by
  obtain ⟨trace, nodes, waits, counts, log⟩ := inv
  refine ⟨{ trace with }, nodes.create absent waits, { waits with absent := ?_ },
    fun isExact => (counts isExact).create absent nodes unfocused (unread isExact), log⟩
  intro other isNone
  by_cases same : other = id
  · rw [same]
    exact waits.absent id absent
  · exact waits.absent other ((update_of_ne same ..).symm.trans isNone)

end Create

theorem filter_concat_congr (same : ∀ other ∈ noted, test other = before other) :
    (noted ++ [note]).filter test = noted.filter before ++ if test note then [note] else [] := by
  rw [filter_append, filter_congr same, filter_singleton]
  cases test note <;> rfl

structure NewNote (ms : Reader) (g : Ghost) (note : Note) : Prop where
  key : note.key ∉ g.noted.map Note.key
  owner : ∃ event ∈ g.seen, note ∈ event.notes

theorem NewNote.cell (new : NewNote ms g note) (ref : Option Nat) (member : other ∈ g.noted) :
    (ms.hweSetref note.cont note.pos ref).cell other = ms.cell other := by
  rw [cell_hweSetref, if_neg]
  intro same
  apply new.key
  rw [← show other.key = note.key from same]
  exact mem_map_of_mem member

theorem NewNote.cell_self (ms : Reader) (note : Note) (ref : Option Nat) :
    (ms.hweSetref note.cont note.pos ref).cell note = ref := by
  rw [cell_hweSetref]
  exact if_pos rfl

theorem ReadStored.hweSetref (stored : ReadStored ms.conts event)
    (cont i : Nat) (ref : Option Nat) :
    ReadStored (ms.hweSetref cont i ref).conts event := by
  obtain ⟨id, hwe, refnext, exts⟩ := stored
  have same : ∀ other, ((ms.hweSetref cont i ref).conts other).id = (ms.conts other).id ∧
      ((ms.hweSetref cont i ref).conts other).hwe = (ms.conts other).hwe ∧
      ((ms.hweSetref cont i ref).conts other).refnext = (ms.conts other).refnext := by
    intro other
    unfold Reader.hweSetref
    dsimp only
    by_cases isCont : other = cont
    · rw [isCont, update_self]
      exact ⟨rfl, rfl, rfl⟩
    · rw [update_of_ne isCont]
      exact ⟨rfl, rfl, rfl⟩
  refine ⟨?_, ?_, ?_, fun ext inside => ?_⟩
  · rw [(same _).1, id]
  · rw [(same _).2.1, hwe]
  · rw [(same _).2.2, refnext]
  · rw [(same _).2.1, exts ext inside]

theorem ReaderTrace.note {note : Note} (trace : ReaderTrace ms g)
    (new : NewNote ms g note) (ref : Option Nat)
    (solved : ∀ main ∈ ref, ∃ event ∈ g.seen, event.id = note.id ∧ event.main = main) :
    ReaderTrace (ms.hweSetref note.cont note.pos ref) { g with noted := g.noted ++ [note] } := by
  refine { trace with stored := ?_, keys := ?_, owners := ?_, solved := ?_ }
  · intro event member
    exact (trace.stored event member).hweSetref _ _ _
  · rw [map_append]
    refine trace.keys.append (nodup_singleton _) ?_
    intro key old isNew
    rw [mem_singleton.mp isNew] at old
    exact new.key old
  · intro other member
    rcases mem_append.mp member with old | isNew
    · exact trace.owners other old
    · rw [mem_singleton.mp isNew]
      exact new.owner
  · intro other member main isMain
    rcases mem_append.mp member with old | isNew
    · rw [new.cell ref old] at isMain
      exact trace.solved other old main isMain
    · rw [mem_singleton.mp isNew, NewNote.cell_self] at isMain
      rw [mem_singleton.mp isNew]
      exact solved main isMain

theorem NewNote.unsolved (new : NewNote ms g note) (ref : Option Nat) (id : HweId) :
    { g with noted := g.noted ++ [note] }.unsolved
        (ms.hweSetref note.cont note.pos ref) id =
      g.unsolved ms id ++ if note.id = id && ref.isNone then [note] else [] := by
  unfold Ghost.unsolved
  rw [filter_concat_congr fun other member => by rw [new.cell ref member], NewNote.cell_self]

theorem NewNote.owed (new : NewNote ms g note) (ref : Option Nat) (owner : Nat) :
    { g with noted := g.noted ++ [note] }.owed
        (ms.hweSetref note.cont note.pos ref) owner =
      g.owed ms owner ++ if note.owner = owner && ref.isNone then [note] else [] := by
  unfold Ghost.owed
  rw [filter_concat_congr fun other member => by rw [new.cell ref member], NewNote.cell_self]

theorem NewNote.closed (new : NewNote ms g note) (ref : Option Nat) (id : HweId) :
    { g with noted := g.noted ++ [note] }.closed
        (ms.hweSetref note.cont note.pos ref) id =
      g.closed ms id ++ if note.id = id && ref.isSome then [note] else [] := by
  unfold Ghost.closed
  rw [filter_concat_congr fun other member => by rw [new.cell ref member], NewNote.cell_self]

theorem NewNote.closed_length (new : NewNote ms g note) (ref : Option Nat) (id : HweId) :
    ({ g with noted := g.noted ++ [note] }.closed
        (ms.hweSetref note.cont note.pos ref) id).length =
      (g.closed ms id).length + if note.id = id ∧ ref.isSome then 1 else 0 := by
  rw [new.closed, length_append]
  split <;> simp_all

theorem ReaderWaits.note {note : Note} (waits : ReaderWaits ms g) (new : NewNote ms g note)
    (found : p ∈ ms.trees note.id) (ref : Option Nat)
    (owner : ref = none → note.owner ∈ g.unsent.map TraceEvent.main) :
    ReaderWaits (ms.hweSetref note.cont note.pos ref) { g with noted := g.noted ++ [note] } := by
  refine ⟨fun id isNone => ?_, fun other member isOpen => ?_, waits.waiting⟩
  · rw [new.unsolved, if_neg, append_nil]
    · exact waits.absent id isNone
    · intro sameId
      rw [Bool.and_eq_true, decide_eq_true_eq] at sameId
      rw [sameId.1] at found
      cases found.symm.trans isNone
  · rcases mem_append.mp member with isOld | isNew
    · rw [new.cell ref isOld] at isOpen
      exact waits.owner other isOld isOpen
    · rw [mem_singleton.mp isNew] at isOpen ⊢
      exact owner ((NewNote.cell_self ms note ref).symm.trans isOpen)

/-- Only the ids that have a node get more references. -/
theorem ReaderCounts.note {note : Note} (counts : ReaderCounts ms g) (new : NewNote ms g note)
    (found : p ∈ ms.trees note.id) (ref : Option Nat)
    (solved : ref.isSome → ∃ event ∈ g.seen, event.id = note.id) :
    (∀ event ∈ g.seen, ms.trees event.id = none →
      ((g.noted ++ [note]).filter fun other => other.id = event.id).length = event.expected) ∧
    ∀ id, (∀ event ∈ g.seen, event.id ≠ id) →
      { g with noted := g.noted ++ [note] }.closed (ms.hweSetref note.cont note.pos ref) id = [] ∧
        (ms.trees id = none → (g.noted ++ [note]).filter (fun other => other.id = id) = []) := by
  have absent : ∀ {id}, ms.trees id = none →
      ((g.noted ++ [note]).filter fun other => other.id = id) =
        g.noted.filter fun other => other.id = id := by
    intro id isNone
    rw [filter_append, filter_cons_of_neg, filter_nil, append_nil]
    simp only [decide_eq_true_eq]
    rintro rfl
    cases found.symm.trans isNone
  constructor
  · intro event member isNone
    rw [absent isNone]
    exact counts.removed event member isNone
  · intro id isNew
    obtain ⟨noneClosed, noneNoted⟩ := counts.unread id isNew
    refine ⟨?_, fun isNone => (absent isNone).trans (noneNoted isNone)⟩
    rw [new.closed, noneClosed, if_neg]
    · rfl
    · intro sameId
      rw [Bool.and_eq_true, decide_eq_true_eq] at sameId
      obtain ⟨event, member, isId⟩ := solved sameId.2
      exact isNew event member (isId.trans sameId.1)

/-- The counter of a node follows the references to it that are solved. -/
theorem CountInv.missExp_solved {id : HweId} {g' : Ghost} (fits : CountInv ms g id q node)
    (closed : (g'.closed later id).length = (g.closed ms id).length + if q = p then 1 else 0) :
    ∀ event ∈ g.seen, event.id = id →
      node.missExp - (if q = p then 1 else 0) = event.expected - (g'.closed later id).length := by
  intro event member sameId
  have before := fits.missExp event member sameId
  rw [closed]
  split <;> omega

theorem ReaderInv.solveNow (inv : ReaderInv exact ms g) (new : NewNote ms g note)
    (found : p ∈ ms.trees note.id) (isMain : (ms.nodes p).hwe = some main)
    (kept : g.doomed = none) :
    ReaderInv exact
      ((ms.hweSetref note.cont note.pos (some main)).setNode p fun node =>
        { node with missExp := node.missExp - 1 })
      { g with noted := g.noted ++ [note], doomed := some p } := by
  obtain ⟨trace, nodes, waits, counts, log⟩ := inv
  obtain ⟨target, isSeen, isId, isTarget, -⟩ := (nodes.node note.id p found).known main isMain
  have node : ∀ q, _ = { ms.nodes q with
      missExp := (ms.nodes q).missExp - if q = p then 1 else 0 } :=
    setNode_missExp (ms.hweSetref note.cont note.pos (some main)) p
  have unsolved := fun id => (new.unsolved (some main) id).trans
    (by rw [Option.isNone_some, Bool.and_false, if_neg Bool.false_ne_true, append_nil])
  have owed := fun owner => (new.owed (some main) owner).trans
    (by rw [Option.isNone_some, Bool.and_false, if_neg Bool.false_ne_true, append_nil])
  have noted := trace.note new (some main) (by
    rintro _ ⟨⟩
    exact ⟨target, isSeen, isId, isTarget⟩)
  refine ⟨{ noted with }, ?_, { waits.note new found (some main) nofun with },
    fun isExact => ?_, log⟩
  · refine { nodes with node := ?_, entry := ?_, hot := ?_ }
    · intro id q isTree
      have fits := nodes.node id q isTree
      rw [node]
      refine { fits with
        unknown := fun noHwe => ?_
        waits := fits.waits.trans (.of_eq (congrArg (List.map g.refT) (unsolved id)).symm) }
      have notHere : q ≠ p := by
        rintro rfl
        cases isMain.symm.trans noHwe
      simpa [notHere] using fits.unknown noHwe
    · intro event member
      have fits := nodes.entry event member
      rw [node]
      exact { fits with
        missRef := fits.missRef.trans (congrArg (fun list => (list.length : Int))
          (owed event.main)).symm
        complete := fun notCur note inside =>
          mem_append_left _ (fits.complete notCur note inside) }
    · intro q isHead cold
      rw [node]
      exact nodes.hot q isHead cold
  · obtain ⟨removed, unread⟩ :=
      (counts isExact).note new found (some main) fun _ => ⟨target, isSeen, isId⟩
    refine ⟨fun id q isTree => ?_, removed, unread⟩
    have fits := (counts isExact).node id q isTree
    have isHere := nodes.same_iff found isTree
    rw [node]
    have closed := new.closed_length (some main) id
    simp only [Option.isSome_some, and_true, ← isHere] at closed
    refine { fits with missExp := fits.missExp_solved closed, kept := ?_, noted := ?_ }
    · intro event member sameId isSent notDoomed
      have notHere : q ≠ p := by
        rintro rfl
        exact notDoomed rfl
      simpa [notHere] using fits.kept event member sameId isSent (kept ▸ nofun)
    · intro isNew cold
      obtain ⟨other, member, isOther⟩ := fits.noted isNew cold
      exact ⟨other, mem_append_left _ member, isOther⟩

theorem wait_nodes (ms : Reader) (note : Note) (ref : RefT) (p owner q : RhwePtr) :
    (((ms.setNode p fun node => { node with waiting := ref :: node.waiting }).setNode owner
        fun node => { node with missRef := node.missRef + 1 }).hweSetref
          note.cont note.pos none).nodes q =
      { ms.nodes q with
        waiting := if q = p then ref :: (ms.nodes q).waiting else (ms.nodes q).waiting
        missRef := (ms.nodes q).missRef + if q = owner then 1 else 0 } := by
  rw [hweSetref_nodes, setNode_nodes, setNode_nodes]
  by_cases isHere : q = p
  · rw [if_pos isHere, if_pos isHere]
    split <;> simp
  · rw [if_neg isHere, if_neg isHere]
    split <;> simp

theorem ReaderInv.wait (inv : ReaderInv exact ms g)
    (new : NewNote ms g note) (found : p ∈ ms.trees note.id)
    (noHwe : (ms.nodes p).hwe = none) (isCur : g.cur = some note.owner)
    (focused : ∀ id ∈ g.focus, id = note.id) :
    ReaderInv exact
      (((ms.setNode p fun node =>
        { node with waiting := g.refT note :: node.waiting }).setNode
          (g.place note.owner) fun node =>
            { node with missRef := node.missRef + 1 }).hweSetref
              note.cont note.pos none)
      { g with noted := g.noted ++ [note], focus := none } := by
  obtain ⟨trace, nodes, waits, counts, log⟩ := inv
  obtain ⟨current, isUnsent, isCurrent⟩ := nodes.current note.owner isCur
  have owner := nodes.entry current isUnsent
  have node := wait_nodes ms note (g.refT note) p (g.place note.owner)
  have unsolved := fun id => (new.unsolved none id).trans
    (by rw [Option.isNone_none, Bool.and_true])
  have owed := fun owner => (new.owed none owner).trans (by rw [Option.isNone_none, Bool.and_true])
  refine ⟨{ trace.note new none nofun with }, ?_, { waits.note new found none fun _ =>
    isCurrent ▸ mem_map_of_mem isUnsent with }, fun isExact => ?_, log⟩
  · refine { nodes with node := ?_, entry := ?_, hot := ?_ }
    · intro id q isTree
      have fits := nodes.node id q isTree
      have isHere := nodes.same_iff found isTree
      rw [node]
      refine { fits with unknown := ?_, waits := ?_ }
      · intro isUnknown
        have notOwner : q ≠ g.place note.owner := by
          rintro rfl
          rw [← isCurrent] at isUnknown
          cases owner.hwe.symm.trans isUnknown
        simpa [notOwner] using fits.unknown isUnknown
      · refine List.Perm.trans ?_ (.of_eq (congrArg (List.map g.refT) (unsolved id)).symm)
        by_cases here : q = p
        · rw [if_pos (decide_eq_true (isHere.mp here)), map_append]
          subst here
          have before := fits.waits
          unfold Ghost.waiting at before ⊢
          dsimp only
          rw [noHwe] at before ⊢
          dsimp only
          rw [if_pos rfl]
          exact (before.cons _).trans (perm_append_singleton _ _).symm
        · rw [if_neg (mt of_decide_eq_true (mt isHere.mpr here)), append_nil, if_neg here]
          exact fits.waits
    · intro event member
      have fits := nodes.entry event member
      have isOwner := nodes.place_iff trace isUnsent member
      rw [isCurrent] at isOwner
      rw [node]
      refine { fits with
        missRef := ?_
        complete := fun notCur note inside =>
          mem_append_left _ (fits.complete notCur note inside) }
      refine Eq.trans ?_ (congrArg (fun list => (list.length : Int)) (owed event.main)).symm
      have before := fits.missRef
      simp only [isOwner, length_append]
      split <;> simp_all
    · intro q isHead cold
      have before := nodes.hot q isHead cold
      rw [node]
      rintro ⟨isRead, noMiss⟩
      have notOwner : q ≠ g.place note.owner := by
        rintro rfl
        have isState := owner.state
        rw [isCurrent, if_pos isCur] at isState
        cases isRead.symm.trans isState
      exact before ⟨isRead, by simpa [notOwner] using noMiss⟩
  · obtain ⟨removed, unread⟩ := (counts isExact).note new found none nofun
    refine ⟨fun id q isTree => ?_, removed, unread⟩
    have fits := (counts isExact).node id q isTree
    have closed := new.closed_length none id
    rw [node]
    refine { fits with missExp := ?_, noted := ?_ }
    · intro event member sameId
      refine (fits.missExp event member sameId).trans ?_
      exact (congrArg (fun length : Nat => event.expected - (length : Int)) (closed.trans (by simp))).symm
    · intro isNew _
      by_cases sameId : note.id = id
      · exact ⟨note, mem_append_right _ mem_cons_self, sameId⟩
      · obtain ⟨other, member, isOther⟩ :=
          fits.noted isNew fun isFocus => sameId (focused id isFocus).symm
        exact ⟨other, mem_append_left _ member, isOther⟩

structure OpenNote (ms : Reader) (g : Ghost) (note : Note) : Prop where
  member : note ∈ g.noted
  isOpen : ms.cell note = none

theorem ReaderTrace.cell_solved {note other : Note} (trace : ReaderTrace ms g)
    (waits : OpenNote ms g note) (ref : Option Nat) (member : other ∈ g.noted) :
    (ms.hweSetref note.cont note.pos ref).cell other =
      if other = note then ref else ms.cell other := by
  rw [cell_hweSetref]
  by_cases same : other = note
  · rw [if_pos same, same]
    exact if_pos rfl
  · rw [if_neg same, if_neg]
    intro sameKey
    exact same (inj_on_of_nodup_map trace.keys member waits.member sameKey)

theorem ReaderTrace.filter_solved {note : Note} (trace : ReaderTrace ms g)
    (waits : OpenNote ms g note) (test : Note → Bool) :
    (g.noted.filter fun other => test other &&
        ((ms.hweSetref note.cont note.pos (some main)).cell other).isNone) =
      (g.noted.filter fun other =>
        test other && (ms.cell other).isNone).erase note := by
  have nodup : g.noted.Nodup := trace.keys.of_map _
  rw [(nodup.filter _).erase_eq_filter, filter_filter]
  apply filter_congr
  intro other member
  rw [trace.cell_solved waits (some main) member]
  by_cases same : other = note
  · simp [same]
  · simp [same]

theorem OpenNote.mem_unsolved (waits : OpenNote ms g note) {id : HweId} :
    note ∈ g.unsolved ms id ↔ note.id = id := by
  unfold Ghost.unsolved
  rw [mem_filter, waits.isOpen]
  simp [waits.member]

theorem OpenNote.mem_owed (waits : OpenNote ms g note) :
    note ∈ g.owed ms owner ↔ note.owner = owner := by
  unfold Ghost.owed
  rw [mem_filter, waits.isOpen]
  simp [waits.member]

theorem ReaderTrace.closed_solved {note : Note} (trace : ReaderTrace ms g)
    (waits : OpenNote ms g note) (id : HweId) :
    (g.closed (ms.hweSetref note.cont note.pos (some main)) id).length =
      (g.closed ms id).length + if note.id = id then 1 else 0 := by
  have before := g.closed_add_unsolved ms id
  have later := g.closed_add_unsolved (ms.hweSetref note.cont note.pos (some main)) id
  have unsolved : g.unsolved
      (ms.hweSetref note.cont note.pos (some main)) id = (g.unsolved ms id).erase note :=
    trace.filter_solved waits _
  rw [unsolved] at later
  by_cases sameId : note.id = id
  · have member := waits.mem_unsolved.mpr sameId
    have one := length_erase_add_one member
    rw [if_pos sameId]
    omega
  · have absent := mt waits.mem_unsolved.mp sameId
    rw [erase_of_not_mem absent] at later
    rw [if_neg sameId]
    omega

theorem ReaderTrace.solve {note : Note} (trace : ReaderTrace ms g) (waits : OpenNote ms g note)
    (solved : ∃ event ∈ g.seen, event.id = note.id ∧ event.main = main) :
    ReaderTrace (ms.hweSetref note.cont note.pos (some main)) g := by
  refine { trace with stored := ?_, solved := ?_ }
  · intro event member
    exact (trace.stored event member).hweSetref _ _ _
  · intro other member found isFound
    rw [trace.cell_solved waits (some main) member] at isFound
    split at isFound
    next same =>
      cases isFound
      rw [same]
      exact solved
    next => exact trace.solved other member found isFound

theorem OpenNote.cell_none (waits : OpenNote ms g note) (trace : ReaderTrace ms g)
    (member : other ∈ g.noted)
    (isOpen : (ms.hweSetref note.cont note.pos (some main)).cell other = none) :
    ms.cell other = none := by
  rw [trace.cell_solved waits (some main) member] at isOpen
  split at isOpen
  · cases isOpen
  · exact isOpen

theorem ReaderInv.pend_waiting (inv : ReaderInv exact ms g)
    (isUnsent : event ∈ g.unsent) (isCur : g.cur = some event.main) :
    g.pend.Perm ((g.unsolved ms event.id).map g.refT) := by
  have waiting := (inv.nodes.node event.id _ (inv.nodes.place event isUnsent)).waits
  rw [Ghost.waiting_cur (inv.nodes.entry event isUnsent).hwe isCur] at waiting
  exact waiting

/-- Only the event that is being read has references that wait for it. -/
theorem ReaderNodes.waiting_other (nodes : ReaderNodes ms g) (trace : ReaderTrace ms g)
    (isUnsent : event ∈ g.unsent) (isCur : g.cur = some event.main) {id : HweId}
    (isTree : q ∈ ms.trees id) (otherId : event.id ≠ id) (pend : List RefT) (hot : Option RhwePtr) :
    ({ g with pend := pend, hot := hot } : Ghost).waiting (ms.nodes q) =
      g.waiting (ms.nodes q) := by
  cases isMain : (ms.nodes q).hwe with
  | none => rw [Ghost.waiting_unknown isMain, Ghost.waiting_unknown isMain]
  | some main =>
    obtain ⟨other, isSeen, isId, otherMain, -⟩ := (nodes.node id q isTree).known main isMain
    have notCur : g.cur ≠ some main := by
      intro alsoCur
      apply otherId
      rw [← isId, trace.main_unique isSeen (Ghost.unsent_seen isUnsent)
        (otherMain.trans (Option.some.inj (alsoCur.symm.trans isCur)))]
    rw [Ghost.waiting_known isMain notCur]
    exact Ghost.waiting_known isMain notCur

/-- The reader after a reference that has waited at a node is solved. -/
abbrev Reader.solved (ms : Reader) (ref : RefT) (hwe : Option Nat) (p : RhwePtr) : Reader :=
  ((ms.hweSetref ref.cont ref.pos hwe).setNode p fun node =>
    { node with missExp := node.missExp - 1 }).setNode ref.rhwe fun node =>
      { node with missRef := node.missRef - 1 }

theorem solved_nodes (ms : Reader) (ref : RefT) (hwe : Option Nat) (p q : RhwePtr) :
    (ms.solved ref hwe p).nodes q =
      { ms.nodes q with
        missExp := (ms.nodes q).missExp - if q = p then 1 else 0
        missRef := (ms.nodes q).missRef - if q = ref.rhwe then 1 else 0 } := by
  rw [setNode_nodes, setNode_missExp, hweSetref_nodes]
  split <;> simp

section Solve

variable {note : Note} (trace : ReaderTrace ms g) (nodes : ReaderNodes ms g)
  (isUnsent : event ∈ g.unsent) (isOpen : OpenNote ms g note)

include trace nodes isUnsent isOpen

theorem ReaderNodes.solveNote (waits : ReaderWaits ms g) (isCur : g.cur = some event.main)
    (isPend : g.pend = g.refT note :: pend) (cold : g.hot = none) (noteId : note.id = event.id)
    (waiting : g.pend.Perm ((g.unsolved ms event.id).map g.refT)) :
    ReaderNodes
      (ms.solved (g.refT note) (some event.main) (g.place event.main))
      { g with pend := pend, hot := some (g.place note.owner) } := by
  obtain ⟨owner, ownerUnsent, isOwner⟩ := mem_map.mp (waits.owner note isOpen.member isOpen.isOpen)
  have place := nodes.place event isUnsent
  have node : ∀ q, _ = { ms.nodes q with
      missExp := (ms.nodes q).missExp - if q = g.place event.main then 1 else 0
      missRef := (ms.nodes q).missRef - if q = g.place note.owner then 1 else 0 } :=
    solved_nodes ms (g.refT note) (some event.main) (g.place event.main)
  have unsolved : ∀ id, g.unsolved
      (ms.hweSetref note.cont note.pos (some event.main)) id = (g.unsolved ms id).erase note :=
    fun id => trace.filter_solved isOpen _
  have owed : ∀ main, g.owed
      (ms.hweSetref note.cont note.pos (some event.main)) main = (g.owed ms main).erase note :=
    fun main => trace.filter_solved isOpen _
  have known : ∀ {q event}, event ∈ g.unsent → (ms.nodes q).hwe = none → q ≠ g.place event.main := by
    rintro q event member isUnknown rfl
    cases isUnknown.symm.trans (nodes.entry event member).hwe
  refine { nodes with node := ?_, entry := ?_, hot := ?_ }
  · intro id q isTree
    have fits := nodes.node id q isTree
    rw [node]
    refine { fits with unknown := ?_, waits := ?_ }
    · intro isUnknown
      have notOwner := isOwner ▸ known ownerUnsent isUnknown
      simpa [known isUnsent isUnknown, notOwner] using fits.unknown isUnknown
    · refine List.Perm.trans ?_ (.of_eq (congrArg (List.map g.refT) (unsolved id)).symm)
      by_cases sameId : event.id = id
      · have isHere := (nodes.same_iff place isTree).mpr sameId
        subst sameId isHere
        have hwe := (nodes.entry event isUnsent).hwe
        refine List.Perm.trans (.of_eq ?_) (List.Perm.cons_inv
          (isPend ▸ waiting.trans ((perm_cons_erase (isOpen.mem_unsolved.mpr noteId)).map g.refT)))
        unfold Ghost.waiting
        dsimp only
        rw [hwe]
        exact if_pos isCur
      · rw [erase_of_not_mem (mt isOpen.mem_unsolved.mp (noteId ▸ sameId))]
        exact (List.Perm.of_eq (nodes.waiting_other trace isUnsent isCur isTree sameId pend _)).trans
          fits.waits
  · intro other member
    have fits := nodes.entry other member
    have samePlace := nodes.place_iff trace ownerUnsent member
    rw [isOwner] at samePlace
    rw [node]
    refine { fits with missRef := ?_ }
    refine Eq.trans ?_ (congrArg (fun list => (list.length : Int)) (owed other.main)).symm
    dsimp only
    rw [fits.missRef]
    by_cases sameOwner : note.owner = other.main
    · have one := length_erase_add_one (isOpen.mem_owed.mpr sameOwner)
      rw [if_pos (samePlace.mpr sameOwner)]
      omega
    · rw [erase_of_not_mem (mt isOpen.mem_owed.mp sameOwner),
        if_neg (mt samePlace.mp sameOwner), Int.sub_zero]
  · intro q isHead isCold
    have notOwner : q ≠ g.place note.owner := by
      rintro rfl
      exact isCold rfl
    rw [node]
    simpa [notOwner] using nodes.hot q isHead (cold ▸ nofun)

theorem ReaderCounts.solveNote (counts : ReaderCounts ms g) (noteId : note.id = event.id) :
    ReaderCounts
      (ms.solved (g.refT note) (some event.main) (g.place event.main))
      { g with pend := pend, hot := some (g.place note.owner) } := by
  have place := nodes.place event isUnsent
  have node := solved_nodes ms (g.refT note) (some event.main) (g.place event.main)
  have isSeen := Ghost.unsent_seen isUnsent
  refine ⟨?_, counts.removed, ?_⟩
  · intro id q isTree
    have fits := counts.node id q isTree
    have closed : (g.closed (ms.hweSetref note.cont note.pos (some event.main)) id).length = _ :=
      trace.closed_solved isOpen id
    simp only [noteId, ← nodes.same_iff place isTree] at closed
    rw [node]
    refine { fits with missExp := fits.missExp_solved closed, kept := ?_ }
    intro other member sameId isSent notDoomed
    have notHere : q ≠ g.place event.main := by
      intro isHere
      apply isSent
      have isId := (nodes.same_iff place isTree).mp isHere
      rw [trace.event_unique member isSeen (sameId.trans isId.symm)]
      exact isUnsent
    simpa [notHere] using fits.kept other member sameId isSent notDoomed
  · intro id isNew
    obtain ⟨noneClosed, noneNoted⟩ := counts.unread id isNew
    refine ⟨eq_nil_of_length_eq_zero ((trace.closed_solved isOpen id).trans ?_), noneNoted⟩
    rw [noneClosed, if_neg (noteId ▸ isNew event isSeen)]
    rfl

end Solve

theorem ReaderInv.solveNote (inv : ReaderInv exact ms g)
    (isUnsent : event ∈ g.unsent) (isCur : g.cur = some event.main)
    (isPend : g.pend = g.refT note :: pend) (cold : g.hot = none)
    (isNote : note ∈ g.unsolved ms event.id) :
    ReaderInv exact
      (ms.solved (g.refT note) (some event.main) (g.place event.main))
      { g with pend := pend, hot := some (g.place note.owner) } := by
  have waiting := inv.pend_waiting isUnsent isCur
  obtain ⟨trace, nodes, waits, counts, log⟩ := inv
  obtain ⟨member, test⟩ := mem_filter.mp isNote
  rw [Bool.and_eq_true] at test
  have noteId : note.id = event.id := of_decide_eq_true test.1
  have isOpen : OpenNote ms g note := ⟨member, Option.isNone_iff_eq_none.mp test.2⟩
  have solved := trace.solve isOpen ⟨event, Ghost.unsent_seen isUnsent, noteId.symm, rfl⟩
  refine ⟨{ solved with },
    nodes.solveNote trace isUnsent isOpen waits isCur isPend cold noteId waiting,
    ⟨fun id isNone => ?_, fun other member stillOpen => ?_, fun isNone => ?_⟩,
    fun isExact => (counts isExact).solveNote trace nodes isUnsent isOpen noteId, log⟩
  · refine (trace.filter_solved isOpen _).trans ?_
    exact congrArg (List.erase · note) (waits.absent id isNone)
  · exact waits.owner other member (isOpen.cell_none trace member stillOpen)
  · cases isCur.symm.trans isNone

theorem ReaderInv.solvePending (inv : ReaderInv exact ms g)
    (isUnsent : event ∈ g.unsent) (isCur : g.cur = some event.main)
    (isPend : g.pend = ref :: pend) (cold : g.hot = none) :
    ReaderInv exact
      (ms.solved ref (some event.main) (g.place event.main))
      { g with pend := pend, hot := some ref.rhwe } := by
  have waiting := inv.pend_waiting isUnsent isCur
  rw [isPend] at waiting
  obtain ⟨note, isNote, rfl⟩ := mem_map.mp (waiting.subset mem_cons_self)
  exact inv.solveNote isUnsent isCur isPend cold isNote

end

end Reverse.Decopus
