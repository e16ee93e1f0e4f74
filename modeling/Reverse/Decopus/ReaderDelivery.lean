import Reverse.Decopus.ReaderRuns

/-!
# What the reader hands over

Whatever the references of a trace are, the reader hands over a prefix of its
events, each with its references solved.  If every event is referenced as often
as it expects, this is the whole trace, and no node is left.
-/

namespace Reverse.Decopus

open Function
open List hiding all

section

variable {exact : Prop} {ms : Reader} {g : Ghost}

theorem solveOurRef_bound (solved : solveOurRef rhwe ms ref = some later) :
    ref.2.2.devid.toNat < ms.ncomp ∧ later.ncomp = ms.ncomp := by
  have found : ∀ id, (findnode ms id).2.ncomp = ms.ncomp := by
    intro id
    unfold findnode
    split <;> rfl
  unfold solveOurRef at solved
  dsimp only at solved
  split at solved
  next bound =>
    refine ⟨bound, ?_⟩
    rw [← found ref.2.2]
    split at solved
    · rw [← Option.some.inj solved]
      exact (kept_tryDelete _ _).ncomp
    · rw [← Option.some.inj solved]
      rfl
  next => nomatch solved

theorem solveOurRefs_bound {refs : List (Nat × Nat × HweId)}
    (solved : refs.foldlM (solveOurRef rhwe) ms = some later) :
    ∀ ref ∈ refs, ref.2.2.devid.toNat < ms.ncomp := by
  induction refs generalizing ms with
  | nil => nofun
  | cons first refs ih =>
    rw [foldlM_cons] at solved
    obtain ⟨between, isFirst, rest⟩ := Option.bind_eq_some_iff.mp solved
    obtain ⟨bound, same⟩ := solveOurRef_bound isFirst
    intro ref member
    rcases mem_cons.mp member with rfl | isLater
    · exact bound
    · rw [← same]
      exact ih rest ref isLater

theorem readEvent_bound (stored : ReadStored ms.conts event)
    (isRead : readEvent ms event.main = some later) :
    event.id.devid.toNat < ms.ncomp ∧ ∀ note ∈ event.notes, note.id.devid.toNat < ms.ncomp := by
  obtain ⟨⟨p, inserted⟩, isInserted, rest⟩ := Option.bind_eq_some_iff.mp isRead
  obtain ⟨solved, isSolved, -⟩ := Option.bind_eq_some_iff.mp rest
  unfold insertEvent at isInserted
  rw [stored.id] at isInserted
  dsimp only at isInserted
  split at isInserted
  next bound =>
    refine ⟨bound, ?_⟩
    have kept : Kept ms inserted := by
      have found : Kept ms (findnode ms event.id).2 := by
        unfold findnode
        split
        · exact Kept.refl ms
        · exact .of_conts rfl rfl rfl
      refine found.trans ?_
      rw [← (Prod.mk.inj (Option.some.inj isInserted)).2]
      exact .of_conts rfl rfl rfl
    unfold trySolveOurRef at isSolved
    rw [idsFrom_notes (kept.stored stored)] at isSolved
    intro note member
    rw [← kept.ncomp]
    exact solveOurRefs_bound isSolved note.found (mem_map_of_mem member)
  next => nomatch isInserted

theorem storeContainer_handled (ms : Reader) (id : HweId)
    (hwe : Container HweId) : (storeContainer ms id hwe).handled = ms.handled := by
  unfold storeContainer Reader.handled
  dsimp only
  rw [filterMap_append]
  exact append_nil _

/-- The reader has treated the events of the trace up to the current one. -/
structure Reading (exact : Prop) (state : Reader × Option Nat)
    (parsed : Parsed) (g : Ghost) : Prop where
  settled : Settled exact state.1 g
  seen : g.seen = parsed.events
  count : state.1.nalloc = parsed.count
  current : state.2 = parsed.current.map TraceEvent.main
  started : ∀ event ∈ parsed.current,
    (∀ other ∈ g.seen, other.id ≠ event.id) → NewEvent state.1 g event

theorem Settled.stored (settled : Settled exact ms g)
    (inv : ReaderInv exact later g) : Settled exact later g :=
  { settled with inv := inv }

theorem Parsed.distinct_current {parsed : Parsed} (distinct : (parsed.all.map TraceEvent.id).Nodup)
    (isCurrent : parsed.current = some event) :
    ∀ other ∈ parsed.events, other.id ≠ event.id := by
  intro other member same
  unfold Parsed.all at distinct
  rw [isCurrent, map_append] at distinct
  apply disjoint_of_nodup_append distinct (mem_map_of_mem member)
  rw [same]
  exact mem_cons_self

theorem Settled.storeContainer (settled : Settled exact ms g) (id : HweId)
    (hwe : Container HweId) : Settled exact (storeContainer ms id hwe) g := by
  apply settled.stored
  refine settled.inv.stored _ _ _ _ ?_ (Nat.le_succ _) (storeContainer_handled ms id hwe)
  intro event member cont inside
  apply update_of_ne
  exact Nat.ne_of_lt (settled.inv.trace.bounded event member cont inside)

theorem NewEvent.begin {id : HweId} (stored : ReadStored later.conts ⟨id, cont, hwe, []⟩)
    (bound : cont < later.nalloc) (fresh : ∀ event ∈ g.seen, ∀ other ∈ event.conts, other.1 < cont)
    (distinct : ∀ other ∈ g.seen, other.id ≠ id) :
    NewEvent later g ⟨id, cont, hwe, []⟩ where
  id := distinct
  serials := nodup_singleton _
  apart := by
    intro event member other inside same
    have small := fresh event member other inside
    rw [mem_singleton.mp same] at small
    exact Nat.lt_irrefl _ small
  bounded := by
    intro other inside
    rw [mem_singleton.mp inside]
    exact bound
  stored := stored

theorem storeContainer_stored (ms : Reader) (id : HweId) (hwe : Container HweId) :
    ReadStored (storeContainer ms id hwe).conts ⟨id, ms.nalloc, hwe, []⟩ := by
  have isCont : (Decopus.storeContainer ms id hwe).conts ms.nalloc = ⟨id, hwe, [], fun _ => none⟩ :=
    update_self ..
  refine ⟨?_, ?_, ?_, nofun⟩
  · rw [isCont]
  · rw [isCont]
  · rw [isCont]
    rfl

theorem NewEvent.storeContainer (new : NewEvent ms g event) (id : HweId) (hwe : Container HweId) :
    NewEvent (storeContainer ms id hwe) g event := by
  have same : ∀ cont ∈ event.conts,
      (Decopus.storeContainer ms id hwe).conts cont.1 = ms.conts cont.1 := by
    intro cont inside
    apply update_of_ne
    exact Nat.ne_of_lt (new.bounded cont inside)
  have isMain := same (event.main, event.hwe) mem_cons_self
  dsimp only at isMain
  obtain ⟨isId, isHwe, isNext, isExts⟩ := new.stored
  refine { new with bounded := ?_, stored := ⟨?_, ?_, ?_, ?_⟩ }
  · intro cont inside
    exact Nat.lt_succ_of_lt (new.bounded cont inside)
  · rw [isMain, isId]
  · rw [isMain, isHwe]
  · rw [isMain, isNext]
  · intro ext inside
    rw [same ext (mem_cons_of_mem _ inside)]
    exact isExts ext inside

theorem NewEvent.extend (new : NewEvent ms g event)
    (isHwe : (ms.conts cont).hwe = hwe) (bound : cont < ms.nalloc)
    (fresh : ∀ other ∈ event.conts, other.1 < cont)
    (apart : ∀ other ∈ g.seen, ∀ old ∈ other.conts, old.1 < cont) :
    NewEvent { ms with
      conts := update ms.conts event.main
        { ms.conts event.main with
          refnext := (ms.conts event.main).refnext ++ [cont] } } g
      { event with exts := event.exts ++ [(cont, hwe)] } := by
  have conts : { event with exts := event.exts ++ [(cont, hwe)] }.conts =
      event.conts ++ [(cont, hwe)] :=
    rfl
  have kept : ∀ other, (update ms.conts event.main
      { ms.conts event.main with
        refnext := (ms.conts event.main).refnext ++ [cont] } other).hwe = (ms.conts other).hwe := by
    intro other
    by_cases isMain : other = event.main
    · rw [isMain, update_self]
    · rw [update_of_ne isMain]
  refine ⟨new.id, ?_, ?_, ?_, ?_, ?_, ?_, ?_⟩
  · rw [conts, map_append]
    refine new.serials.append (nodup_singleton _) ?_
    intro serial isOld isNew
    obtain ⟨other, inside, rfl⟩ := mem_map.mp isOld
    have small := fresh other inside
    rw [mem_singleton.mp isNew] at small
    exact Nat.lt_irrefl _ small
  · intro other member old inside
    rw [conts, map_append]
    intro same
    rcases mem_append.mp same with isOld | isNew
    · exact new.apart other member old inside isOld
    · have small := apart other member old inside
      rw [mem_singleton.mp isNew] at small
      exact Nat.lt_irrefl _ small
  · rw [conts]
    intro other inside
    rcases mem_append.mp inside with isOld | isNew
    · exact new.bounded other isOld
    · rw [mem_singleton.mp isNew]
      exact bound
  · dsimp only
    rw [update_self]
    exact new.stored.id
  · dsimp only
    rw [kept]
    exact new.stored.hwe
  · dsimp only
    rw [update_self, map_append, new.stored.refnext]
    rfl
  · intro ext inside
    dsimp only
    rw [kept]
    rcases mem_append.mp inside with isOld | isNew
    · exact new.stored.exts ext isOld
    · rw [mem_singleton.mp isNew]
      exact isHwe

theorem Reading.fresh (reading : Reading exact state parsed g) :
    ∀ event ∈ g.seen, ∀ cont ∈ event.conts, cont.1 < parsed.count := by
  intro event member cont inside
  rw [← reading.count]
  exact reading.settled.inv.trace.bounded event member cont inside

/-- The next container belongs to another event, and the current one is
treated. -/
theorem Reading.finish {input : HweId × Container HweId}
    (reading : Reading exact state parsed g) (new : NewEvent state.1 g event)
    (distinct : ∀ other ∈ parsed.events ++ [event], other.id ≠ input.1)
    (spare : exact → Spare (parsed.events ++ [event]))
    (isRead : readEvent (storeContainer state.1 input.1 input.2) event.main = some later) :
    ∃ g', Reading exact (later, some parsed.count)
      ⟨parsed.events ++ [event],
        some ⟨input.1, parsed.count, input.2, []⟩, parsed.count + 1⟩ g' := by
  have stored := new.storeContainer input.1 input.2
  obtain ⟨bound, refs⟩ := readEvent_bound stored.stored isRead
  have settled := reading.settled.storeContainer input.1 input.2
  have spareSeen : exact → Spare (g.seen ++ [event]) := by
    rw [reading.seen]
    exact spare
  obtain ⟨other, g', isOther, treated, isSeen, kept⟩ :=
    settled.readEvent stored bound refs spareSeen
  cases Option.some.inj (isOther.symm.trans isRead)
  have nalloc : later.nalloc = parsed.count + 1 := by
    rw [kept.nalloc, ← reading.count]
    rfl
  refine ⟨g', treated, isSeen.trans (by rw [reading.seen]), nalloc, rfl, ?_⟩
  intro started isStarted _
  cases Option.some.inj isStarted
  refine NewEvent.begin ?_ ?_ ?_ ?_
  · apply kept.stored
    rw [← reading.count]
    exact storeContainer_stored state.1 input.1 input.2
  · rw [nalloc]
    exact Nat.lt_succ_self _
  · intro old member cont inside
    rw [isSeen] at member
    rcases mem_append.mp member with wasSeen | isEvent
    · exact reading.fresh old wasSeen cont inside
    · rw [mem_singleton.mp isEvent] at inside
      rw [← reading.count]
      exact new.bounded cont inside
  · intro old member
    rw [isSeen, reading.seen] at member
    exact distinct old member

/-- The next container is part of the current event. -/
theorem Reading.extend (reading : Reading exact state parsed g)
    (new : NewEvent state.1 g event) (input : HweId × Container HweId) :
    Reading exact
      ({ storeContainer state.1 input.1 input.2 with
        conts := update
          (storeContainer state.1 input.1 input.2).conts event.main
          { (storeContainer state.1 input.1 input.2).conts event.main with
            refnext := ((storeContainer state.1 input.1 input.2).conts
              event.main).refnext ++ [state.1.nalloc] } },
        some event.main)
      ⟨parsed.events,
        some { event with exts := event.exts ++ [(parsed.count, input.2)] },
        parsed.count + 1⟩ g := by
  have stored := new.storeContainer input.1 input.2
  have settled := reading.settled.storeContainer input.1 input.2
  refine ⟨?_, reading.seen, ?_, rfl, ?_⟩
  · apply settled.stored
    refine settled.inv.stored _ _ _ _ ?_ (Nat.le_refl _) rfl
    intro other member cont inside
    apply update_of_ne
    intro same
    apply new.apart other member cont inside
    rw [same]
    exact event.main_mem
  · exact congrArg (· + 1) reading.count
  · intro extended isExtended _
    cases Option.some.inj isExtended
    rw [← reading.count]
    apply stored.extend
    · exact (storeContainer_stored state.1 input.1 input.2).hwe
    · exact Nat.lt_succ_self _
    · exact new.bounded
    · rw [reading.count]
      exact reading.fresh

theorem Reading.next (reading : Reading exact state parsed g)
    (distinct : ((parsed.next input).all.map TraceEvent.id).Nodup)
    (before : (parsed.all.map TraceEvent.id).Nodup)
    (spare : exact → Spare (parsed.next input).events)
    (isNext : readNext state input = some later) :
    ∃ g', Reading exact later (parsed.next input) g' := by
  obtain ⟨ms, current⟩ := state
  obtain ⟨events, now, count⟩ := parsed
  have isCurrent := reading.current
  cases now with
  | none =>
    cases isCurrent
    have isLater := Option.some.inj isNext
    rw [← isLater]
    refine ⟨g, reading.settled.storeContainer input.1 input.2, reading.seen,
      congrArg (· + 1) reading.count, congrArg some reading.count, ?_⟩
    intro started isStarted distinct
    cases Option.some.inj isStarted
    refine NewEvent.begin ?_ ?_ reading.fresh distinct
    · rw [← reading.count]
      exact storeContainer_stored ms input.1 input.2
    · rw [← reading.count]
      exact Nat.lt_succ_self _
  | some event =>
    cases isCurrent
    have new : NewEvent ms g event := by
      apply reading.started event rfl
      rw [reading.seen]
      exact Parsed.distinct_current before rfl
    have isId : ((storeContainer ms input.1 input.2).conts event.main).id =
        event.id :=
      (new.storeContainer input.1 input.2).stored.id
    unfold readNext at isNext
    unfold Parsed.next at distinct spare ⊢
    dsimp only at isNext distinct spare ⊢
    split at isNext
    next sameId =>
      rw [if_pos (isId.symm.trans sameId), ← Option.some.inj isNext]
      exact ⟨g, reading.extend new input⟩
    next otherId =>
      rw [isId] at otherId
      rw [if_neg otherId] at distinct spare ⊢
      obtain ⟨treated, isTreated, rfl⟩ := Option.map_eq_some_iff.mp isNext
      rw [show ms.nalloc = count from reading.count]
      apply reading.finish new ?_ spare isTreated
      exact Parsed.distinct_current distinct rfl

/-- A component is in the array when its event, and all references of it, are
below the size. -/
def TraceEvent.Fits (ncomp : Nat) (event : TraceEvent) : Prop :=
  event.id.devid.toNat < ncomp ∧ ∀ id ∈ event.refs, id.devid.toNat < ncomp

theorem TraceEvent.Fits.mono {event : TraceEvent} (fits : event.Fits ncomp)
    (le : ncomp ≤ bigger) : event.Fits bigger :=
  ⟨Nat.lt_of_lt_of_le fits.1 le, fun id member =>
    Nat.lt_of_lt_of_le (fits.2 id member) le⟩

theorem TraceEvent.notes_id (event : TraceEvent) : event.notes.map Note.id = event.refs := by
  unfold TraceEvent.notes TraceEvent.refs
  rw [map_flatMap]
  apply flatMap_congr
  intro cont _
  rw [map_map]
  exact zipIdx_map_fst 0 _

theorem Settled.readEvent_fits (settled : Settled exact ms g)
    (new : NewEvent ms g event) (fits : event.Fits ms.ncomp)
    (spare : exact → Spare (g.seen ++ [event])) :
    ∃ later, Decopus.readEvent ms event.main = some later ∧ later.ncomp = ms.ncomp := by
  obtain ⟨later, _, isRead, -, -, kept⟩ :=
    settled.readEvent new fits.1 (fun note member => by
      apply fits.2
      rw [← event.notes_id]
      exact mem_map_of_mem member) spare
  exact ⟨later, isRead, kept.ncomp⟩

theorem storeContainer_ncomp (ms : Reader) (id : HweId) (hwe : Container HweId) :
    ms.ncomp ≤ (storeContainer ms id hwe).ncomp := by
  unfold storeContainer
  dsimp only
  split <;> omega

theorem Reading.next_fits (reading : Reading exact state parsed g)
    (before : (parsed.all.map TraceEvent.id).Nodup)
    (spare : exact → Spare (parsed.next input).events)
    (fits : ∀ event ∈ parsed.current, event.Fits state.1.ncomp) :
    ∃ later, readNext state input = some later ∧ state.1.ncomp ≤ later.1.ncomp := by
  obtain ⟨ms, current⟩ := state
  obtain ⟨events, now, count⟩ := parsed
  have isCurrent := reading.current
  have grows := storeContainer_ncomp ms input.1 input.2
  cases now with
  | none =>
    cases isCurrent
    exact ⟨_, rfl, grows⟩
  | some event =>
    cases isCurrent
    have new : NewEvent ms g event := by
      apply reading.started event rfl
      rw [reading.seen]
      exact Parsed.distinct_current before rfl
    have stored := new.storeContainer input.1 input.2
    unfold readNext
    unfold Parsed.next at spare
    dsimp only at spare ⊢
    rw [stored.stored.id]
    split
    · exact ⟨_, rfl, grows⟩
    next otherId =>
      rw [if_neg otherId] at spare
      obtain ⟨later, isRead, same⟩ :=
        (reading.settled.storeContainer input.1 input.2).readEvent_fits
          stored ((fits event rfl).mono grows) (by
            rw [reading.seen]
            exact spare)
      rw [isRead]
      exact ⟨_, rfl, same ▸ grows⟩

theorem Parsed.next_ids (parsed : Parsed) (input : HweId × Container HweId) :
    parsed.all.map TraceEvent.id <+: (parsed.next input).all.map TraceEvent.id := by
  obtain ⟨events, current, count⟩ := parsed
  unfold Parsed.next Parsed.all
  cases current with
  | none =>
    dsimp only
    rw [map_append, map_append]
    exact (prefix_append_right_inj _).mpr nil_prefix
  | some event =>
    dsimp only
    split
    · rw [map_append, map_append]
      exact prefix_rfl
    · rw [map_append, map_append, map_append]
      exact prefix_append _ _

theorem Parsed.next_events (parsed : Parsed) (input : HweId × Container HweId) :
    parsed.events <+: (parsed.next input).events := by
  obtain ⟨events, current, count⟩ := parsed
  unfold Parsed.next
  cases current with
  | none => exact prefix_rfl
  | some event =>
    dsimp only
    split
    · exact prefix_rfl
    · exact prefix_append _ _

theorem Parsed.run_ids (inputs : List (HweId × Container HweId)) :
    ∀ parsed : Parsed, parsed.all.map TraceEvent.id <+:
      (inputs.foldl Parsed.next parsed).all.map TraceEvent.id := by
  induction inputs with
  | nil => exact fun _ => prefix_rfl
  | cons input inputs ih =>
    intro parsed
    exact (parsed.next_ids input).trans (ih (parsed.next input))

theorem Parsed.run_events (inputs : List (HweId × Container HweId)) :
    ∀ parsed : Parsed, parsed.events <+: (inputs.foldl Parsed.next parsed).events := by
  induction inputs with
  | nil => exact fun _ => prefix_rfl
  | cons input inputs ih =>
    intro parsed
    exact (parsed.next_events input).trans (ih (parsed.next input))

theorem Spare.shorten (spare : Spare all) (isPrefix : events <+: all) : Spare events := by
  intro event member
  refine Nat.le_trans ?_ (spare event (isPrefix.subset member))
  apply List.Sublist.length_le
  apply List.Sublist.filter
  obtain ⟨rest, rfl⟩ := isPrefix
  rw [flatMap_append]
  exact sublist_append_left _ _

/-- The ids of a trace stay distinct, and the events before the current one
are spare, at every container. -/
theorem Parsed.step_sound
    (distinct : (((input :: inputs).foldl Parsed.next parsed).all.map TraceEvent.id).Nodup)
    (spare : exact → Spare ((input :: inputs).foldl Parsed.next parsed).all) :
    (parsed.all.map TraceEvent.id).Nodup ∧
      ((parsed.next input).all.map TraceEvent.id).Nodup ∧
      (exact → Spare (parsed.next input).events) := by
  refine ⟨?_, ?_, fun isExact => (spare isExact).shorten ?_⟩
  · exact distinct.sublist (Parsed.run_ids _ parsed).sublist
  · exact distinct.sublist (Parsed.run_ids inputs _).sublist
  · exact (Parsed.run_events inputs _).trans (prefix_append _ _)

theorem Reading.run (inputs : List (HweId × Container HweId)) :
    ∀ {state later : Reader × Option Nat} {parsed : Parsed} {g : Ghost},
      Reading exact state parsed g →
      ((inputs.foldl Parsed.next parsed).all.map TraceEvent.id).Nodup →
      (exact → Spare (inputs.foldl Parsed.next parsed).all) →
      inputs.foldlM readNext state = some later →
      ∃ g', Reading exact later (inputs.foldl Parsed.next parsed) g' := by
  induction inputs with
  | nil =>
    intro state later parsed g reading _ _ isLater
    cases Option.some.inj isLater
    exact ⟨g, reading⟩
  | cons input inputs ih =>
    intro state later parsed g reading distinct spare isLater
    obtain ⟨before, nextIds, nextSpare⟩ := Parsed.step_sound distinct spare
    rw [foldlM_cons] at isLater
    obtain ⟨between, isNext, rest⟩ := Option.bind_eq_some_iff.mp isLater
    obtain ⟨g', next⟩ := reading.next nextIds before nextSpare isNext
    exact ih next distinct spare rest

/-- The containers of a trace use components below a size. -/
def InputFits (ncomp : Nat) (input : HweId × Container HweId) : Prop :=
  input.1.devid.toNat < ncomp ∧ ∀ id ∈ input.2.refs, id.devid.toNat < ncomp

theorem Parsed.next_current_fits {parsed : Parsed}
    (fits : ∀ event ∈ parsed.current, event.Fits ncomp) (inputFits : InputFits ncomp input) :
    ∀ event ∈ (parsed.next input).current, event.Fits ncomp := by
  have starts : (⟨input.1, parsed.count, input.2, []⟩ : TraceEvent).Fits
      ncomp := by
    refine ⟨inputFits.1, ?_⟩
    intro id isRef
    unfold TraceEvent.refs TraceEvent.conts at isRef
    rw [flatMap_singleton] at isRef
    exact inputFits.2 id isRef
  obtain ⟨events, current, count⟩ := parsed
  intro event isEvent
  unfold Parsed.next at isEvent
  cases current with
  | none =>
    cases Option.some.inj isEvent
    exact starts
  | some before =>
    dsimp only at isEvent
    split at isEvent
    · cases Option.some.inj isEvent
      refine ⟨(fits before rfl).1, ?_⟩
      intro id isRef
      unfold TraceEvent.refs at isRef
      change id ∈ (before.conts ++ [(count, input.2)]).flatMap _ at isRef
      rw [flatMap_append, flatMap_singleton] at isRef
      rcases mem_append.mp isRef with isOld | isNew
      · exact (fits before rfl).2 id isOld
      · exact inputFits.2 id isNew
    · cases Option.some.inj isEvent
      exact starts

theorem Reading.run_fits (inputs : List (HweId × Container HweId)) :
    ∀ {state : Reader × Option Nat} {parsed : Parsed} {g : Ghost},
      Reading exact state parsed g →
      ((inputs.foldl Parsed.next parsed).all.map TraceEvent.id).Nodup →
      (exact → Spare (inputs.foldl Parsed.next parsed).all) →
      (∀ event ∈ parsed.current, event.Fits ncomp) →
      (∀ input ∈ inputs, InputFits ncomp input) → ncomp ≤ state.1.ncomp →
      ∃ later, inputs.foldlM readNext state = some later ∧
        ncomp ≤ later.1.ncomp ∧
        ∀ event ∈ (inputs.foldl Parsed.next parsed).current, event.Fits ncomp := by
  induction inputs with
  | nil =>
    intro state parsed g _ _ _ fits _ le
    exact ⟨state, rfl, le, fits⟩
  | cons input inputs ih =>
    intro state parsed g reading distinct spare fits inputFits le
    obtain ⟨before, nextIds, nextSpare⟩ := Parsed.step_sound distinct spare
    obtain ⟨between, isNext, grows⟩ := reading.next_fits before
      nextSpare fun event member => (fits event member).mono le
    obtain ⟨g', next⟩ := reading.next nextIds before nextSpare isNext
    obtain ⟨later, isLater, more⟩ := ih next distinct spare
      (Parsed.next_current_fits fits (inputFits input mem_cons_self))
      (fun other member => inputFits other (mem_cons_of_mem _ member))
      (Nat.le_trans le grows)
    refine ⟨later, ?_, more⟩
    rw [foldlM_cons, isNext]
    exact isLater

theorem Settled.alloc (settled : Settled exact ms g) :
    Settled exact { ms with
      nalloc := ms.nalloc + 1
      calls := ms.calls ++ [ReaderCall.alloc ⟨0, 0⟩] } g := by
  apply settled.stored
  refine settled.inv.stored ms.conts _ ms.ncomp _ (fun _ _ _ _ => rfl) (Nat.le_succ _) ?_
  unfold Reader.handled
  rw [filterMap_append]
  exact append_nil _

/-- The event that is read last, once a container is allocated. -/
theorem Reading.allocated (reading : Reading exact state parsed g)
    (distinct : (parsed.all.map TraceEvent.id).Nodup) (isCurrent : parsed.current = some event) :
    NewEvent { state.1 with
      nalloc := state.1.nalloc + 1
      calls := state.1.calls ++ [ReaderCall.alloc ⟨0, 0⟩] } g event := by
  have new := reading.started event isCurrent (by
    rw [reading.seen]
    exact Parsed.distinct_current distinct isCurrent)
  exact { new with
    bounded := fun cont inside => Nat.lt_succ_of_lt (new.bounded cont inside) }

section

variable (reading : Reading exact state parsed g)
  (distinct : (parsed.all.map TraceEvent.id).Nodup)
  (spare : exact → Spare parsed.all)

include reading distinct spare

theorem Reading.last (isLast : readLast state = some later) :
    ∃ g', Settled exact later g' ∧ g'.seen = parsed.all := by
  obtain ⟨ms, current⟩ := state
  obtain ⟨events, now, count⟩ := parsed
  have isCurrent := reading.current
  have settled := reading.settled.alloc
  cases now with
  | none =>
    cases isCurrent
    cases Option.some.inj isLast
    refine ⟨g, settled, reading.seen.trans ?_⟩
    exact (append_nil _).symm
  | some event =>
    cases isCurrent
    have allocated := reading.allocated distinct rfl
    obtain ⟨bound, refs⟩ := readEvent_bound allocated.stored isLast
    have seen : g.seen = events := reading.seen
    obtain ⟨other, g', isOther, treated, isSeen, -⟩ :=
      settled.readEvent allocated bound refs (by
        rw [seen]
        exact spare)
    cases Option.some.inj (isOther.symm.trans isLast)
    refine ⟨g', treated, isSeen.trans ?_⟩
    rw [seen]
    rfl

theorem Reading.last_fits (fits : ∀ event ∈ parsed.current, event.Fits state.1.ncomp) :
    (readLast state).isSome := by
  obtain ⟨ms, current⟩ := state
  obtain ⟨events, now, count⟩ := parsed
  have isCurrent := reading.current
  cases now with
  | none =>
    cases isCurrent
    rfl
  | some event =>
    cases isCurrent
    have allocated := reading.allocated distinct rfl
    have seen : g.seen = events := reading.seen
    obtain ⟨later, isRead, -⟩ :=
      reading.settled.alloc.readEvent_fits allocated (fits event rfl) (by
        rw [seen]
        exact spare)
    exact Option.isSome_of_eq_some isRead

end

/-- Nothing has been read. -/
def startGhost : Ghost where
  seen := []
  noted := []
  sent := 0
  place := fun _ => 0
  cur := none
  pend := []
  focus := none
  hot := none
  doomed := none

theorem reading_start : Reading exact (readerStart, none) ⟨[], none, 0⟩ startGhost := by
  have trace : ReaderTrace readerStart startGhost :=
    ⟨Nat.le_refl _, .nil, .nil, nofun, nofun, .nil, nofun, nofun⟩
  have nodes : ReaderNodes readerStart startGhost :=
    ⟨nofun, nofun, .nil, nofun, rfl, nofun, nofun, nofun, nofun⟩
  have waits : ReaderWaits readerStart startGhost := ⟨fun _ _ => rfl, nofun, fun _ => rfl⟩
  have counts : ReaderCounts readerStart startGhost :=
    ⟨nofun, nofun, fun _ _ => ⟨rfl, fun _ => rfl⟩⟩
  exact ⟨⟨⟨trace, nodes, waits, fun _ => counts, .nil⟩, rfl, rfl, rfl, rfl,
    rfl⟩, rfl, rfl, rfl, nofun⟩

/-- Each reference names an event, and each event is referenced as often as it
expects. -/
structure CountsExact (events : List TraceEvent) : Prop where
  named : ∀ id ∈ events.flatMap TraceEvent.refs,
    ∃ event ∈ events, event.id = id
  counted : ∀ event ∈ events,
    (events.flatMap TraceEvent.refs).count event.id = event.expected

theorem notes_count (events : List TraceEvent) (id : HweId) :
    ((events.flatMap TraceEvent.notes).filter fun note =>
      note.id = id).length = (events.flatMap TraceEvent.refs).count id := by
  have ids : (events.flatMap TraceEvent.notes).map Note.id = events.flatMap TraceEvent.refs := by
    rw [map_flatMap]
    apply flatMap_congr
    intro event _
    exact event.notes_id
  rw [← ids, count_eq_countP, countP_map, countP_eq_length_filter]
  congr 2

theorem CountsExact.spare (counts : CountsExact events) : Spare events := by
  intro event member
  rw [notes_count]
  exact Nat.le_of_eq (counts.counted event member)

theorem Settled.unsolved_known (settled : Settled exact ms g) {id : HweId}
    (found : p ∈ ms.trees id) (isMain : (ms.nodes p).hwe = some main) : g.unsolved ms id = [] := by
  have waiting := (settled.inv.nodes.node id p found).waits
  rw [Ghost.waiting_known isMain (settled.cur ▸ nofun)] at waiting
  exact map_eq_nil_iff.mp waiting.nil_eq.symm

theorem Settled.unsent_nil (settled : Settled exact ms g) (isExact : exact)
    (counts : CountsExact g.seen) : g.unsent = [] := by
  have inv := settled.inv
  cases isUnsent : g.unsent with
  | nil => rfl
  | cons event unsent =>
    have member : event ∈ g.unsent := isUnsent ▸ mem_cons_self
    obtain ⟨-, isState, missRef, -⟩ := inv.nodes.entry event member
    rw [settled.cur, if_neg nofun] at isState
    have isHead : g.place event.main ∈ ms.fifo.head? := by
      rw [inv.nodes.fifo, isUnsent]
      rfl
    have blocked := inv.nodes.hot _ isHead (settled.hot ▸ nofun)
    have owed : g.owed ms event.main ≠ [] := by
      intro nothing
      rw [nothing] at missRef
      exact blocked ⟨isState, missRef⟩
    obtain ⟨note, isOwed⟩ := exists_mem_of_ne_nil _ owed
    obtain ⟨isNoted, test⟩ := mem_filter.mp isOwed
    rw [Bool.and_eq_true] at test
    have isOpen : OpenNote ms g note := ⟨isNoted, Option.isNone_iff_eq_none.mp test.2⟩
    have waits : note ∈ g.unsolved ms note.id := isOpen.mem_unsolved.mpr rfl
    have isRef : note.id ∈ g.seen.flatMap TraceEvent.refs := by
      rw [settled.noted] at isNoted
      obtain ⟨owner, isSeen, inside⟩ := mem_flatMap.mp isNoted
      apply mem_flatMap_of_mem isSeen
      rw [← owner.notes_id]
      exact mem_map_of_mem inside
    obtain ⟨target, isTarget, targetId⟩ := counts.named note.id isRef
    cases isTree : ms.trees note.id with
    | none =>
      rw [inv.waits.absent note.id isTree] at waits
      cases waits
    | some p =>
      have found : p ∈ ms.trees target.id := targetId ▸ isTree
      have isMain := ((inv.counts isExact).node target.id p found).present target isTarget rfl
      rw [settled.unsolved_known isTree isMain] at waits
      cases waits

theorem Settled.trees_none (settled : Settled exact ms g) (isExact : exact)
    (counts : CountsExact g.seen) (id : HweId) : ms.trees id = none := by
  have inv := settled.inv
  have exactCounts := inv.counts isExact
  cases isTree : ms.trees id with
  | none => rfl
  | some p =>
    exfalso
    by_cases isRead : ∃ event ∈ g.seen, event.id = id
    · obtain ⟨event, member, rfl⟩ := isRead
      have fits := exactCounts.node event.id p isTree
      have isMain := fits.present event member rfl
      have missExp := fits.missExp event member rfl
      have unsolved := settled.unsolved_known isTree isMain
      have total := g.closed_add_unsolved ms event.id
      rw [unsolved, settled.noted, notes_count, counts.counted event member, length_nil] at total
      refine fits.kept event member rfl ?_ (settled.doomed ▸ nofun) ?_
      · rw [settled.unsent_nil isExact counts]
        exact not_mem_nil
      · omega
    · have isNew : ∀ event ∈ g.seen, event.id ≠ id :=
        fun event member same => isRead ⟨event, member, same⟩
      obtain ⟨note, isNoted, isId⟩ :=
        (exactCounts.node id p isTree).noted isNew (settled.focus ▸ nofun)
      rw [settled.noted] at isNoted
      obtain ⟨owner, isSeen, inside⟩ := mem_flatMap.mp isNoted
      apply isRead
      apply counts.named
      apply mem_flatMap_of_mem isSeen
      rw [← owner.notes_id, ← isId]
      exact mem_map_of_mem inside

/-- What the reader has done at the end of a trace. -/
theorem readerMain_settled (distinct : ((traceEvents inputs).map TraceEvent.id).Nodup)
    (isMain : readerMain inputs = some ms) :
    ∃ g, Settled (CountsExact (traceEvents inputs)) ms g ∧ g.seen = traceEvents inputs := by
  obtain ⟨state, isState, isLast⟩ := Option.bind_eq_some_iff.mp isMain
  have spare : CountsExact (traceEvents inputs) → Spare (traceEvents inputs) := CountsExact.spare
  obtain ⟨g, reading⟩ := Reading.run inputs reading_start distinct spare isState
  exact reading.last distinct spare isLast

theorem readerMain_some (distinct : ((traceEvents inputs).map TraceEvent.id).Nodup)
    (fits : ∀ input ∈ inputs, InputFits readerStart.ncomp input) :
    (readerMain inputs).isSome := by
  have spare : CountsExact (traceEvents inputs) → Spare (traceEvents inputs) := CountsExact.spare
  obtain ⟨state, isState, le, current⟩ :=
    Reading.run_fits inputs reading_start distinct spare nofun fits (Nat.le_refl _)
  obtain ⟨g, reading⟩ := Reading.run inputs reading_start distinct spare isState
  unfold readerMain
  rw [isState]
  exact reading.last_fits distinct spare fun event member =>
    (current event member).mono le

/-- A trace is read to its end if its components are in the array.  The events
are handed over once, in the order of the file and with their references
solved, and if the counts are exact all of them are, with no node left. -/
theorem reader_delivers (inputs : List (HweId × Container HweId))
    (distinct : ((traceEvents inputs).map TraceEvent.id).Nodup) :
    ((∀ input ∈ inputs, InputFits readerStart.ncomp input) → (readerMain inputs).isSome) ∧
    ∀ ms ∈ readerMain inputs, ∃ sent ≤ (traceEvents inputs).length,
      List.Forall₂ (Delivered (traceEvents inputs)) ((traceEvents inputs).take sent) ms.handled ∧
      (CountsExact (traceEvents inputs) →
        sent = (traceEvents inputs).length ∧ ∀ id, ms.trees id = none) := by
  refine ⟨readerMain_some distinct, ?_⟩
  intro ms isMain
  obtain ⟨g, settled, isSeen⟩ := readerMain_settled distinct isMain
  have bound := settled.inv.trace.sent
  have log := settled.inv.log
  rw [isSeen] at bound log
  refine ⟨g.sent, bound, log, fun counts => ?_⟩
  have seenCounts : CountsExact g.seen := isSeen ▸ counts
  refine ⟨?_, settled.trees_none counts seenCounts⟩
  have nothing := settled.unsent_nil counts seenCounts
  unfold Ghost.unsent at nothing
  have long := drop_eq_nil_iff.mp nothing
  rw [isSeen] at long
  exact Nat.le_antisymm bound long

/-- Two events that refer to each other, the first in two containers. -/
def crossTrace : List (HweId × Container HweId) :=
  [(⟨0, 1⟩, { (Container.empty : Container HweId) with expected := 1 }),
    (⟨0, 1⟩, { (Container.empty : Container HweId) with
      refs := [⟨1, 1⟩], refsFit := by decide }),
    (⟨1, 1⟩, { (Container.empty : Container HweId) with
      expected := 1, refs := [⟨0, 1⟩], refsFit := by decide })]

theorem crossTrace_exact : CountsExact (traceEvents crossTrace) :=
  ⟨by decide, by decide⟩

theorem reader_delivers_cross :
    ∃ ms ∈ readerMain crossTrace, ms.handled.length = 2 ∧ ∀ id, ms.trees id = none := by
  obtain ⟨total, delivered⟩ := reader_delivers crossTrace (by decide)
  have fits : ∀ input ∈ crossTrace, InputFits readerStart.ncomp input := by
    unfold InputFits
    decide
  obtain ⟨ms, isMain⟩ := Option.isSome_iff_exists.mp (total fits)
  obtain ⟨sent, -, log, complete⟩ := delivered ms isMain
  obtain ⟨isSent, noNode⟩ := complete crossTrace_exact
  refine ⟨ms, isMain, ?_, noNode⟩
  rw [← log.length_eq, isSent, take_length]
  decide

/-- One event that names an event which the trace does not have. -/
def danglingTrace : List (HweId × Container HweId) :=
  [(⟨0, 1⟩, { (Container.empty : Container HweId) with refs := [⟨0, 2⟩], refsFit := by decide })]

/-- Every event is referenced as often as it expects, and none is handed over. -/
theorem dangling_not_delivered :
    ((traceEvents danglingTrace).map TraceEvent.id).Nodup ∧
      (∀ input ∈ danglingTrace, InputFits readerStart.ncomp input) ∧
      (∀ event ∈ traceEvents danglingTrace,
        ((traceEvents danglingTrace).flatMap TraceEvent.refs).count event.id = event.expected) ∧
      ∃ ms ∈ readerMain danglingTrace, ms.handled = [] := by
  refine ⟨by decide, ?_, by decide, _, rfl, rfl⟩
  unfold InputFits
  decide

end

end Reverse.Decopus
