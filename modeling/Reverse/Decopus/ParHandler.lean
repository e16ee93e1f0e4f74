import Reverse.Decopus.ParTracer

/-!
# The steps of the handler

Each step of the thread of the handler keeps the order of the events and the
owners of the buffers and of the containers.
-/

namespace Reverse.Decopus

open List hiding head

section

variable {δ : Type} {cfg : ParConfig} {par : Hwepar δ} {tracer handler : Nat}
  {loc : ContPtr → ContLoc} {rest : List (ParEvent δ)} {begun : Prop}

theorem cleanAt_setHandler {place : HandlerAt}
    (less : HandlerClean cfg place (par.buffers (handler % cfg.nbbuf)).emptyIdx i →
      HandlerClean cfg par.handler (par.buffers (handler % cfg.nbbuf)).emptyIdx i)
    (clean : CleanAt cfg { par with handler := place } tracer handler k i) :
    CleanAt cfg par tracer handler k i := by
  unfold CleanAt at clean ⊢
  by_cases isTracer : k = tracer
  · rw [if_pos isTracer] at clean ⊢
    exact clean
  · rw [if_neg isTracer] at clean ⊢
    by_cases before : k < handler
    · rw [if_pos before] at clean ⊢
      exact clean
    · rw [if_neg before] at clean ⊢
      by_cases isHandler : k = handler
      · rw [if_pos isHandler, isHandler] at clean ⊢
        exact less clean
      · rw [if_neg isHandler] at clean ⊢
        exact clean

theorem ParInv.setHandler {place : HandlerAt} (inv : ParInv cfg par tracer handler loc rest begun)
    (busy : place ≠ .sync → 0 < place.todo) (todo : handler + place.todo ≤ tracer + cfg.nbbuf)
    (fits : HandlerFits cfg { par with handler := place } handler)
    (clean : ∀ i, HandlerClean cfg place (par.buffers (handler % cfg.nbbuf)).emptyIdx i →
      HandlerClean cfg par.handler (par.buffers (handler % cfg.nbbuf)).emptyIdx i)
    (order : place ≠ .done →
      handlerCells cfg { par with handler := place } tracer handler ++
        tracerCells cfg par tracer = rest.map eventHead ++ if par.tracer.ends then [none] else [])
    (finished : place = .done → rest = [] ∧ (par.tracer = .run .flush ∨ par.tracer = .joining)) :
    ParInv cfg { par with handler := place } tracer handler loc rest begun := by
  obtain ⟨places, bounds, owned, flow, logged⟩ := inv
  refine ⟨{ places with busy := busy, todo := todo },
    { bounds with handlerFits := fits }, ?_,
    { flow with order := order, finished := finished }, { logged with }⟩
  refine { owned with clean := fun k i low high small isClean => ?_ }
  apply owned.clean k i low high small
  exact cleanAt_setHandler (clean i) isClean

theorem dirtyCells_pos (cfg : ParConfig) (buffers : Nat → ParBuffer) (less : k < high) :
    dirtyCells cfg buffers k (high - k) =
      fullCells (buffers (k % cfg.nbbuf)) ++ dirtyCells cfg buffers (k + 1) (high - (k + 1)) := by
  unfold dirtyCells
  rw [show high - k = high - (k + 1) + 1 by omega, List.range'_succ, flatMap_cons]

theorem ParInv.handlerSync (inv : ParInv cfg par tracer handler loc rest begun)
    (isAt : par.handler = .sync) (dirty : 0 < hweparHandlerSync cfg par) :
    ParInv cfg { par with handler := .buffer (hweparHandlerSync cfg par) }
      tracer handler loc rest begun := by
  have within := inv.places.le
  have count := inv.places.handler_count
  have order := inv.flow.order (isAt ▸ nofun)
  unfold handlerCells at order
  rw [isAt] at order
  apply inv.setHandler
  · exact fun _ => dirty
  · change handler + hweparHandlerSync cfg par ≤ _
    omega
  · trivial
  · rw [isAt]
    exact fun _ => id
  · exact fun _ => order
  · exact nofun

theorem ParInv.buffer (inv : ParInv cfg par tracer handler loc rest begun)
    (isAt : par.handler = .buffer todo) :
    ParInv cfg { par with
      handler := .handle todo ((par.buffers par.handlerBuf).fullIdx + 1)
        ((par.buffers par.handlerBuf).emptyIdx + 1) 0 } tracer handler loc rest
          begun := by
  have inside := inv.places.inside (isAt ▸ nofun)
  have busy := inv.places.busy (isAt ▸ nofun)
  have count := inv.places.todo
  have low := (inv.bounds.dirty handler (Nat.le_refl _) inside).low
  have order := inv.flow.order (isAt ▸ nofun)
  unfold handlerCells at order
  rw [isAt] at busy count order
  apply inv.setHandler
  · exact fun _ => busy
  · exact count
  · refine ⟨inv.places.handlerBuf ▸ rfl, inv.places.handlerBuf ▸ rfl, ?_⟩
    rw [inv.places.handlerBuf]
    omega
  · rw [isAt]
    exact fun _ => id
  · intro _
    rw [dirtyCells_pos cfg par.buffers inside] at order
    exact order
  · exact nofun

theorem Flow.first (flow : Flow cfg par tracer handler loc rest)
    (order : cont :: cells = rest.map eventHead ++ if par.tracer.ends then [none] else []) :
    (∃ head later, cont = some head ∧ rest = eventAt par.memory head :: later) ∨
      (cont = none ∧ rest = [] ∧ cells = [] ∧ par.tracer.ends = true) := by
  cases isRest : rest with
  | nil =>
    right
    rw [isRest] at order
    split at order
    · rename_i ends
      cases order
      exact ⟨rfl, rfl, rfl, ends⟩
    · cases order
  | cons event later =>
    left
    obtain ⟨head, isEvent, -, -⟩ := flow.stored 0 event (isRest ▸ rfl)
    rw [isRest] at order
    injection order with isCont _
    refine ⟨head, later, ?_, ?_⟩
    · rw [isCont, isEvent]
      rfl
    · rw [isEvent]

theorem tracer_ended (fits : TracerFits cfg par tracer) (ends : par.tracer.ends = true)
    (noCells : tracerCells cfg par tracer = []) :
    par.tracer = .run .flush ∨ par.tracer = .joining := by
  unfold tracerCells at noCells
  rw [append_eq_nil_iff, map_eq_nil_iff, range_eq_nil] at noCells
  obtain ⟨noFull, noMore⟩ := noCells
  have empty : ¬0 ≤ par.fullIdx := by omega
  unfold TracerFits at fits
  have isFlush : ∀ job, par.tracer.job = some job → job = .flush := by
    intro job isJob
    unfold TracerAt.cells at noMore
    unfold TracerAt.ends at ends
    rw [isJob] at noMore ends
    cases job with
    | alloc event =>
      have joins : par.tracer = .joining := by
        simpa [ParJob.ends] using ends
      rw [joins] at isJob
      cases isJob
    | handle cont => cases noMore
    | flush => rfl
  cases place : par.tracer with
  | idle =>
    rw [place] at ends
    cases ends
  | switch job =>
    rw [place] at fits
    exact absurd (fits (isFlush job (place ▸ rfl))) empty
  | sync job | newbuffer job =>
    rw [place] at fits
    exact absurd (fits.1 (isFlush job (place ▸ rfl))) empty
  | run job =>
    rw [isFlush job (place ▸ rfl)]
    exact Or.inl rfl
  | joining => exact Or.inr rfl
  | crashed =>
    rw [place] at fits
    exact fits.elim

section

variable (inv : ParInv cfg par tracer handler loc rest begun)
  (isAt : par.handler = .handle todo fidx eidx i)

include inv isAt

theorem ParInv.next_cell (more : (i : Int) < fidx) :
    (par.buffers par.handlerBuf).array i ::
      (handlerCells cfg { par with handler := .handle todo fidx eidx (i + 1) }
        tracer handler ++ tracerCells cfg par tracer) =
          rest.map eventHead ++ if par.tracer.ends then [none] else [] := by
  have order := inv.flow.order (isAt ▸ nofun)
  have fits := inv.bounds.handlerFits
  unfold HandlerFits at fits
  unfold handlerCells at order ⊢
  rw [isAt] at fits order
  dsimp only at fits order
  have index : i < (fullCells (par.buffers (handler % cfg.nbbuf))).length := by
    unfold fullCells
    rw [length_map, length_range]
    omega
  have isCell : (fullCells (par.buffers (handler % cfg.nbbuf)))[i] =
      (par.buffers (handler % cfg.nbbuf)).array i := by
    simp [fullCells]
  rw [drop_eq_getElem_cons index, isCell] at order
  rw [← order, inv.places.handlerBuf]
  simp only [cons_append, append_assoc]

theorem ParInv.handled (finished : fidx ≤ (i : Int)) :
    ParInv cfg { par with handler := .refill todo eidx cfg.bufstart } tracer
      handler loc rest begun := by
  have inside := inv.places.inside (isAt ▸ nofun)
  have busy := inv.places.busy (isAt ▸ nofun)
  have count := inv.places.todo
  have start := (inv.bounds.dirty handler (Nat.le_refl _) inside).start
  have order := inv.flow.order (isAt ▸ nofun)
  have fits := inv.bounds.handlerFits
  unfold HandlerFits at fits
  unfold handlerCells at order
  rw [isAt] at busy count order fits
  dsimp only at order fits
  have noCells : (fullCells (par.buffers (handler % cfg.nbbuf))).drop i = [] := by
    apply drop_eq_nil_of_le
    unfold fullCells
    rw [length_map, length_range]
    omega
  apply inv.setHandler
  · exact fun _ => busy
  · exact count
  · refine ⟨fits.2.1, Nat.le_refl _, ?_⟩
    omega
  · rw [isAt]
    rintro j (⟨above, below⟩ | clean)
    · omega
    · change _ < _
      omega
  · intro _
    rw [noCells] at order
    exact order
  · exact nofun

theorem ParInv.finish (more : (i : Int) < fidx)
    (isMarker : (par.buffers par.handlerBuf).array i = none) :
    ParInv cfg { par with handler := .done } tracer handler loc rest
      begun := by
  have order := inv.next_cell isAt more
  have busy := inv.places.busy (isAt ▸ nofun)
  have count := inv.places.todo
  rw [isMarker] at order
  rw [isAt] at busy count
  rcases inv.flow.first order with ⟨head, later, isSome, -⟩ | last
  · cases isSome
  · obtain ⟨-, noEvents, noCells, ends⟩ := last
    apply inv.setHandler
    · exact fun _ => Nat.zero_lt_one
    · exact Nat.le_trans (Nat.add_le_add_left busy handler) count
    · trivial
    · rw [isAt]
      exact fun _ => id
    · exact fun notDone => absurd rfl notDone
    · intro _
      refine ⟨noEvents, ?_⟩
      exact tracer_ended inv.bounds.tracerFits ends (append_eq_nil_iff.mp noCells).2

theorem ParInv.receive (more : (i : Int) < fidx)
    (isHead : (par.buffers par.handlerBuf).array i = some head) :
    ∃ loc rest, ParInv cfg { hweparReceive par head with
      handler := .handle todo fidx eidx (i + 1) } tracer handler loc rest
        begun := by
  have order := inv.next_cell isAt more
  rw [isHead] at order
  rcases inv.flow.first order with ⟨found, later, isSome, isRest⟩ | last
  · cases isSome
    obtain ⟨places, bounds, owned, flow, logged⟩ := inv
    have fits := bounds.handlerFits
    have busy := places.busy (isAt ▸ nofun)
    have count := places.todo
    unfold HandlerFits at fits
    rw [isAt] at fits busy count
    obtain ⟨found, isEvent, nodup, all⟩ :=
      flow.stored 0 (eventAt par.memory head) (by rw [isRest]; rfl)
    injection isEvent with sameHead _
    injection sameHead with isFound _
    rw [← isFound] at nodup all
    refine ⟨relocate loc (head :: (par.memory head).exts) .handler, later, ?_, ?_, ?_, ?_, ?_⟩
    · exact { places with busy := fun _ => busy, todo := count }
    · refine { bounds with handlerFits := ⟨fits.1, fits.2.1, ?_⟩ }
      omega
    · constructor
      · intro k j low high small clean
        have wasClean : CleanAt cfg par tracer handler k j := by
          refine cleanAt_setHandler ?_ clean
          rw [isAt]
          exact id
        obtain ⟨cont, isCell, isLoc, empty⟩ := owned.clean k j low high small wasClean
        exact ⟨cont, isCell, relocate_stays all isLoc nofun, empty⟩
      · intro cont member
        rcases mem_append.mp member with new | old
        · refine ⟨relocate_mem new, ?_⟩
          by_contra unused
          have isLoc := owned.fresh cont (Nat.le_of_not_lt unused)
          rw [all cont new] at isLoc
          cases isLoc
        · obtain ⟨isLoc, used⟩ := owned.pool cont old
          exact ⟨relocate_stays all isLoc nofun, used⟩
      · refine nodup.append owned.poolNodup ?_
        intro cont new old
        have isLoc := (owned.pool cont old).1
        rw [all cont new] at isLoc
        cases isLoc
      · exact fun cont unused =>
          relocate_stays all (owned.fresh cont unused) nofun
      · intro other member
        obtain ⟨distinct, placed⟩ := owned.opened other member
        exact ⟨distinct, fun cont inside =>
          relocate_stays all (placed cont inside) nofun⟩
      · exact owned.openedNodup
      · exact owned.extended
    · refine ⟨?_, ?_, ?_, nofun⟩
      · change par.committed = (par.received ++ [eventAt par.memory head]) ++ _
        rw [flow.committed, isRest, append_assoc]
        rfl
      · intro n event isLater
        obtain ⟨other, isOther, distinct, placed⟩ :=
          flow.stored (n + 1) event (by
            rw [isRest, List.getElem?_cons_succ]
            exact isLater)
        refine ⟨other, isOther, distinct, fun cont inside => ?_⟩
        have isLoc := placed cont inside
        have apart : ContLoc.sent (par.received.length + (n + 1)) ≠
            .sent (par.received.length + 0) := by
          intro same
          injection same with same
          omega
        refine (relocate_stays all isLoc apart).trans ?_
        change _ = ContLoc.sent ((par.received ++ [eventAt par.memory head]).length + n)
        rw [length_append, length_singleton, Nat.add_assoc, Nat.add_comm n 1]
      · intro _
        rw [isRest] at order
        injection order
    · have moved := logged.move all (fun _ _ => nofun)
        (show ∀ b j, ContLoc.handler ≠ .cell b j from fun _ _ => nofun)
      exact { moved with }
  · cases last.1

end

theorem tracerFits_congr (same : later.buffers (tracer % cfg.nbbuf) =
      par.buffers (tracer % cfg.nbbuf)) (isAt : later.tracer = par.tracer)
    (isArray : later.array = par.array) (empty : later.emptyIdx = par.emptyIdx)
    (full : later.fullIdx = par.fullIdx) (fits : TracerFits cfg par tracer) :
    TracerFits cfg later tracer := by
  unfold TracerFits at fits ⊢
  rw [isAt, isArray, empty, full, same]
  exact fits

section

variable (inv : ParInv cfg par tracer handler loc rest begun)

include inv

theorem ParInv.handleAlloc (isAlloc : handleAlloc par choice = some (cont, later)) :
    ParInv cfg later tracer handler loc rest begun ∧ loc cont = .handler ∧
      cont ∉ later.pool ∧ cont < later.fresh := by
  obtain ⟨places, bounds, owned, flow, logged⟩ := inv
  unfold Decopus.handleAlloc at isAlloc
  cases choice with
  | none =>
    cases isAlloc
    refine ⟨⟨{ places with }, { bounds with }, { owned with
        pool := fun cont member => ?_
        fresh := fun cont unused => ?_ }, { flow with },
      { logged with }⟩, ?_, ?_, ?_⟩
    · obtain ⟨isLoc, used⟩ := owned.pool cont member
      exact ⟨isLoc, Nat.lt_succ_of_lt used⟩
    · exact owned.fresh cont (Nat.le_of_succ_le unused)
    · exact owned.fresh par.fresh (Nat.le_refl _)
    · intro member
      exact Nat.lt_irrefl _ (owned.pool par.fresh member).2
    · exact Nat.lt_succ_self _
  | some found =>
    dsimp only at isAlloc
    split at isAlloc
    · rename_i member
      cases isAlloc
      refine ⟨⟨{ places with }, { bounds with }, { owned with
          pool := fun cont member => ?_
          poolNodup := owned.poolNodup.erase _ }, { flow with },
        { logged with }⟩, ?_, ?_, ?_⟩
      · exact owned.pool cont (mem_of_mem_erase member)
      · exact (owned.pool cont member).1
      · exact owned.poolNodup.not_mem_erase
      · exact (owned.pool cont member).2
    · cases isAlloc

theorem ParInv.give (isAt : par.handler = .refill todo eidx i)
    (more : (i : Int) < eidx) (isLoc : loc cont = .handler)
    (notPool : cont ∉ par.pool) (used : cont < par.fresh) (noExts : (par.memory cont).exts = []) :
    ParInv cfg { par.setCell par.handlerBuf i (some cont) with
      log := par.log ++ [ParTransfer.give cont]
      handler := .refill todo eidx (i + 1) } tracer handler
        (relocate loc [cont] (.cell (handler % cfg.nbbuf) i)) rest begun := by
  obtain ⟨places, bounds, owned, flow, logged⟩ := inv
  have fits := bounds.handlerFits
  have busy := places.busy (isAt ▸ nofun)
  have count := places.todo
  have inside := places.inside (isAt ▸ nofun)
  have ahead := places.ahead
  have order := flow.order (isAt ▸ nofun)
  unfold HandlerFits at fits
  unfold handlerCells at order
  rw [isAt] at fits busy count order
  dsimp only at fits order
  rw [places.handlerBuf]
  obtain ⟨sameBounds, sameCell, sameBuffer, isCell⟩ :=
    setCell_buffers par (handler % cfg.nbbuf) i (some cont)
  have apart : ∀ k, tracer ≤ k → k < tracer + cfg.nbbuf → k ≠ handler →
      k % cfg.nbbuf ≠ handler % cfg.nbbuf := by
    intro k low high differ
    rcases Nat.lt_or_gt_of_ne differ with before | after
    · exact Cyclic.mod_ne low before inside
    · exact (Cyclic.mod_ne (Nat.le_of_lt ahead) after high).symm
  have sameTracer := sameBuffer (tracer % cfg.nbbuf)
    (apart tracer (Nat.le_refl _) (Nat.lt_trans ahead inside) (Nat.ne_of_lt ahead))
  have tracerFits : TracerFits cfg (par.setCell (handler % cfg.nbbuf) i (some cont)) tracer :=
    tracerFits_congr sameTracer rfl rfl rfl rfl bounds.tracerFits
  have all : ∀ other ∈ [cont], loc other = .handler := by
    intro other member
    rw [mem_singleton.mp member]
    exact isLoc
  have stays : ∀ other, other ≠ cont →
      relocate loc [cont] (.cell (handler % cfg.nbbuf) i) other = loc other :=
    fun other differ => if_neg (mt mem_singleton.mp differ)
  refine ⟨?_, ?_, ?_, ?_, ?_⟩
  · exact { places with busy := fun _ => busy, todo := count }
  · refine { bounds with
      dirty := fun k low high => ?_
      tracerFits := tracerFits
      handlerFits := ⟨?_, ?_, ?_⟩ }
    · obtain ⟨sameEmpty, sameFull⟩ := sameBounds (k % cfg.nbbuf)
      have old := bounds.dirty k low high
      rw [← sameEmpty, ← sameFull] at old
      exact old
    · rw [fits.1, ← (sameBounds _).1]
    · exact Nat.le_succ_of_le fits.2.1
    · omega
  · constructor
    · intro k j low high small clean
      have old : (k ≠ handler ∨ j ≠ i) →
          CleanAt cfg par tracer handler k j →
          ∃ other, ((par.setCell (handler % cfg.nbbuf) i (some cont)).buffers
              (k % cfg.nbbuf)).array j = some other ∧
            relocate loc [cont] (.cell (handler % cfg.nbbuf) i) other =
              .cell (k % cfg.nbbuf) j ∧ (par.memory other).exts = [] := by
        intro differ wasClean
        obtain ⟨other, isOther, isPlace, empty⟩ := owned.clean k j low high small wasClean
        refine ⟨other, Eq.trans (sameCell (k % cfg.nbbuf) j ?_) isOther,
          relocate_stays all isPlace nofun, empty⟩
        exact differ.imp (apart k low high) id
      by_cases isHandler : k = handler
      · by_cases isCellHere : j = i
        · rw [isHandler, isCellHere]
          exact ⟨cont, isCell, relocate_mem mem_cons_self, noExts⟩
        · apply old (Or.inr isCellHere)
          unfold CleanAt at clean ⊢
          rw [if_neg (by omega), if_neg (by omega), if_pos isHandler] at clean ⊢
          rw [isAt]
          rcases clean with ⟨above, below⟩ | above
          · exact Or.inl ⟨above, by omega⟩
          · exact Or.inr above
      · apply old (Or.inl isHandler)
        unfold CleanAt at clean ⊢
        rw [if_neg isHandler] at clean ⊢
        rw [← (sameBounds (k % cfg.nbbuf)).1]
        exact clean
    · intro other member
      obtain ⟨isPlace, old⟩ := owned.pool other member
      refine ⟨(stays other ?_).trans isPlace, old⟩
      rintro rfl
      exact notPool member
    · exact owned.poolNodup
    · intro other unused
      refine (stays other ?_).trans (owned.fresh other unused)
      rintro rfl
      exact Nat.not_lt_of_le unused used
    · intro head member
      obtain ⟨distinct, placed⟩ := owned.opened head member
      exact ⟨distinct, fun other within =>
        relocate_stays all (placed other within) nofun⟩
    · exact owned.openedNodup
    · exact owned.extended
  · refine { flow with
      stored := flow.stored_congr fun other n isSent => ?_
      order := fun _ => ?_
      finished := nofun }
    · exact ⟨relocate_stays all isSent nofun, rfl⟩
    · unfold tracerCells at order ⊢
      refine Eq.trans (congrArg₂ (· ++ ·) ?_ ?_) order
      · apply dirtyCells_congr
        intro k low high
        exact sameBuffer _ (apart k (by omega) (by omega) (by omega))
      · exact congrArg (fun buffer : ParBuffer =>
          (List.range (par.fullIdx + 1).toNat).map buffer.array ++ par.tracer.cells) sameTracer
  · have given : Logged
        { par with log := par.log ++ [ParTransfer.give cont] }
        (relocate loc [cont] (.cell (handler % cfg.nbbuf) i)) :=
      logged.concat (.give cont) nofun ⟨fun _ => rfl, fun _ => ⟨_, _, rfl⟩⟩
    exact { given with }

theorem ParInv.refillStep (step : refillStep par choice = some later) :
    ∃ loc, ParInv cfg later tracer handler loc rest begun := by
  unfold Decopus.refillStep at step
  split at step
  · rename_i todo eidx i isAt
    split at step
    · rename_i more
      obtain ⟨⟨cont, found⟩, isAlloc, isLater⟩ := Option.map_eq_some_iff.mp step
      obtain ⟨allocated, isLoc, notPool, used⟩ := inv.handleAlloc isAlloc
      have same : found.handler = par.handler := by
        unfold Decopus.handleAlloc at isAlloc
        split at isAlloc
        · cases isAlloc
          rfl
        · split at isAlloc
          · cases isAlloc
            rfl
          · cases isAlloc
      have emptied : ParInv cfg (found.setCont cont
          { found.memory cont with exts := [] }) tracer handler loc rest
            begun := by
        apply allocated.setCont
        · exact fun _ _ => isLoc ▸ nofun
        · exact fun _ => isLoc ▸ nofun
        · intro head isOpened
          rw [isLoc] at isOpened
          cases isOpened
      rw [← isLater]
      refine ⟨_, emptied.give (same.trans isAt) more isLoc notPool used ?_⟩
      change (Function.update found.memory cont _ cont).exts = []
      rw [Function.update_self]
    · cases step
  · cases step

end

theorem ParInv.refilled (inv : ParInv cfg par tracer handler loc rest begun)
    (isAt : par.handler = .refill todo eidx i) (finished : eidx ≤ (i : Int)) :
    ParInv cfg { par with handler := .next todo } tracer handler loc rest
      begun := by
  have busy := inv.places.busy (isAt ▸ nofun)
  have count := inv.places.todo
  have order := inv.flow.order (isAt ▸ nofun)
  unfold handlerCells at order
  rw [isAt] at busy count order
  apply inv.setHandler
  · exact fun _ => busy
  · exact count
  · trivial
  · rw [isAt]
    intro j above
    change cfg.bufstart ≤ j at above
    change (cfg.bufstart ≤ j ∧ j < i) ∨ eidx ≤ j
    omega
  · exact fun _ => order
  · exact nofun

theorem tracerReady_mono (ready : TracerReady cfg par tracer handler) (less : handler ≤ later) :
    TracerReady cfg par tracer later := by
  have raise : ∀ {low : Nat} {index positive : Prop},
      index ∧ positive ∧ low ≤ handler → index ∧ positive ∧ low ≤ later :=
    fun known => ⟨known.1, known.2.1, Nat.le_trans known.2.2 less⟩
  unfold TracerReady at ready ⊢
  cases place : par.tracer <;> rw [place] at ready <;> first | exact ready | exact raise ready

theorem ParInv.next (inv : ParInv cfg par tracer handler loc rest begun)
    (isAt : par.handler = .next todo) :
    ParInv cfg (hweparNext cfg par todo) tracer (handler + 1) loc rest
      begun := by
  obtain ⟨places, bounds, owned, flow, logged⟩ := inv
  have busy := places.busy (isAt ▸ nofun)
  have count := places.todo
  have ahead := places.ahead
  have order := flow.order (isAt ▸ nofun)
  unfold handlerCells at order
  rw [isAt] at busy count order
  dsimp only [HandlerAt.todo] at busy count order
  have index : (par.handlerBuf + 1) % cfg.nbbuf = (handler + 1) % cfg.nbbuf := by
    rw [places.handlerBuf, Nat.mod_add_mod]
  have place : (hweparNext cfg par todo).handler = .buffer (todo - 1) ∧
      0 < todo - 1 ∨ (hweparNext cfg par todo).handler = .sync := by
    change (if 0 < todo - 1 then HandlerAt.buffer (todo - 1) else .sync) = _ ∧ _
      ∨ (if 0 < todo - 1 then HandlerAt.buffer (todo - 1) else .sync) = _
    by_cases more : 0 < todo - 1
    · rw [if_pos more]
      exact Or.inl ⟨rfl, more⟩
    · rw [if_neg more]
      exact Or.inr rfl
  refine ⟨?_, ?_, ?_, ?_, { logged with }⟩
  · refine { places with
      handlerIdx := index
      handlerBuf := index
      ahead := Nat.lt_succ_of_lt ahead
      ready := ?_
      busy := ?_
      todo := ?_ }
    · exact tracerReady_mono places.ready (Nat.le_succ handler)
    · intro isBusy
      rcases place with ⟨isBuffer, more⟩ | waits
      · rw [isBuffer]
        exact more
      · exact absurd waits isBusy
    · rcases place with ⟨isBuffer, more⟩ | waits
      · rw [isBuffer]
        change handler + 1 + (todo - 1) ≤ _
        omega
      · rw [waits]
        change handler + 1 + 0 ≤ _
        omega
  · refine { bounds with
      dirty := fun k low high => bounds.dirty k (Nat.le_of_succ_le low) high
      handlerFits := ?_ }
    unfold HandlerFits
    rcases place with ⟨isPlace, -⟩ | isPlace <;> rw [isPlace] <;> trivial
  · refine { owned with clean := fun k i low high small clean => ?_ }
    apply owned.clean k i low high small
    unfold CleanAt at clean ⊢
    by_cases isTracer : k = tracer
    · rw [if_pos isTracer] at clean ⊢
      exact clean
    · rw [if_neg isTracer] at clean ⊢
      by_cases before : k < handler
      · rw [if_pos (Nat.lt_succ_of_lt before)] at clean
        rw [if_pos before]
        exact clean
      · rw [if_neg before]
        by_cases isHandler : k = handler
        · rw [if_pos (by omega)] at clean
          rw [if_pos isHandler, isAt]
          exact clean
        · rw [if_neg (by omega)] at clean
          rw [if_neg isHandler]
          split at clean
          · rcases place with ⟨isPlace, -⟩ | isPlace <;> rw [isPlace] at clean <;> exact clean
          · exact clean
  · refine { flow with order := fun _ => ?_, finished := fun isDone => ?_ }
    · unfold handlerCells
      rcases place with ⟨isPlace, -⟩ | isPlace <;> rw [isPlace] <;> exact order
    · rcases place with ⟨isPlace, -⟩ | isPlace <;> rw [isPlace] at isDone <;> cases isDone

theorem ParInv.handlerStep (inv : ParInv cfg par tracer handler loc rest begun)
    (step : handlerStep cfg par = some later) :
    ∃ handler loc rest, ParInv cfg later tracer handler loc rest begun := by
  unfold Decopus.handlerStep at step
  split at step
  · rename_i isAt
    dsimp only at step
    split at step
    · rename_i dirty
      cases step
      exact ⟨handler, loc, rest, inv.handlerSync isAt dirty⟩
    · cases step
  · rename_i todo isAt
    cases step
    exact ⟨handler, loc, rest, inv.buffer isAt⟩
  · rename_i todo fidx eidx i isAt
    split at step
    · rename_i more
      split at step
      · rename_i isMarker
        cases step
        exact ⟨handler, loc, rest, inv.finish isAt more isMarker⟩
      · rename_i head isHead
        cases step
        obtain ⟨moved, shorter, received⟩ := inv.receive isAt more isHead
        exact ⟨handler, moved, shorter, received⟩
    · rename_i finished
      cases step
      exact ⟨handler, loc, rest, inv.handled isAt (Int.not_lt.mp finished)⟩
  · rename_i todo eidx i isAt
    split at step
    · cases step
    · rename_i finished
      cases step
      exact ⟨handler, loc, rest, inv.refilled isAt (Int.not_lt.mp finished)⟩
  · rename_i todo isAt
    cases step
    exact ⟨handler + 1, loc, rest, inv.next isAt⟩
  · cases step

end

end Reverse.Decopus
