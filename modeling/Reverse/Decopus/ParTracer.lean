import Mathlib.Data.List.Nodup
import Reverse.Decopus.ParOwnership

/-!
# The steps of the tracer

Each step of the tracer keeps the order of the events and the owners of the
buffers and of the containers.
-/

namespace Reverse.Decopus

open Function
open List hiding head

section

variable {δ : Type} {cfg : ParConfig} {par : Hwepar δ} {tracer handler : Nat}
  {loc : ContPtr → ContLoc} {rest : List (ParEvent δ)} {begun : Prop}

theorem ParInv.setCont (inv : ParInv cfg par tracer handler loc rest begun)
    (notCell : ∀ b i, loc cont ≠ .cell b i) (notSent : ∀ n, loc cont ≠ .sent n)
    (keeps : ∀ head, loc cont = .opened head → value.exts = (par.memory cont).exts) :
    ParInv cfg (par.setCont cont value) tracer handler loc rest begun := by
  have other : ∀ {memory : ContPtr}, loc memory ≠ loc cont →
      update par.memory cont value memory = par.memory memory := by
    intro memory differ
    apply update_of_ne
    rintro rfl
    exact differ rfl
  have exts : ∀ head memory, loc memory = .opened head →
      (update par.memory cont value memory).exts = (par.memory memory).exts := by
    intro head memory isLoc
    by_cases same : memory = cont
    · rw [same, update_self]
      exact keeps head (same ▸ isLoc)
    · rw [update_of_ne same]
  obtain ⟨places, bounds, owned, flow, logged⟩ := inv
  refine ⟨{ places with }, { bounds with }, ?_, ?_, { logged with }⟩
  · refine { owned with clean := ?_, opened := ?_ }
    · intro k i low high small clean
      obtain ⟨found, isCell, isLoc, noExts⟩ := owned.clean k i low high small clean
      refine ⟨found, isCell, isLoc, ?_⟩
      change (update par.memory cont value found).exts = []
      rw [other (isLoc ▸ (notCell _ _).symm)]
      exact noExts
    · intro head member
      have isOpened := owned.opened head member
      have isLoc := isOpened.2 head mem_cons_self
      change (head :: (update par.memory cont value head).exts).Nodup ∧
        ∀ found ∈ head :: (update par.memory cont value head).exts, _
      rw [exts head head isLoc]
      exact isOpened
  · refine { flow with stored := flow.stored_congr ?_ }
    intro found n isSent
    exact ⟨isSent, other (isSent ▸ (notSent _).symm)⟩

theorem ParInv.setTracer {place : TracerAt} (inv : ParInv cfg par tracer handler loc rest begun)
    (ready : TracerReady cfg { par with tracer := place } tracer handler)
    (unopened : par.array = none → Unopened { par with tracer := place } begins)
    (fits : TracerFits cfg { par with tracer := place } tracer)
    (extended : ∀ head, place.job = some (.alloc (some head)) →
      head ∈ par.opened) (cells : place.cells = par.tracer.cells)
    (ends : place.ends = par.tracer.ends)
    (finished : par.handler = .done → place = .run .flush ∨ place = .joining) :
    ParInv cfg { par with tracer := place } tracer handler loc rest
      begins := by
  obtain ⟨places, bounds, owned, flow, logged⟩ := inv
  refine ⟨{ places with ready := ready }, ?_, { owned with extended := extended },
    ?_, { logged with }⟩
  · refine { bounds with unopened := fun isNone => ?_, tracerFits := fits }
    obtain ⟨isFull, noEvents, -⟩ := bounds.unopened isNone
    exact ⟨isFull, noEvents, unopened isNone⟩
  · refine { flow with order := fun running => ?_, finished := fun isDone => ?_ }
    · have order := flow.order running
      unfold tracerCells at order ⊢
      rw [cells, ends]
      exact order
    · exact ⟨(flow.finished isDone).1, finished isDone⟩

section

variable (inv : ParInv cfg par tracer handler loc rest begun)

include inv

theorem ParInv.running (notFlush : par.tracer ≠ .run .flush)
    (notJoining : par.tracer ≠ .joining) : par.handler ≠ .done := by
  intro isDone
  rcases (inv.flow.finished isDone).2 with flush | joining
  · exact notFlush flush
  · exact notJoining joining

theorem ParInv.alloc (idle : par.tracer = .idle) (known : ∀ head ∈ event, head ∈ par.opened) :
    ParInv cfg (hweparAlloc cfg par event) tracer handler loc rest
      begins := by
  have ready := inv.places.ready
  have running : par.handler ≠ .done := inv.running (idle ▸ nofun) (idle ▸ nofun)
  unfold TracerReady at ready
  rw [idle] at ready
  unfold hweparAlloc
  by_cases isFull : par.emptyIdx = cfg.bufsize - 1
  · rw [if_pos isFull]
    apply inv.setTracer
    · exact ready
    · intro isNone
      cases event with
      | none => rfl
      | some head =>
        have member := known head rfl
        rw [(inv.bounds.unopened isNone).2.1] at member
        cases member
    · exact nofun
    · intro head isJob
      cases isJob
      exact known head rfl
    · rw [idle]
      rfl
    · rw [idle]
      rfl
    · exact fun isDone => absurd isDone running
  · rw [if_neg isFull]
    apply inv.setTracer
    · exact ready
    · exact fun isNone => absurd (inv.bounds.unopened isNone).1 isFull
    · refine ⟨fun isNone => isFull (inv.bounds.unopened isNone).1, ?_⟩
      have high := inv.bounds.own.high
      change par.emptyIdx < cfg.bufsize - 1
      omega
    · intro head isJob
      cases isJob
      exact known head rfl
    · rw [idle]
      rfl
    · rw [idle]
      rfl
    · exact fun isDone => absurd isDone running

/-- The test of `hwepar_handle_local`, once the cell is accounted for. -/
theorem handleLocal_places (idle : par.tracer = .idle)
    (isOpen : par.array ≠ none) (cont : Option ContPtr) :
    Places cfg (hweparHandleLocal par cont) tracer handler ∧
      TracerFits cfg (hweparHandleLocal par cont) tracer := by
  have ready := inv.places.ready
  unfold TracerReady at ready
  rw [idle] at ready
  unfold hweparHandleLocal
  by_cases isFull : par.fullIdx = par.emptyIdx
  · rw [if_pos isFull]
    refine ⟨{ inv.places with ready := ready }, ?_⟩
    exact nofun
  · rw [if_neg isFull]
    refine ⟨{ inv.places with ready := ready }, isOpen, ?_⟩
    have order := inv.bounds.own.order
    change par.fullIdx < par.emptyIdx
    omega

end

theorem handleLocal_job (par : Hwepar δ) (cont : Option ContPtr) :
    (hweparHandleLocal par cont).tracer.job = some (.handle cont) := by
  unfold hweparHandleLocal
  dsimp only
  split <;> rfl

theorem handleLocal_ends (par : Hwepar δ) (cont : Option ContPtr) :
    (hweparHandleLocal par cont).tracer.ends = cont.isNone := by
  unfold hweparHandleLocal
  dsimp only
  split <;> rfl

theorem ParInv.order_idle (inv : ParInv cfg par tracer handler loc rest begun)
    (idle : par.tracer = .idle) :
    handlerCells cfg par tracer handler ++
      (List.range (par.fullIdx + 1).toNat).map
        (par.buffers (tracer % cfg.nbbuf)).array = rest.map eventHead := by
  have order := inv.flow.order (inv.running (idle ▸ nofun) (idle ▸ nofun))
  unfold tracerCells at order
  rw [idle] at order
  simpa [TracerAt.cells, TracerAt.ends, TracerAt.job] using order

theorem handleLocal_order (order : handlerCells cfg par tracer handler ++
      (List.range (par.fullIdx + 1).toNat).map
        (par.buffers (tracer % cfg.nbbuf)).array = rest.map eventHead)
    (cont : Option ContPtr) :
    handlerCells cfg (hweparHandleLocal par cont) tracer handler ++
      tracerCells cfg (hweparHandleLocal par cont) tracer = rest.map eventHead ++ [cont] := by
  have cells : (hweparHandleLocal par cont).tracer.cells = [cont] := by
    unfold TracerAt.cells
    rw [handleLocal_job]
    rfl
  unfold tracerCells
  rw [cells, ← append_assoc]
  exact congrArg (· ++ [cont]) order

section

variable (inv : ParInv cfg par tracer handler loc rest begun)

include inv

theorem ParInv.stop (idle : par.tracer = .idle) (isOpen : par.array ≠ none) :
    ParInv cfg (hweparStop par) tracer handler loc rest begins := by
  have running : par.handler ≠ .done := inv.running (idle ▸ nofun) (idle ▸ nofun)
  obtain ⟨places, fits⟩ := handleLocal_places inv idle isOpen none
  refine ⟨places, ?_, ?_, ?_, { inv.logged with }⟩
  · exact { inv.bounds with
      unopened := fun isNone => absurd isNone isOpen
      tracerFits := fits }
  · refine { inv.owned with extended := fun head isAlloc => ?_ }
    rw [hweparStop, handleLocal_job] at isAlloc
    cases isAlloc
  · refine { inv.flow with
      order := fun _ => ?_
      finished := fun isDone => absurd isDone running }
    rw [hweparStop, handleLocal_ends]
    exact handleLocal_order (inv.order_idle idle) none

theorem ParInv.commit (idle : par.tracer = .idle) (isOpened : head ∈ par.opened) :
    ParInv cfg (hweparHandle par head) tracer handler
      (relocate loc (head :: (par.memory head).exts) (.sent (par.received.length + rest.length)))
      (rest ++ [eventAt par.memory head]) begins := by
  have running : par.handler ≠ .done := inv.running (idle ▸ nofun) (idle ▸ nofun)
  have isOpen : par.array ≠ none := by
    intro isNone
    rw [(inv.bounds.unopened isNone).2.1] at isOpened
    cases isOpened
  obtain ⟨nodup, all⟩ := inv.owned.opened head isOpened
  obtain ⟨places, fits⟩ := handleLocal_places inv idle isOpen (some head)
  refine ⟨{ places with }, ?_, ?_, ?_, ?_⟩
  · exact { inv.bounds with
      unopened := fun isNone => absurd isNone isOpen
      tracerFits := fits }
  · constructor
    · intro k i low high small clean
      obtain ⟨cont, isCell, isLoc, noExts⟩ := inv.owned.clean k i low high small clean
      exact ⟨cont, isCell, relocate_stays all isLoc nofun, noExts⟩
    · intro cont member
      obtain ⟨isLoc, old⟩ := inv.owned.pool cont member
      exact ⟨relocate_stays all isLoc nofun, old⟩
    · exact inv.owned.poolNodup
    · exact fun cont new =>
        relocate_stays all (inv.owned.fresh cont new) nofun
    · intro other member
      obtain ⟨differ, isOther⟩ := (inv.owned.openedNodup.mem_erase_iff).mp member
      obtain ⟨distinct, places⟩ := inv.owned.opened other isOther
      refine ⟨distinct, fun cont inside => ?_⟩
      apply relocate_stays all (places cont inside)
      rintro ⟨⟩
      exact differ rfl
    · exact inv.owned.openedNodup.erase _
    · intro other isAlloc
      rw [hweparHandle, handleLocal_job] at isAlloc
      cases isAlloc
  · refine ⟨?_, ?_, fun _ => ?_, fun isDone => absurd isDone running⟩
    · change par.committed ++ [eventAt par.memory head] = _
      rw [inv.flow.committed, append_assoc]
      rfl
    · intro n event isEvent
      by_cases old : n < rest.length
      · rw [List.getElem?_append_left old] at isEvent
        apply inv.flow.stored_congr _ n event isEvent
        intro cont m isSent
        exact ⟨relocate_stays all isSent nofun, rfl⟩
      · rw [List.getElem?_append_right (Nat.le_of_not_lt old), List.getElem?_singleton] at isEvent
        split at isEvent
        · rename_i isLast
          cases isEvent
          have last : n = rest.length := by omega
          refine ⟨head, rfl, nodup, fun cont inside => ?_⟩
          rw [last]
          exact relocate_mem inside
        · cases isEvent
    · rw [hweparHandle, handleLocal_ends, map_append]
      have order := handleLocal_order (inv.order_idle idle) (some head)
      refine Eq.trans order ?_
      simp [eventHead, eventAt]
  · have moved := inv.logged.move all (fun _ _ => nofun)
      (show ∀ b i, ContLoc.sent (par.received.length + rest.length) ≠
        .cell b i from fun _ _ => nofun)
    exact { moved with }

theorem ParInv.write (has : par.TracerHas cont) :
    ParInv cfg (par.setCont cont { par.memory cont with data := data }) tracer
      handler loc rest begun := by
  obtain ⟨head, isOpened, inside⟩ := has
  have isLoc := (inv.owned.opened head isOpened).2 cont (mem_cons.mpr inside)
  apply inv.setCont
  · exact fun _ _ => isLoc ▸ nofun
  · exact fun _ => isLoc ▸ nofun
  · exact fun _ _ => rfl

end

theorem switchbuffer_buffers (job : ParJob) (places : Places cfg par tracer handler) :
    (∀ b, ((hweparSwitchbuffer cfg par job).buffers b).array = (par.buffers b).array) ∧
      ∀ k, handler ≤ k → k < tracer + cfg.nbbuf →
        (hweparSwitchbuffer cfg par job).buffers (k % cfg.nbbuf) = par.buffers (k % cfg.nbbuf) := by
  have isBuf := places.buf
  constructor
  · intro b
    change (update par.buffers par.buf _ b).array = _
    by_cases same : b = par.buf
    · rw [same, update_self]
    · rw [update_of_ne same]
  · intro k low high
    apply update_of_ne
    rw [isBuf]
    exact places.apart low high

theorem ParInv.switch (inv : ParInv cfg par tracer handler loc rest begun)
    (isAt : par.tracer = .switch job) :
    ParInv cfg (hweparSwitchbuffer cfg par job) tracer handler loc rest
      begun := by
  have running : par.handler ≠ .done := inv.running (isAt ▸ nofun) (isAt ▸ nofun)
  obtain ⟨places, bounds, owned, flow, logged⟩ := inv
  obtain ⟨sameArray, sameBuffer⟩ := switchbuffer_buffers job places
  have ready := places.ready
  have fits := bounds.tracerFits
  unfold TracerReady at ready
  unfold TracerFits at fits
  rw [isAt] at ready fits
  dsimp only at ready fits
  have own : (hweparSwitchbuffer cfg par job).buffers (tracer % cfg.nbbuf) =
      { par.buffers par.buf with
        emptyIdx := par.emptyIdx, fullIdx := par.fullIdx } := by
    rw [← places.buf]
    exact update_self ..
  have sameHandler : (hweparSwitchbuffer cfg par job).handler = par.handler := rfl
  have sameEmpty : (hweparSwitchbuffer cfg par job).emptyIdx = par.emptyIdx := rfl
  have place : (hweparSwitchbuffer cfg par job).tracer =
      if 0 < par.bufrdy - 1 then .newbuffer job else .sync job := rfl
  have either : (hweparSwitchbuffer cfg par job).tracer = .newbuffer job ∨
      (hweparSwitchbuffer cfg par job).tracer = .sync job := by
    rw [place]
    split
    · exact Or.inl rfl
    · exact Or.inr rfl
  have index : (hweparSwitchbuffer cfg par job).bufidx = (tracer + 1) % cfg.nbbuf := by
    change (par.bufidx + 1) % cfg.nbbuf = _
    rw [ready.1, Nat.mod_add_mod]
  have unopened : par.array = none → job = .alloc none := by
    intro isNone
    have unopened := (bounds.unopened isNone).2.2
    unfold Unopened at unopened
    rw [isAt] at unopened
    exact unopened
  have same : ((hweparSwitchbuffer cfg par job).buffers
      (tracer % cfg.nbbuf)).emptyIdx = par.emptyIdx ∧
        ((hweparSwitchbuffer cfg par job).buffers (tracer % cfg.nbbuf)).fullIdx = par.fullIdx := by
    rw [own]
    exact ⟨rfl, rfl⟩
  have nowReady : TracerReady cfg (hweparSwitchbuffer cfg par job) tracer
      handler := by
    unfold TracerReady
    rw [place]
    by_cases more : 0 < par.bufrdy - 1
    · rw [if_pos more]
      refine ⟨index, more, ?_⟩
      change tracer + 1 + (par.bufrdy - 1) ≤ handler
      omega
    · rw [if_neg more]
      exact index
  refine ⟨{ places with ready := nowReady }, ?_, ?_, ?_, { logged with }⟩
  · refine { bounds with
      dirty := fun k low high => ?_
      unopened := fun isNone => ?_
      tracerFits := ?_
      handlerFits := ?_ }
    · rw [sameBuffer k low high]
      exact bounds.dirty k low high
    · refine ⟨(bounds.unopened isNone).1, (bounds.unopened isNone).2.1, ?_⟩
      unfold Unopened
      rcases either with isPlace | isPlace <;> rw [isPlace] <;> exact unopened isNone
    · unfold TracerFits
      rcases either with isPlace | isPlace <;> rw [isPlace] <;> exact ⟨fits, same⟩
    · refine handlerFits_congr sameHandler (fun busy => ?_) bounds.handlerFits
      exact sameBuffer handler (Nat.le_refl _) (places.inside busy)
  · refine { owned with
      clean := fun k i low high small clean => ?_
      extended := fun head isJob => ?_ }
    · rw [cleanAt_congr sameHandler sameEmpty fun above => by
        rw [sameBuffer k above high]] at clean
      rw [sameArray]
      exact owned.clean k i low high small clean
    · apply owned.extended head
      rw [isAt]
      rcases either with isPlace | isPlace <;> rw [isPlace] at isJob <;> exact isJob
  · refine { flow with
      order := fun _ => ?_
      finished := fun isDone => absurd isDone running }
    have order := flow.order running
    have cells := handlerCells_congr sameHandler places.inside places.le sameBuffer
    unfold tracerCells at order ⊢
    rw [cells, sameArray]
    rw [isAt] at order
    rcases either with isPlace | isPlace <;> rw [isPlace] <;> exact order

theorem ParInv.sync (inv : ParInv cfg par tracer handler loc rest begun)
    (isAt : par.tracer = .sync job) (clean : 0 < hweparTracerSync cfg par) :
    ParInv cfg { par with
      bufrdy := hweparTracerSync cfg par, tracer := .newbuffer job } tracer
        handler loc rest begun := by
  have running : par.handler ≠ .done := inv.running (isAt ▸ nofun) (isAt ▸ nofun)
  obtain ⟨places, bounds, owned, flow, logged⟩ := inv
  have ready := places.ready
  have fits := bounds.tracerFits
  unfold TracerReady at ready
  unfold TracerFits at fits
  rw [isAt] at ready fits
  have ahead := places.ahead
  have count := places.tracer_count ready
  have informed : ParInv cfg { par with bufrdy := hweparTracerSync cfg par }
      tracer handler loc rest begun := by
    refine ⟨{ places with ready := ?_ }, { bounds with }, { owned with },
      { flow with }, { logged with }⟩
    unfold TracerReady
    rw [isAt]
    exact ready
  apply informed.setTracer
  · refine ⟨ready, clean, ?_⟩
    change tracer + 1 + hweparTracerSync cfg par ≤ handler
    omega
  · intro isNone
    have unopened := (bounds.unopened isNone).2.2
    unfold Unopened at unopened
    rw [isAt] at unopened
    exact unopened
  · exact fits
  · intro head isJob
    apply owned.extended head
    rw [isAt]
    exact isJob
  · exact isAt ▸ rfl
  · exact isAt ▸ rfl
  · exact fun isDone => absurd isDone running

theorem dirtyCells_succ (cfg : ParConfig) (buffers : Nat → ParBuffer) (k count : Nat) :
    dirtyCells cfg buffers k (count + 1) =
      dirtyCells cfg buffers k count ++ fullCells (buffers ((k + count) % cfg.nbbuf)) := by
  unfold dirtyCells
  rw [List.range'_1_concat, flatMap_append, flatMap_singleton]

/-- The buffer that the tracer leaves becomes the last one of the handler. -/
theorem handlerCells_succ (places : Places cfg par tracer handler) :
    handlerCells cfg par (tracer + 1) handler =
      handlerCells cfg par tracer handler ++ fullCells (par.buffers (tracer % cfg.nbbuf)) := by
  have grows : ∀ k, k ≤ tracer + cfg.nbbuf →
      dirtyCells cfg par.buffers k (tracer + 1 + cfg.nbbuf - k) =
        dirtyCells cfg par.buffers k (tracer + cfg.nbbuf - k) ++
          fullCells (par.buffers (tracer % cfg.nbbuf)) := by
    intro k within
    rw [show tracer + 1 + cfg.nbbuf - k = tracer + cfg.nbbuf - k + 1 by omega,
      dirtyCells_succ, Nat.add_sub_cancel' within, Nat.add_mod_right]
  have whole := grows handler places.le
  have others : par.handler ≠ .sync → _ := fun busy =>
    grows (handler + 1) (places.inside busy)
  unfold handlerCells
  cases place : par.handler with
  | sync => exact whole
  | buffer todo => exact whole
  | handle todo fidx eidx i =>
    dsimp only
    rw [others (place ▸ nofun), append_assoc]
  | refill todo eidx i => exact others (place ▸ nofun)
  | next todo => exact others (place ▸ nofun)
  | done => exact others (place ▸ nofun)

theorem cleanAt_newbuffer (places : Places cfg par tracer handler) (ahead : tracer + 1 < handler)
    (left : (par.buffers (tracer % cfg.nbbuf)).emptyIdx = par.emptyIdx)
    (low : tracer + 1 ≤ k) (high : k < tracer + 1 + cfg.nbbuf)
    (clean : CleanAt cfg (hweparNewbuffer cfg par job) (tracer + 1) handler k i) :
    ∃ j, tracer ≤ j ∧ j < tracer + cfg.nbbuf ∧ j % cfg.nbbuf = k % cfg.nbbuf ∧
      CleanAt cfg par tracer handler j i := by
  have two := cfg.two_le_nbbuf
  have within := places.le
  unfold CleanAt at clean
  by_cases isNew : k = tracer + 1
  · rw [if_pos isNew] at clean
    change (cfg.bufstart : Int) - 1 < i at clean
    refine ⟨k, by omega, by omega, rfl, ?_⟩
    unfold CleanAt
    rw [if_neg (by omega), if_pos (by omega)]
    omega
  · rw [if_neg isNew] at clean
    by_cases isLeft : k = tracer + cfg.nbbuf
    · have same : k % cfg.nbbuf = tracer % cfg.nbbuf := by
        rw [isLeft, Nat.add_mod_right]
      refine ⟨tracer, Nat.le_refl _, by omega, same.symm, ?_⟩
      unfold CleanAt
      rw [if_pos rfl, ← left, ← same]
      rw [if_neg (by omega)] at clean
      by_cases isHandler : k = handler
      · have waits : par.handler = .sync := by
          by_contra busy
          have inside := places.inside busy
          omega
        rw [if_pos isHandler] at clean
        change HandlerClean cfg par.handler _ i at clean
        rw [waits] at clean
        exact clean
      · rw [if_neg isHandler] at clean
        exact clean
    · refine ⟨k, by omega, by omega, rfl, ?_⟩
      unfold CleanAt
      rw [if_neg (by omega)]
      exact clean

theorem newbuffer_fits (cfg : ParConfig) (par : Hwepar δ) (job : ParJob) (tracer : Nat) :
    TracerFits cfg (hweparNewbuffer cfg par job) (tracer + 1) := by
  have positive := cfg.bufstart_pos
  have less := cfg.bufstart_lt
  cases job with
  | alloc event =>
    refine ⟨nofun, ?_⟩
    change (cfg.bufstart : Int) - 1 < cfg.bufsize - 1
    omega
  | handle cont =>
    refine ⟨nofun, ?_⟩
    change (-1 : Int) < cfg.bufstart - 1
    omega
  | flush => exact rfl

theorem ParInv.newbuffer (inv : ParInv cfg par tracer handler loc rest begun)
    (isAt : par.tracer = .newbuffer job) :
    ParInv cfg (hweparNewbuffer cfg par job) (tracer + 1) handler loc rest
      begun := by
  have running : par.handler ≠ .done := inv.running (isAt ▸ nofun) (isAt ▸ nofun)
  obtain ⟨places, bounds, owned, flow, logged⟩ := inv
  have ready := places.ready
  have fits := bounds.tracerFits
  unfold TracerReady at ready
  unfold TracerFits at fits
  rw [isAt] at ready fits
  obtain ⟨index, positive, clean⟩ := ready
  obtain ⟨-, leftEmpty, leftFull⟩ := fits
  refine ⟨?_, ?_, ?_, ?_, { logged with }⟩
  · exact { places with
      tracerIdx := index
      buf := index
      ahead := by omega
      ready := ⟨index, positive, clean⟩
      todo := by
        have todo := places.todo
        change handler + par.handler.todo ≤ _
        omega }
  · have positive := cfg.bufstart_pos
    have less := cfg.bufstart_lt
    constructor
    · constructor
      · exact Int.le_refl _
      · change (-1 : Int) ≤ cfg.bufstart - 1
        omega
      · exact Int.le_refl _
      · change (cfg.bufstart : Int) - 1 ≤ cfg.bufsize - 1
        omega
    · intro k low high
      by_cases isLeft : k = tracer + cfg.nbbuf
      · rw [isLeft, Nat.add_mod_right]
        change Bounded cfg (par.buffers (tracer % cfg.nbbuf)).emptyIdx
          (par.buffers (tracer % cfg.nbbuf)).fullIdx
        rw [leftEmpty, leftFull]
        exact bounds.own
      · exact bounds.dirty k low (by omega)
    · rintro b ⟨⟩
      exact index
    · exact nofun
    · exact newbuffer_fits cfg par job tracer
    · exact bounds.handlerFits
  · refine { owned with clean := ?_, extended := ?_ }
    · intro k i low high small isClean
      obtain ⟨j, above, below, same, wasClean⟩ :=
        cleanAt_newbuffer places (by omega) leftEmpty low high isClean
      rw [← same]
      exact owned.clean j i above below small wasClean
    · intro head isJob
      apply owned.extended head
      rw [isAt]
      exact isJob
  · refine { flow with
      order := fun _ => ?_
      finished := fun isDone => absurd isDone running }
    have order := flow.order running
    have left : fullCells (par.buffers (tracer % cfg.nbbuf)) =
        (List.range (par.fullIdx + 1).toNat).map (par.buffers (tracer % cfg.nbbuf)).array := by
      unfold fullCells
      rw [leftFull]
    unfold tracerCells at order ⊢
    rw [isAt] at order
    change handlerCells cfg par (tracer + 1) handler ++ ([] ++ _) = _
    rw [handlerCells_succ places, left, nil_append, append_assoc]
    exact order

theorem lastTransfer_concat (log : List ParTransfer) (transfer : ParTransfer) :
    lastTransfer (log ++ [transfer]) transfer.cont = some transfer := by
  simp [lastTransfer, filter_append]

theorem lastTransfer_concat_other (differ : transfer.cont ≠ cont) :
    lastTransfer (log ++ [transfer]) cont = lastTransfer log cont := by
  simp [lastTransfer, filter_append, differ]

theorem Logged.concat {place : ContLoc} (logged : Logged par loc) (transfer : ParTransfer)
    (wasGiven : transfer = .take transfer.cont →
      lastTransfer par.log transfer.cont = some (.give transfer.cont))
    (isPlace : (∃ b i, place = .cell b i) ↔ transfer = .give transfer.cont) :
    Logged { par with log := par.log ++ [transfer] }
      (relocate loc [transfer.cont] place) := by
  have own : relocate loc [transfer.cont] place transfer.cont = place := relocate_mem mem_cons_self
  have others : ∀ other, other ≠ transfer.cont →
      relocate loc [transfer.cont] place other = loc other :=
    fun other differ => if_neg (mt mem_singleton.mp differ)
  constructor
  · intro other b i isCell
    by_cases same : other = transfer.cont
    · rw [same, own] at isCell
      rw [same]
      refine (lastTransfer_concat par.log transfer).trans ?_
      exact congrArg some (isPlace.mp ⟨b, i, isCell⟩)
    · rw [others other same] at isCell
      refine (lastTransfer_concat_other (Ne.symm same)).trans ?_
      exact logged.given other b i isCell
  · intro before other after isLog
    change par.log ++ [transfer] = _ at isLog
    rcases eq_nil_or_concat after with isNil | ⟨shorter, last, isConcat⟩
    · rw [isNil] at isLog
      obtain ⟨isBefore, isTake⟩ := append_inj' isLog rfl
      cases isTake
      rw [← isBefore]
      exact wasGiven rfl
    · rw [isConcat, concat_eq_append, ← cons_append, ← append_assoc] at isLog
      exact logged.taken before other shorter (append_inj' isLog rfl).1
  · intro other isGiven
    by_cases same : other = transfer.cont
    · rw [same] at isGiven ⊢
      have isGive := (lastTransfer_concat par.log transfer).symm.trans isGiven
      obtain ⟨b, i, isCell⟩ := isPlace.mpr (Option.some.inj isGive)
      exact ⟨b, i, own.trans isCell⟩
    · obtain ⟨b, i, isCell⟩ := logged.waits other
        ((lastTransfer_concat_other (Ne.symm same)).symm.trans isGiven)
      exact ⟨b, i, (others other same).trans isCell⟩

theorem Bounds.toNat_empty (bounds : Bounds cfg par tracer handler begun) :
    ((par.emptyIdx + 1).toNat : Int) = par.emptyIdx + 1 := by
  have start := bounds.own.start
  apply Int.toNat_of_nonneg
  omega

section

variable (inv : ParInv cfg par tracer handler loc rest begun)

include inv

theorem ParInv.next_empty (isAt : par.tracer = .run (.alloc event)) :
    ∃ cont, (par.buffers (tracer % cfg.nbbuf)).array (par.emptyIdx + 1).toNat = some cont ∧
      loc cont = .cell (tracer % cfg.nbbuf) (par.emptyIdx + 1).toNat ∧
      (par.memory cont).exts = [] := by
  have fits := inv.bounds.tracerFits
  have two := cfg.two_le_nbbuf
  have index := inv.bounds.toNat_empty
  unfold TracerFits at fits
  rw [isAt] at fits
  dsimp only at fits
  apply inv.owned.clean tracer _ (Nat.le_refl _)
  · omega
  · omega
  · unfold CleanAt
    rw [if_pos rfl]
    omega

theorem ParInv.takeCont (isAt : par.tracer = .run (.alloc event))
    (isLoc : loc cont = .cell (tracer % cfg.nbbuf) (par.emptyIdx + 1).toNat)
    (noExts : (par.memory cont).exts = []) :
    ParInv cfg { par with
      emptyIdx := par.emptyIdx + 1
      log := par.log ++ [ParTransfer.take cont]
      tracer := .idle
      opened := cont :: par.opened } tracer handler
        (relocate loc [cont] (.opened cont)) rest begun := by
  have running : par.handler ≠ .done := inv.running (isAt ▸ nofun) (isAt ▸ nofun)
  obtain ⟨places, bounds, owned, flow, logged⟩ := inv
  have ready := places.ready
  have fits := bounds.tracerFits
  unfold TracerReady at ready
  unfold TracerFits at fits
  rw [isAt] at ready fits
  have index := bounds.toNat_empty
  have notOpened : cont ∉ par.opened := by
    intro member
    have isOpened := (owned.opened cont member).2 cont mem_cons_self
    rw [isLoc] at isOpened
    cases isOpened
  have all : ∀ other ∈ [cont], loc other = .cell (tracer % cfg.nbbuf) (par.emptyIdx + 1).toNat := by
    intro other member
    rw [mem_singleton.mp member]
    exact isLoc
  refine ⟨{ places with ready := ready }, ?_, ?_, ?_, ?_⟩
  · refine { bounds with
      own := ⟨bounds.own.low, ?_, ?_, fits.2⟩
      unopened := fun isNone => absurd isNone fits.1
      tracerFits := trivial }
    · exact Int.le_add_one bounds.own.order
    · exact Int.le_add_one bounds.own.start
  · constructor
    · intro k i above below small clean
      have wasClean : CleanAt cfg par tracer handler k i := by
        unfold CleanAt at clean ⊢
        by_cases isTracer : k = tracer
        · rw [if_pos isTracer] at clean ⊢
          change par.emptyIdx + 1 < i at clean
          omega
        · rw [if_neg isTracer] at clean ⊢
          exact clean
      obtain ⟨other, isCell, isPlace, empty⟩ := owned.clean k i above below small wasClean
      refine ⟨other, isCell, relocate_stays all isPlace ?_, empty⟩
      intro same
      injection same with sameBuffer sameIndex
      by_cases isTracer : k = tracer
      · unfold CleanAt at clean
        rw [if_pos isTracer] at clean
        change par.emptyIdx + 1 < i at clean
        omega
      · exact Cyclic.mod_ne (Nat.le_refl _) (by omega) below sameBuffer.symm
    · intro other member
      obtain ⟨isPlace, old⟩ := owned.pool other member
      exact ⟨relocate_stays all isPlace nofun, old⟩
    · exact owned.poolNodup
    · exact fun other new => relocate_stays all (owned.fresh other new) nofun
    · intro head member
      rcases mem_cons.mp member with isNew | isOld
      · rw [isNew]
        change (cont :: (par.memory cont).exts).Nodup ∧ ∀ other ∈ cont :: (par.memory cont).exts, _
        rw [noExts]
        exact ⟨nodup_singleton cont, fun other inside =>
          relocate_mem inside⟩
      · obtain ⟨nodup, places⟩ := owned.opened head isOld
        exact ⟨nodup, fun other inside =>
          relocate_stays all (places other inside) nofun⟩
    · exact nodup_cons.mpr ⟨notOpened, owned.openedNodup⟩
    · exact nofun
  · refine { flow with
      stored := flow.stored_congr fun other n isSent => ?_
      order := fun _ => ?_
      finished := fun isDone => absurd isDone running }
    · exact ⟨relocate_stays all isSent nofun, rfl⟩
    · have order := flow.order running
      unfold tracerCells at order ⊢
      rw [isAt] at order
      exact order
  · have taken : Logged
        { par with log := par.log ++ [ParTransfer.take cont] }
        (relocate loc [cont] (.opened cont)) :=
      logged.concat (.take cont) (fun _ => logged.given cont _ _ isLoc)
        ⟨nofun, nofun⟩
    exact { taken with }

/-- An event that was just opened becomes an extension of another one. -/
theorem ParInv.absorb (idle : par.tracer = .idle) (isOpen : par.array ≠ none)
    (isOpened : par.opened = cont :: heads) (isHead : head ∈ heads) :
    ParInv cfg { par.setCont head { par.memory head with
        exts := (par.memory head).exts ++ [cont] } with opened := heads }
      tracer handler (relocate loc [cont] (.opened head)) rest begun := by
  obtain ⟨places, bounds, owned, flow, logged⟩ := inv
  have nodup := owned.openedNodup
  have opened := owned.opened
  rw [isOpened] at nodup opened
  obtain ⟨notIn, nodupHeads⟩ := nodup_cons.mp nodup
  have isCont : loc cont = .opened cont := (opened cont mem_cons_self).2 cont mem_cons_self
  have headLoc : loc head = .opened head :=
    (opened head (mem_cons_of_mem _ isHead)).2 head mem_cons_self
  have isConts : ∀ other ∈ [cont], loc other = .opened cont := by
    intro other member
    rw [mem_singleton.mp member]
    exact isCont
  have apart : ∀ other ∈ heads, ContLoc.opened other ≠ .opened cont := by
    rintro other member ⟨⟩
    exact notIn member
  have memory : ∀ other, loc other ≠ .opened head →
      update par.memory head { par.memory head with
        exts := (par.memory head).exts ++ [cont] } other = par.memory other := by
    intro other differ
    apply update_of_ne
    rintro rfl
    exact differ headLoc
  refine ⟨{ places with }, ?_, ?_, ?_, ?_⟩
  · exact { bounds with unopened := fun isNone => absurd isNone isOpen }
  · constructor
    · intro k i low high small clean
      obtain ⟨other, isCell, isLoc, empty⟩ := owned.clean k i low high small clean
      refine ⟨other, isCell, ?_, ?_⟩
      · exact relocate_stays isConts isLoc nofun
      · refine Eq.trans (congrArg ParCont.exts ?_) empty
        exact memory other (isLoc ▸ nofun)
    · intro other member
      obtain ⟨isLoc, old⟩ := owned.pool other member
      exact ⟨relocate_stays isConts isLoc nofun, old⟩
    · exact owned.poolNodup
    · exact fun other new =>
        relocate_stays isConts (owned.fresh other new) nofun
    · intro other member
      obtain ⟨distinct, all⟩ := opened other (mem_cons_of_mem _ member)
      have stays : ∀ inner ∈ other :: (par.memory other).exts,
          relocate loc [cont] (.opened head) inner = .opened other :=
        fun inner inside =>
          relocate_stays isConts (all inner inside) (apart other member)
      change (other :: (update par.memory head _ other).exts).Nodup ∧
        ∀ inner ∈ other :: (update par.memory head _ other).exts, _
      by_cases isHere : other = head
      · cases isHere
        rw [update_self]
        change ((head :: (par.memory head).exts) ++ [cont]).Nodup ∧
          ∀ inner ∈ (head :: (par.memory head).exts) ++ [cont], _
        constructor
        · refine distinct.append (nodup_singleton cont) ?_
          intro inner inside isLast
          have isLoc := all inner inside
          rw [mem_singleton.mp isLast, isCont] at isLoc
          exact apart head member isLoc.symm
        · intro inner inside
          rcases mem_append.mp inside with old | new
          · exact stays inner old
          · exact relocate_mem new
      · rw [update_of_ne isHere]
        exact ⟨distinct, stays⟩
    · exact nodupHeads
    · intro other isJob
      change par.tracer.job = _ at isJob
      rw [idle] at isJob
      cases isJob
  · refine { flow with stored := flow.stored_congr fun other n isSent => ?_ }
    exact ⟨relocate_stays isConts isSent nofun, memory other (isSent ▸ nofun)⟩
  · have moved := logged.move isConts (fun _ _ => nofun)
      (show ∀ b i, ContLoc.opened head ≠ .cell b i from fun _ _ => nofun)
    exact { moved with }

theorem ParInv.take (isAt : par.tracer = .run (.alloc event)) :
    ∃ later, ParInv cfg (hweparTake par event) tracer handler later rest
      begun := by
  have fits := inv.bounds.tracerFits
  unfold TracerFits at fits
  rw [isAt] at fits
  obtain ⟨b, isArray⟩ := Option.ne_none_iff_exists'.mp fits.1
  obtain ⟨cont, isCont, isLoc, noExts⟩ := inv.next_empty isAt
  rw [← inv.bounds.array b isArray] at isCont
  have taken := inv.takeCont isAt isLoc noExts
  unfold hweparTake
  rw [isArray] at taken ⊢
  dsimp only
  rw [isCont]
  cases event with
  | none => exact ⟨relocate loc [cont] (.opened cont), taken⟩
  | some head =>
    have isHead := inv.owned.extended head (isAt ▸ rfl)
    exact ⟨_, taken.absorb rfl nofun rfl isHead⟩

end

theorem setCell_buffers (par : Hwepar δ) (b i : Nat) (cont : Option ContPtr) :
    (∀ c, ((par.setCell b i cont).buffers c).emptyIdx =
        (par.buffers c).emptyIdx ∧
          ((par.setCell b i cont).buffers c).fullIdx = (par.buffers c).fullIdx) ∧
      (∀ c j, c ≠ b ∨ j ≠ i →
        ((par.setCell b i cont).buffers c).array j = (par.buffers c).array j) ∧
      (∀ c, c ≠ b → (par.setCell b i cont).buffers c = par.buffers c) ∧
      ((par.setCell b i cont).buffers b).array i = cont := by
  change (∀ c, (update par.buffers b _ c).emptyIdx = _ ∧ (update par.buffers b _ c).fullIdx = _) ∧
    (∀ c j, _ → (update par.buffers b _ c).array j = _) ∧
    (∀ c, _ → update par.buffers b _ c = _) ∧
    (update par.buffers b _ b).array i = _
  refine ⟨?_, ?_, ?_, ?_⟩
  · intro c
    by_cases same : c = b
    · rw [same, update_self]
      exact ⟨rfl, rfl⟩
    · rw [update_of_ne same]
      exact ⟨rfl, rfl⟩
  · intro c j differ
    by_cases same : c = b
    · rw [same, update_self]
      exact update_of_ne (differ.neg_resolve_left same) ..
    · rw [update_of_ne same]
  · intro c differ
    exact update_of_ne differ ..
  · rw [update_self]
    exact update_self ..

section

variable (inv : ParInv cfg par tracer handler loc rest begun)

include inv

theorem ParInv.put (isAt : par.tracer = .run (.handle cont)) :
    ParInv cfg (hweparPut par cont) tracer handler loc rest begun := by
  have running : par.handler ≠ .done := inv.running (isAt ▸ nofun) (isAt ▸ nofun)
  obtain ⟨places, bounds, owned, flow, logged⟩ := inv
  have ready := places.ready
  have fits := bounds.tracerFits
  have low := bounds.own.low
  unfold TracerReady at ready
  unfold TracerFits at fits
  rw [isAt] at ready fits
  dsimp only at ready fits
  obtain ⟨b, isArray⟩ := Option.ne_none_iff_exists'.mp fits.1
  have isBuf := bounds.array b isArray
  have index : ((par.fullIdx + 1).toNat : Int) = par.fullIdx + 1 := Int.toNat_of_nonneg (by omega)
  obtain ⟨sameBounds, sameCell, sameBuffer, isCell⟩ :=
    setCell_buffers par b (par.fullIdx + 1).toNat cont
  have sameHandled : ∀ k, handler ≤ k → k < tracer + cfg.nbbuf →
      (par.setCell b (par.fullIdx + 1).toNat cont).buffers (k % cfg.nbbuf) =
        par.buffers (k % cfg.nbbuf) := by
    intro k above below
    apply sameBuffer
    rw [isBuf]
    exact places.apart above below
  have sameHandler : (par.setCell b (par.fullIdx + 1).toNat cont).handler = par.handler := rfl
  have sameEmpty : (par.setCell b (par.fullIdx + 1).toNat cont).emptyIdx = par.emptyIdx := rfl
  unfold hweparPut
  rw [isArray]
  refine ⟨{ places with ready := ?_ }, ?_, ?_, ?_, { logged with }⟩
  · cases cont <;> exact ready
  · refine { bounds with
      own := { bounds.own with low := ?_, order := ?_ }
      dirty := fun k above below => ?_
      unopened := fun isNone => absurd isNone fits.1
      tracerFits := ?_
      handlerFits := handlerFits_congr sameHandler
        (fun busy => sameHandled handler (Nat.le_refl _) (places.inside busy))
        bounds.handlerFits }
    · exact Int.le_add_one low
    · exact fits.2
    · refine Eq.subst (motive := fun buffer : ParBuffer =>
        Bounded cfg buffer.emptyIdx buffer.fullIdx) ?_
        (bounds.dirty k above below)
      exact (sameHandled k above below).symm
    · cases cont with
      | none =>
        intro _
        change 0 ≤ par.fullIdx + 1
        omega
      | some head => trivial
  · refine { owned with clean := ?_, extended := ?_ }
    · intro k i above below small clean
      have wasClean : CleanAt cfg par tracer handler k i :=
        (cleanAt_congr sameHandler sameEmpty fun _ => (sameBounds _).1).mp clean
      obtain ⟨found, isFound, rest⟩ := owned.clean k i above below small wasClean
      refine ⟨found, Eq.trans (sameCell (k % cfg.nbbuf) i ?_) isFound, rest⟩
      by_cases isTracer : k = tracer
      · right
        unfold CleanAt at wasClean
        rw [if_pos isTracer] at wasClean
        omega
      · left
        rw [isBuf]
        exact (Cyclic.mod_ne (Nat.le_refl _) (by omega) below).symm
    · intro head isJob
      cases cont <;> cases isJob
  · refine { flow with
      order := fun _ => ?_
      finished := fun isDone => absurd isDone running }
    have order := flow.order running
    have cells := handlerCells_congr sameHandler places.inside places.le sameHandled
    have filled : (List.range (par.fullIdx + 1 + 1).toNat).map
        ((par.setCell b (par.fullIdx + 1).toNat cont).buffers (tracer % cfg.nbbuf)).array =
        (List.range (par.fullIdx + 1).toNat).map
          (par.buffers (tracer % cfg.nbbuf)).array ++ [cont] := by
      rw [show (par.fullIdx + 1 + 1).toNat = (par.fullIdx + 1).toNat + 1 by
        omega, range_succ, map_append, map_singleton, ← isBuf,
        isCell]
      congr 1
      apply map_congr_left
      intro i member
      apply sameCell
      right
      exact Nat.ne_of_lt (mem_range.mp member)
    unfold tracerCells at order ⊢
    rw [isAt] at order
    refine Eq.trans ?_ (order.trans ?_)
    · refine congrArg₂ (· ++ ·) cells ?_
      refine Eq.trans (congrArg (· ++ _) filled) ?_
      cases cont <;> simp [TracerAt.cells, TracerAt.job, ParJob.cells]
    · cases cont <;> rfl

theorem ParInv.flush (isAt : par.tracer = .run .flush) :
    ParInv cfg { par with tracer := .joining } tracer handler loc rest
      begun := by
  have ready := inv.places.ready
  have fits := inv.bounds.tracerFits
  unfold TracerReady at ready
  unfold TracerFits at fits
  rw [isAt] at ready fits
  apply inv.setTracer
  · exact ready
  · intro isNone
    have unopened := (inv.bounds.unopened isNone).2.2
    unfold Unopened at unopened
    rw [isAt] at unopened
    exact unopened
  · exact fits
  · exact nofun
  · exact isAt ▸ rfl
  · exact isAt ▸ rfl
  · exact fun _ => Or.inr rfl

theorem ParInv.tracerStep (step : tracerStep cfg par = some later) :
    ∃ tracer loc, ParInv cfg later tracer handler loc rest begun := by
  unfold Decopus.tracerStep at step
  split at step
  · cases step
  · rename_i job isAt
    cases step
    exact ⟨tracer, loc, inv.switch isAt⟩
  · rename_i job isAt
    dsimp only at step
    split at step
    · rename_i clean
      cases step
      exact ⟨tracer, loc, inv.sync isAt clean⟩
    · cases step
  · rename_i job isAt
    cases step
    exact ⟨tracer + 1, loc, inv.newbuffer isAt⟩
  · rename_i event isAt
    cases step
    obtain ⟨moved, taken⟩ := inv.take isAt
    exact ⟨tracer, moved, taken⟩
  · rename_i cont isAt
    cases step
    exact ⟨tracer, loc, inv.put isAt⟩
  · rename_i isAt
    cases step
    exact ⟨tracer, loc, inv.flush isAt⟩
  · cases step
  · cases step

end

end

end Reverse.Decopus
