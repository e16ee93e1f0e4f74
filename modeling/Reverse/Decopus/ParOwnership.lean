import Mathlib.Data.List.Range
import Reverse.Library.Cyclic
import Reverse.Decopus.ParRing

/-!
# Who owns the buffers and the containers

The buffers are counted in the order in which the tracer uses them.  The tracer
is in one of them, some are clean, the handler is in one and the rest waits for
it.  Each container is at one place: with the handler, in a clean cell, in an
event that the tracer has opened, or in an event that was committed and not yet
handled.
-/

namespace Reverse.Decopus

variable {δ : Type}

inductive ContLoc where
  | handler
  | cell (b i : Nat)
  | opened (head : ContPtr)
  | sent (n : Nat)

/-- Some containers are moved to another place. -/
def relocate (loc : ContPtr → ContLoc) (conts : List ContPtr)
    (place : ContLoc) (cont : ContPtr) : ContLoc :=
  if cont ∈ conts then place else loc cont

theorem relocate_mem {place : ContLoc} (member : cont ∈ conts) :
    relocate loc conts place cont = place :=
  if_pos member

theorem relocate_stays {place : ContLoc} (all : ∀ other ∈ conts, loc other = old)
    (isLoc : loc cont = there) (differ : there ≠ old) : relocate loc conts place cont = there := by
  refine Eq.trans (if_neg fun member => ?_) isLoc
  exact differ (isLoc.symm.trans (all cont member))

def ParJob.ends : ParJob → Bool
  | .alloc _ => false
  | .handle cont => cont.isNone
  | .flush => true

/-- What is still to be put into the buffer. -/
def ParJob.cells : ParJob → List (Option ContPtr)
  | .alloc _ => []
  | .handle cont => [cont]
  | .flush => []

namespace TracerAt

def job : TracerAt → Option ParJob
  | .switch job => some job
  | .sync job => some job
  | .newbuffer job => some job
  | .run job => some job
  | _ => none

/-- `hwepar_stop` was called. -/
def ends (place : TracerAt) : Bool :=
  place = .joining || place.job.any ParJob.ends

def cells (place : TracerAt) : List (Option ContPtr) :=
  place.job.elim [] ParJob.cells

end TracerAt

/-- How many buffers the handler knows to be dirty, with the one it is in. -/
def HandlerAt.todo : HandlerAt → Nat
  | .sync => 0
  | .buffer todo => todo
  | .handle todo _ _ _ => todo
  | .refill todo _ _ => todo
  | .next todo => todo
  | .done => 1

/-- The next buffer of the tracer, and how many it knows to be clean. -/
def TracerReady (cfg : ParConfig) (par : Hwepar δ) (tracer handler : Nat) :
    Prop :=
  match par.tracer with
  | .sync _ => par.bufidx = (tracer + 1) % cfg.nbbuf
  | .newbuffer _ =>
    par.bufidx = (tracer + 1) % cfg.nbbuf ∧ 0 < par.bufrdy ∧ tracer + 1 + par.bufrdy ≤ handler
  | _ =>
    par.bufidx = tracer % cfg.nbbuf ∧ 0 < par.bufrdy ∧ tracer + par.bufrdy ≤ handler

/-- The tracer is in the buffer `tracer` and the handler is in the buffer
`handler` or waits for it. -/
structure Places (cfg : ParConfig) (par : Hwepar δ) (tracer handler : Nat) :
    Prop where
  tracerIdx : par.tracerIdx = tracer % cfg.nbbuf
  buf : par.buf = tracer % cfg.nbbuf
  handlerIdx : par.handlerIdx = handler % cfg.nbbuf
  handlerBuf : par.handlerBuf = handler % cfg.nbbuf
  ahead : tracer < handler
  ready : TracerReady cfg par tracer handler
  busy : par.handler ≠ .sync → 0 < par.handler.todo
  todo : handler + par.handler.todo ≤ tracer + cfg.nbbuf

structure Bounded (cfg : ParConfig) (emptyIdx fullIdx : Int) : Prop where
  low : -1 ≤ fullIdx
  order : fullIdx ≤ emptyIdx
  start : cfg.bufstart - 1 ≤ emptyIdx
  high : emptyIdx ≤ cfg.bufsize - 1

/-- The place of the tracer fits its indices. -/
def TracerFits (cfg : ParConfig) (par : Hwepar δ) (tracer : Nat) : Prop :=
  match par.tracer with
  | .idle => True
  | .switch job => job = .flush → 0 ≤ par.fullIdx
  | .sync job =>
    (job = .flush → 0 ≤ par.fullIdx) ∧
      (par.buffers (tracer % cfg.nbbuf)).emptyIdx = par.emptyIdx ∧
      (par.buffers (tracer % cfg.nbbuf)).fullIdx = par.fullIdx
  | .newbuffer job =>
    (job = .flush → 0 ≤ par.fullIdx) ∧
      (par.buffers (tracer % cfg.nbbuf)).emptyIdx = par.emptyIdx ∧
      (par.buffers (tracer % cfg.nbbuf)).fullIdx = par.fullIdx
  | .run (.alloc _) => par.array ≠ none ∧ par.emptyIdx < cfg.bufsize - 1
  | .run (.handle _) => par.array ≠ none ∧ par.fullIdx < par.emptyIdx
  | .run .flush => par.fullIdx = -1
  | .joining => par.fullIdx = -1
  | .crashed => False

/-- The place of the handler fits the bounds of its buffer. -/
def HandlerFits (cfg : ParConfig) (par : Hwepar δ) (handler : Nat) : Prop :=
  match par.handler with
  | .handle _ fidx eidx i =>
    fidx = (par.buffers (handler % cfg.nbbuf)).fullIdx + 1 ∧
      eidx = (par.buffers (handler % cfg.nbbuf)).emptyIdx + 1 ∧
      (i : Int) ≤ fidx
  | .refill _ eidx i =>
    eidx = (par.buffers (handler % cfg.nbbuf)).emptyIdx + 1 ∧ cfg.bufstart ≤ i ∧ (i : Int) ≤ eidx
  | _ => True

/-- Nothing was allocated before the first buffer. -/
def Unopened (par : Hwepar δ) (begun : Prop) : Prop :=
  match par.tracer with
  | .idle => ¬begun
  | .switch job => job = .alloc none
  | .sync job => job = .alloc none
  | .newbuffer job => job = .alloc none
  | _ => False

structure Bounds (cfg : ParConfig) (par : Hwepar δ) (tracer handler : Nat)
    (begun : Prop) : Prop where
  own : Bounded cfg par.emptyIdx par.fullIdx
  dirty : ∀ k, handler ≤ k → k < tracer + cfg.nbbuf →
    Bounded cfg (par.buffers (k % cfg.nbbuf)).emptyIdx
      (par.buffers (k % cfg.nbbuf)).fullIdx
  array : ∀ b ∈ par.array, b = tracer % cfg.nbbuf
  unopened : par.array = none →
    par.emptyIdx = cfg.bufsize - 1 ∧ par.opened = [] ∧ Unopened par begun
  tracerFits : TracerFits cfg par tracer
  handlerFits : HandlerFits cfg par handler

/-- The cell of the buffer that the handler is in holds a clean container. -/
def HandlerClean (cfg : ParConfig) (place : HandlerAt) (emptyIdx : Int) (i : Nat) : Prop :=
  match place with
  | .refill _ eidx j => (cfg.bufstart ≤ i ∧ i < j) ∨ eidx ≤ i
  | .next _ => cfg.bufstart ≤ i
  | _ => emptyIdx < i

/-- The cell of a buffer holds a clean container. -/
def CleanAt (cfg : ParConfig) (par : Hwepar δ) (tracer handler k i : Nat) :
    Prop :=
  if k = tracer then par.emptyIdx < i
  else if k < handler then cfg.bufstart ≤ i
  else if k = handler then
    HandlerClean cfg par.handler (par.buffers (k % cfg.nbbuf)).emptyIdx i
  else (par.buffers (k % cfg.nbbuf)).emptyIdx < i

structure Owned (cfg : ParConfig) (par : Hwepar δ) (tracer handler : Nat)
    (loc : ContPtr → ContLoc) : Prop where
  clean : ∀ k i, tracer ≤ k → k < tracer + cfg.nbbuf → i < cfg.bufsize →
    CleanAt cfg par tracer handler k i →
    ∃ cont, (par.buffers (k % cfg.nbbuf)).array i = some cont ∧
      loc cont = .cell (k % cfg.nbbuf) i ∧ (par.memory cont).exts = []
  pool : ∀ cont ∈ par.pool, loc cont = .handler ∧ cont < par.fresh
  poolNodup : par.pool.Nodup
  fresh : ∀ cont, par.fresh ≤ cont → loc cont = .handler
  opened : ∀ head ∈ par.opened, (head :: (par.memory head).exts).Nodup ∧
    ∀ cont ∈ head :: (par.memory head).exts, loc cont = .opened head
  openedNodup : par.opened.Nodup
  extended : ∀ head, par.tracer.job = some (.alloc (some head)) →
    head ∈ par.opened

def fullCells (buffer : ParBuffer) : List (Option ContPtr) :=
  (List.range (buffer.fullIdx + 1).toNat).map buffer.array

/-- The full cells of some buffers from `k` on. -/
def dirtyCells (cfg : ParConfig) (buffers : Nat → ParBuffer) (k count : Nat) :
    List (Option ContPtr) :=
  (List.range' k count).flatMap fun k => fullCells (buffers (k % cfg.nbbuf))

/-- The cells that the handler has not read yet. -/
def handlerCells (cfg : ParConfig) (par : Hwepar δ) (tracer handler : Nat) :
    List (Option ContPtr) :=
  match par.handler with
  | .sync =>
    dirtyCells cfg par.buffers handler (tracer + cfg.nbbuf - handler)
  | .buffer _ =>
    dirtyCells cfg par.buffers handler (tracer + cfg.nbbuf - handler)
  | .handle _ _ _ i =>
    (fullCells (par.buffers (handler % cfg.nbbuf))).drop i ++
      dirtyCells cfg par.buffers (handler + 1) (tracer + cfg.nbbuf - (handler + 1))
  | _ =>
    dirtyCells cfg par.buffers (handler + 1) (tracer + cfg.nbbuf - (handler + 1))

/-- The cells that the tracer has not shown to the handler yet. -/
def tracerCells (cfg : ParConfig) (par : Hwepar δ) (tracer : Nat) : List (Option ContPtr) :=
  (List.range (par.fullIdx + 1).toNat).map
    (par.buffers (tracer % cfg.nbbuf)).array ++ par.tracer.cells

def eventHead (event : ParEvent δ) : Option ContPtr :=
  event.head?.map Prod.fst

/-- The events `rest` are on their way. -/
structure Flow (cfg : ParConfig) (par : Hwepar δ) (tracer handler : Nat)
    (loc : ContPtr → ContLoc) (rest : List (ParEvent δ)) : Prop where
  committed : par.committed = par.received ++ rest
  stored : ∀ n event, rest[n]? = some event → ∃ head,
    event = eventAt par.memory head ∧
      (head :: (par.memory head).exts).Nodup ∧
      ∀ cont ∈ head :: (par.memory head).exts,
        loc cont = .sent (par.received.length + n)
  order : par.handler ≠ .done →
    handlerCells cfg par tracer handler ++ tracerCells cfg par tracer =
      rest.map eventHead ++ if par.tracer.ends then [none] else []
  finished : par.handler = .done →
    rest = [] ∧ (par.tracer = .run .flush ∨ par.tracer = .joining)

def lastTransfer (log : List ParTransfer) (cont : ContPtr) : Option ParTransfer :=
  (log.filter fun transfer => transfer.cont = cont).getLast?

structure Logged (par : Hwepar δ) (loc : ContPtr → ContLoc) : Prop where
  given : ∀ cont b i, loc cont = .cell b i →
    lastTransfer par.log cont = some (.give cont)
  taken : ∀ before cont after, par.log = before ++ .take cont :: after →
    lastTransfer before cont = some (.give cont)
  waits : ∀ cont, lastTransfer par.log cont = some (.give cont) →
    ∃ b i, loc cont = .cell b i

theorem Logged.move {place : ContLoc} (logged : Logged par loc)
    (all : ∀ cont ∈ conts, loc cont = old) (notOld : ∀ b i, old ≠ .cell b i)
    (notPlace : ∀ b i, place ≠ .cell b i) :
    Logged par (relocate loc conts place) := by
  refine ⟨fun cont b i isCell => ?_, logged.taken, fun cont isGiven => ?_⟩
  · unfold relocate at isCell
    split at isCell
    · exact absurd isCell (notPlace b i)
    · exact logged.given cont b i isCell
  · obtain ⟨b, i, isCell⟩ := logged.waits cont isGiven
    exact ⟨b, i, relocate_stays all isCell (notOld b i).symm⟩

structure ParInv (cfg : ParConfig) (par : Hwepar δ) (tracer handler : Nat)
    (loc : ContPtr → ContLoc) (rest : List (ParEvent δ)) (begun : Prop) :
    Prop where
  places : Places cfg par tracer handler
  bounds : Bounds cfg par tracer handler begun
  owned : Owned cfg par tracer handler loc
  flow : Flow cfg par tracer handler loc rest
  logged : Logged par loc

theorem eventAt_congr {memory later : ContPtr → ParCont δ}
    (same : ∀ cont ∈ head :: (memory head).exts, later cont = memory cont) :
    eventAt later head = eventAt memory head := by
  unfold eventAt
  rw [same head List.mem_cons_self]
  apply List.map_congr_left
  intro cont member
  rw [same cont member]

theorem Flow.stored_congr {loc later : ContPtr → ContLoc}
    (flow : Flow cfg par tracer handler loc rest)
    (same : ∀ cont n, loc cont = .sent n → later cont = .sent n ∧ memory cont = par.memory cont) :
    ∀ n event, rest[n]? = some event → ∃ head,
      event = eventAt memory head ∧ (head :: (memory head).exts).Nodup ∧
        ∀ cont ∈ head :: (memory head).exts, later cont = .sent (par.received.length + n) := by
  intro n event isEvent
  obtain ⟨head, isAt, nodup, all⟩ := flow.stored n event isEvent
  have kept : ∀ cont ∈ head :: (par.memory head).exts, memory cont = par.memory cont :=
    fun cont member => (same cont _ (all cont member)).2
  refine ⟨head, ?_, ?_, ?_⟩
  · rw [isAt, eventAt_congr kept]
  · rw [kept head List.mem_cons_self]
    exact nodup
  · rw [kept head List.mem_cons_self]
    exact fun cont member => (same cont _ (all cont member)).1

theorem Places.inside (places : Places cfg par tracer handler)
    (busy : par.handler ≠ .sync) : handler < tracer + cfg.nbbuf := by
  have positive := places.busy busy
  have todo := places.todo
  omega

theorem Places.le (places : Places cfg par tracer handler) : handler ≤ tracer + cfg.nbbuf :=
  Nat.le_of_add_right_le places.todo

theorem Places.apart (places : Places cfg par tracer handler)
    (low : handler ≤ k) (high : k < tracer + cfg.nbbuf) :
    k % cfg.nbbuf ≠ tracer % cfg.nbbuf :=
  (Cyclic.mod_ne (Nat.le_refl _) (Nat.lt_of_lt_of_le places.ahead low) high).symm

/-- What the handler finds when it reads the index of the tracer. -/
theorem Places.handler_count (places : Places cfg par tracer handler) :
    hweparHandlerSync cfg par = tracer + cfg.nbbuf - handler := by
  have within := places.le
  have ahead := places.ahead
  unfold hweparHandlerSync
  rw [places.tracerIdx, places.handlerBuf, ← Nat.add_mod_right tracer]
  exact Cyclic.distance within (by omega)

/-- What the tracer finds when it reads the index of the handler. -/
theorem Places.tracer_count (places : Places cfg par tracer handler)
    (index : par.bufidx = (tracer + 1) % cfg.nbbuf) :
    hweparTracerSync cfg par = handler - (tracer + 1) := by
  have within := places.le
  unfold hweparTracerSync
  rw [places.handlerIdx, index]
  exact Cyclic.distance places.ahead (by omega)

theorem dirtyCells_congr
    (same : ∀ j, k ≤ j → j < k + count → later (j % cfg.nbbuf) = buffers (j % cfg.nbbuf)) :
    dirtyCells cfg later k count = dirtyCells cfg buffers k count := by
  unfold dirtyCells
  apply List.flatMap_congr
  intro j member
  rw [List.mem_range'_1] at member
  rw [same j member.1 member.2]

theorem handlerCells_congr {par later : Hwepar δ} (isAt : later.handler = par.handler)
    (inside : par.handler ≠ .sync → handler < tracer + cfg.nbbuf)
    (within : handler ≤ tracer + cfg.nbbuf) (same : ∀ k, handler ≤ k → k < tracer + cfg.nbbuf →
      later.buffers (k % cfg.nbbuf) = par.buffers (k % cfg.nbbuf)) :
    handlerCells cfg later tracer handler = handlerCells cfg par tracer handler := by
  have all : dirtyCells cfg later.buffers handler
      (tracer + cfg.nbbuf - handler) =
        dirtyCells cfg par.buffers handler (tracer + cfg.nbbuf - handler) := by
    apply dirtyCells_congr
    intro j low high
    exact same j low (by omega)
  have others : dirtyCells cfg later.buffers (handler + 1)
      (tracer + cfg.nbbuf - (handler + 1)) =
        dirtyCells cfg par.buffers (handler + 1) (tracer + cfg.nbbuf - (handler + 1)) := by
    apply dirtyCells_congr
    intro j low high
    exact same j (by omega) (by omega)
  unfold handlerCells
  rw [isAt]
  cases place : par.handler with
  | sync => exact all
  | buffer todo => exact all
  | handle todo fidx eidx i =>
    have here := same handler (Nat.le_refl _) (inside (place ▸ nofun))
    dsimp only
    rw [here, others]
  | refill todo eidx i => exact others
  | next todo => exact others
  | done => exact others

theorem handlerFits_congr (isAt : later.handler = par.handler)
    (same : par.handler ≠ .sync → later.buffers (handler % cfg.nbbuf) =
      par.buffers (handler % cfg.nbbuf)) (fits : HandlerFits cfg par handler) :
    HandlerFits cfg later handler := by
  unfold HandlerFits at fits ⊢
  rw [isAt]
  cases place : par.handler with
  | handle todo fidx eidx i =>
    rw [place] at fits
    dsimp only
    rw [same (place ▸ nofun)]
    exact fits
  | refill todo eidx i =>
    rw [place] at fits
    dsimp only
    rw [same (place ▸ nofun)]
    exact fits
  | sync => trivial
  | buffer todo => trivial
  | next todo => trivial
  | done => trivial

theorem cleanAt_congr (isAt : later.handler = par.handler) (own : later.emptyIdx = par.emptyIdx)
    (same : handler ≤ k → (later.buffers (k % cfg.nbbuf)).emptyIdx =
      (par.buffers (k % cfg.nbbuf)).emptyIdx) :
    CleanAt cfg later tracer handler k i ↔ CleanAt cfg par tracer handler k i := by
  unfold CleanAt
  rw [isAt, own]
  by_cases isTracer : k = tracer
  · rw [if_pos isTracer, if_pos isTracer]
  · rw [if_neg isTracer, if_neg isTracer]
    by_cases before : k < handler
    · rw [if_pos before, if_pos before]
    · rw [if_neg before, if_neg before, same (Nat.le_of_not_lt before)]

end Reverse.Decopus
