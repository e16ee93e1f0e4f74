import Mathlib.Logic.Function.Basic

/-!
# The ring between the tracer and the handler

The circular buffers of `hwetrace_par_cirbuf.h`, in the mode that is used if
none is chosen.  The tracer and the thread of the handler take turns in any
order.  One step of a thread reads or writes one shared index, one cell of a
buffer or the bounds of a buffer.

A thread that waits reads the index of the other one until it has changed.  The
reads that find nothing change nothing, so that a waiting thread has no step.
-/

namespace Reverse.Decopus

/-- `HWEPAR_NBBUF`, `HWEPAR_BUFSIZE` and `HWEPAR_BUFSTART`, with the conditions
that are checked when the file is compiled and at least two buffers. -/
structure ParConfig where
  nbbuf : Nat
  bufsize : Nat
  bufstart : Nat
  two_le_nbbuf : 2 ≤ nbbuf
  bufstart_pos : 0 < bufstart
  bufstart_lt : bufstart < bufsize

abbrev ContPtr := Nat

/-- A container: the containers that extend it and the rest. -/
structure ParCont (δ : Type) where
  exts : List ContPtr
  data : δ
deriving DecidableEq

/-- An event with its containers, as a reader of the memory finds them. -/
abbrev ParEvent (δ : Type) := List (ContPtr × ParCont δ)

def eventAt {δ : Type} (memory : ContPtr → ParCont δ) (head : ContPtr) : ParEvent δ :=
  (head :: (memory head).exts).map fun cont => (cont, memory cont)

structure ParBuffer where
  emptyIdx : Int
  fullIdx : Int
  array : Nat → Option ContPtr

/-- What the tracer does after it has got a buffer. -/
inductive ParJob where
  | alloc (event : Option ContPtr)
  | handle (cont : Option ContPtr)
  | flush
deriving DecidableEq

/-- Where the tracer is. -/
inductive TracerAt where
  | idle
  | switch (job : ParJob)
  | sync (job : ParJob)
  | newbuffer (job : ParJob)
  | run (job : ParJob)
  | joining
  | crashed
deriving DecidableEq

/-- Where the thread of the handler is. -/
inductive HandlerAt where
  | sync
  | buffer (todo : Nat)
  | handle (todo : Nat) (fidx eidx : Int) (i : Nat)
  | refill (todo : Nat) (eidx : Int) (i : Nat)
  | next (todo : Nat)
  | done
deriving DecidableEq

/-- The handler gives a container to the tracer, or the tracer hands it out. -/
inductive ParTransfer where
  | give (cont : ContPtr)
  | take (cont : ContPtr)
deriving DecidableEq

def ParTransfer.cont : ParTransfer → ContPtr
  | .give cont => cont
  | .take cont => cont

/-- Both threads and what they share.  The events that were committed, the
events that were handled and the transfers are recorded. -/
structure Hwepar (δ : Type) where
  buffers : Nat → ParBuffer
  tracerIdx : Nat
  handlerIdx : Nat
  memory : ContPtr → ParCont δ
  bufrdy : Nat
  bufidx : Nat
  buf : Nat
  array : Option Nat
  emptyIdx : Int
  fullIdx : Int
  tracer : TracerAt
  /-- The events that the tracer has begun and not committed. -/
  opened : List ContPtr
  handlerBuf : Nat
  handler : HandlerAt
  /-- The containers that the handler has. -/
  pool : List ContPtr
  /-- The containers from here on were never used. -/
  fresh : Nat
  committed : List (ParEvent δ)
  received : List (ParEvent δ)
  log : List ParTransfer

variable {δ : Type}

/-- The arrays and the containers are not initialised. -/
def hweparInit (cfg : ParConfig) (arrays : Nat → Nat → Option ContPtr)
    (memory : ContPtr → ParCont δ) : Hwepar δ where
  buffers i :=
    { emptyIdx := cfg.bufsize - 1, fullIdx := -1, array := arrays i }
  tracerIdx := 0
  handlerIdx := 1
  memory := memory
  bufrdy := 1
  bufidx := 0
  buf := 0
  array := none
  emptyIdx := cfg.bufsize - 1
  fullIdx := -1
  tracer := .idle
  opened := []
  handlerBuf := 1
  handler := .sync
  pool := []
  fresh := 0
  committed := []
  received := []
  log := []

namespace Hwepar

def setBuffer (par : Hwepar δ) (i : Nat) (buffer : ParBuffer) : Hwepar δ :=
  { par with buffers := Function.update par.buffers i buffer }

def setCell (par : Hwepar δ) (b i : Nat) (cont : Option ContPtr) : Hwepar δ :=
  par.setBuffer b
    { par.buffers b with
      array := Function.update (par.buffers b).array i cont }

def setCont (par : Hwepar δ) (cont : ContPtr) (value : ParCont δ) : Hwepar δ :=
  { par with memory := Function.update par.memory cont value }

/-- The tracer may use the container. -/
def TracerHas (par : Hwepar δ) (cont : ContPtr) : Prop :=
  ∃ head ∈ par.opened, cont = head ∨ cont ∈ (par.memory head).exts

instance (par : Hwepar δ) (cont : ContPtr) : Decidable (par.TracerHas cont) :=
  inferInstanceAs (Decidable (∃ head ∈ par.opened, cont = head ∨ cont ∈ (par.memory head).exts))

end Hwepar

/-- The test at the beginning of `hwepar_alloc`. -/
def hweparAlloc (cfg : ParConfig) (par : Hwepar δ) (event : Option ContPtr) : Hwepar δ :=
  { par with
    tracer := if par.emptyIdx = cfg.bufsize - 1 then .switch (.alloc event)
      else .run (.alloc event) }

/-- The test at the beginning of `hwepar_handle_local`. -/
def hweparHandleLocal (par : Hwepar δ) (cont : Option ContPtr) : Hwepar δ :=
  { par with
    tracer := if par.fullIdx = par.emptyIdx then .switch (.handle cont) else .run (.handle cont) }

def hweparHandle (par : Hwepar δ) (head : ContPtr) : Hwepar δ :=
  let par := { par with
    committed := par.committed ++ [eventAt par.memory head]
    opened := par.opened.erase head }
  hweparHandleLocal par (some head)

def hweparStop (par : Hwepar δ) : Hwepar δ :=
  hweparHandleLocal par none

/-- `hwepar_switchbuffer` up to the question whether the next buffer is known to
be clean. -/
def hweparSwitchbuffer (cfg : ParConfig) (par : Hwepar δ) (job : ParJob) : Hwepar δ :=
  let par := par.setBuffer par.buf
    { par.buffers par.buf with
      emptyIdx := par.emptyIdx, fullIdx := par.fullIdx }
  { par with
    bufidx := (par.bufidx + 1) % cfg.nbbuf
    bufrdy := par.bufrdy - 1
    tracer := if 0 < par.bufrdy - 1 then .newbuffer job else .sync job }

def hweparTracerSync (cfg : ParConfig) (par : Hwepar δ) : Nat :=
  (par.handlerIdx + cfg.nbbuf - par.bufidx) % cfg.nbbuf

def hweparNewbuffer (cfg : ParConfig) (par : Hwepar δ) (job : ParJob) : Hwepar δ :=
  { par with
    tracerIdx := par.bufidx
    buf := par.bufidx
    array := some par.bufidx
    emptyIdx := cfg.bufstart - 1
    fullIdx := -1
    tracer := .run job }

/-- The rest of `hwepar_alloc`, and what `hwe_init` or `hwe_extend` do with the
container. -/
def hweparTake (par : Hwepar δ) (event : Option ContPtr) : Hwepar δ :=
  match par.array with
  | none => { par with tracer := .crashed }
  | some b =>
    match (par.buffers b).array (par.emptyIdx + 1).toNat with
    | none => { par with tracer := .crashed }
    | some cont =>
      let par := { par with
        emptyIdx := par.emptyIdx + 1
        log := par.log ++ [ParTransfer.take cont]
        tracer := .idle }
      match event with
      | none => { par with opened := cont :: par.opened }
      | some head =>
        par.setCont head
          { par.memory head with
            exts := (par.memory head).exts ++ [cont] }

/-- The rest of `hwepar_handle_local`.  `hwepar_stop` goes on after it. -/
def hweparPut (par : Hwepar δ) (cont : Option ContPtr) : Hwepar δ :=
  match par.array with
  | none => { par with tracer := .crashed }
  | some b =>
    let par := par.setCell b (par.fullIdx + 1).toNat cont
    { par with
      fullIdx := par.fullIdx + 1
      tracer := match cont with
        | some _ => .idle
        | none => .switch .flush }

def tracerStep (cfg : ParConfig) (par : Hwepar δ) : Option (Hwepar δ) :=
  match par.tracer with
  | .idle => none
  | .switch job => some (hweparSwitchbuffer cfg par job)
  | .sync job =>
    let bufrdy := hweparTracerSync cfg par
    if 0 < bufrdy then
      some { par with bufrdy := bufrdy, tracer := .newbuffer job }
    else none
  | .newbuffer job => some (hweparNewbuffer cfg par job)
  | .run (.alloc event) => some (hweparTake par event)
  | .run (.handle cont) => some (hweparPut par cont)
  | .run .flush => some { par with tracer := .joining }
  | .joining => none
  | .crashed => none

def hweparHandlerSync (cfg : ParConfig) (par : Hwepar δ) : Nat :=
  (par.tracerIdx + cfg.nbbuf - par.handlerBuf) % cfg.nbbuf

/-- `handle_event`: the containers of the event now belong to the handler. -/
def hweparReceive (par : Hwepar δ) (head : ContPtr) : Hwepar δ :=
  { par with
    received := par.received ++ [eventAt par.memory head]
    pool := head :: (par.memory head).exts ++ par.pool }

/-- The next buffer is shown to the tracer. -/
def hweparNext (cfg : ParConfig) (par : Hwepar δ) (todo : Nat) : Hwepar δ :=
  let bufidx := (par.handlerBuf + 1) % cfg.nbbuf
  { par with
    handlerBuf := bufidx
    handlerIdx := bufidx
    handler := if 0 < todo - 1 then .buffer (todo - 1) else .sync }

def handlerStep (cfg : ParConfig) (par : Hwepar δ) : Option (Hwepar δ) :=
  match par.handler with
  | .sync =>
    let todo := hweparHandlerSync cfg par
    if 0 < todo then some { par with handler := .buffer todo } else none
  | .buffer todo =>
    let buf := par.buffers par.handlerBuf
    some { par with
      handler := .handle todo (buf.fullIdx + 1) (buf.emptyIdx + 1) 0 }
  | .handle todo fidx eidx i =>
    if (i : Int) < fidx then
      match (par.buffers par.handlerBuf).array i with
      | none => some { par with handler := .done }
      | some head =>
        some { hweparReceive par head with
          handler := .handle todo fidx eidx (i + 1) }
    else some { par with handler := .refill todo eidx cfg.bufstart }
  | .refill todo eidx i =>
    if (i : Int) < eidx then none
    else some { par with handler := .next todo }
  | .next todo => some (hweparNext cfg par todo)
  | .done => none

/-- `handle_alloc` gives a container that the handler has, or a new one. -/
def handleAlloc (par : Hwepar δ) (choice : Option ContPtr) : Option (ContPtr × Hwepar δ) :=
  match choice with
  | none => some (par.fresh, { par with fresh := par.fresh + 1 })
  | some cont =>
    if cont ∈ par.pool then
      some (cont, { par with pool := par.pool.erase cont })
    else none

/-- One of the used empty containers is replaced. -/
def refillStep (par : Hwepar δ) (choice : Option ContPtr) : Option (Hwepar δ) :=
  match par.handler with
  | .refill todo eidx i =>
    if (i : Int) < eidx then
      (handleAlloc par choice).map fun (cont, par) =>
        let par := par.setCont cont { par.memory cont with exts := [] }
        let par := par.setCell par.handlerBuf i (some cont)
        { par with
          log := par.log ++ [ParTransfer.give cont]
          handler := .refill todo eidx (i + 1) }
    else none
  | _ => none

inductive ParAction (δ : Type) where
  /-- The tracer begins an event, extends it, writes to it or commits it. -/
  | init
  | extend (head : ContPtr)
  | write (cont : ContPtr) (data : δ)
  | commit (head : ContPtr)
  | stop
  | tracer
  | handler
  | refill (choice : Option ContPtr)
  /-- The handler changes a container that it has. -/
  | change (cont : ContPtr) (value : ParCont δ)

def parStep (cfg : ParConfig) (par : Hwepar δ) : ParAction δ → Option (Hwepar δ)
  | .init =>
    if par.tracer = .idle then some (hweparAlloc cfg par none) else none
  | .extend head =>
    if par.tracer = .idle ∧ head ∈ par.opened then
      some (hweparAlloc cfg par (some head))
    else none
  | .write cont data =>
    if par.tracer = .idle ∧ par.TracerHas cont then
      some (par.setCont cont { par.memory cont with data := data })
    else none
  | .commit head =>
    if par.tracer = .idle ∧ head ∈ par.opened then
      some (hweparHandle par head)
    else none
  | .stop => if par.tracer = .idle then some (hweparStop par) else none
  | .tracer => tracerStep cfg par
  | .handler => handlerStep cfg par
  | .refill choice => refillStep par choice
  | .change cont value =>
    if cont ∈ par.pool then some (par.setCont cont value) else none

/-- Any order of the steps of both threads. -/
def parRun (cfg : ParConfig) (arrays : Nat → Nat → Option ContPtr)
    (memory : ContPtr → ParCont δ) (actions : List (ParAction δ)) :
    Option (Hwepar δ) :=
  actions.foldlM (parStep cfg) (hweparInit cfg arrays memory)

theorem parRun_concat (cfg : ParConfig) (arrays : Nat → Nat → Option ContPtr)
    (memory : ContPtr → ParCont δ) (actions : List (ParAction δ)) (action : ParAction δ) :
    parRun cfg arrays memory (actions ++ [action]) =
      (parRun cfg arrays memory actions).bind fun par => parStep cfg par action := by
  simp [parRun, List.foldlM_append]

end Reverse.Decopus
