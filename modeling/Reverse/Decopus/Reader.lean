import Reverse.Decopus.Handler

/-!
# The trace reader

The program `hwetrace_read.c`.  Containers are read one by one, those of one
event in a row.  The references of an event are ids in the file and have to be
replaced by what `handle_alloc` has given for the event with that id, which may
come later.  Events are handed over in the order of the file.

A handle is the number of the call of `handle_alloc` that has returned it.  The
tree of a component is the map that `avl.h` implements, and its nodes come from
a pool.  The fifo through the field `next` and the list of waiting references
are lists.
-/

namespace Reverse.Decopus

open Function

abbrev RhwePtr := Nat

/-- A reference that waits for an event to be read. -/
structure RefT where
  rhwe : RhwePtr
  cont : Nat
  pos : Nat
  deriving DecidableEq

inductive ReadState where
  | unread
  | read
  | commited
  deriving DecidableEq

/-- The structure `rhwe_t`.  The component and the key of the node are an id. -/
structure RhweT where
  id : HweId
  hwe : Option Nat
  waiting : List RefT
  state : ReadState
  missRef : Int
  missExp : Int

/-- A container in memory, with the ids of its references as they were read,
the further containers of its event and the array `refs`. -/
structure ReadCont where
  id : HweId
  hwe : Container HweId
  refnext : List Nat
  refs : Nat → Option Nat

/-- The container as a handler finds it. -/
def ReadCont.solved (cont : ReadCont) : Container (Option Nat) :=
  { cont.hwe with
    refs := (List.range cont.hwe.refs.length).map cont.refs
    refsFit := by simpa using cont.hwe.refsFit }

/-- What the reader calls. -/
inductive ReaderCall where
  | alloc (id : HweId)
  | event (conts : List (Nat × Container (Option Nat)))

structure Reader where
  conts : Nat → ReadCont
  nalloc : Nat
  nodes : RhwePtr → RhweT
  trees : HweId → Option RhwePtr
  /-- The nodes that were put back, and how many there are. -/
  free : List RhwePtr
  nb : Nat
  ncomp : Nat
  fifo : List RhwePtr
  calls : List ReaderCall

namespace Reader

def setNode (ms : Reader) (rhwe : RhwePtr) (change : RhweT → RhweT) : Reader :=
  { ms with nodes := update ms.nodes rhwe (change (ms.nodes rhwe)) }

def hweSetref (ms : Reader) (cont i : Nat) (ref : Option Nat) : Reader :=
  { ms with
    conts := update ms.conts cont
      { ms.conts cont with
        refs := update (ms.conts cont).refs i ref } }

def event (ms : Reader) (hwe : Nat) : List (Nat × Container (Option Nat)) :=
  (hwe :: (ms.conts hwe).refnext).map fun cont =>
    (cont, (ms.conts cont).solved)

end Reader

def findnode (ms : Reader) (id : HweId) : RhwePtr × Reader :=
  match ms.trees id with
  | some node => (node, ms)
  | none =>
    let node := ms.free.headD ms.nb
    (node, { ms with
      free := ms.free.tail
      nb := if ms.free = [] then ms.nb + 1 else ms.nb
      trees := update ms.trees id (some node)
      nodes := update ms.nodes node ⟨id, none, [], .unread, 0, 0⟩ })

def tryDelete (ms : Reader) (rhwe : RhwePtr) : Reader :=
  if (ms.nodes rhwe).state = .commited ∧ (ms.nodes rhwe).missExp = 0 then
    { ms with
      trees := update ms.trees (ms.nodes rhwe).id none
      free := rhwe :: ms.free }
  else ms

/-- The loop of `try_commit`, from the head of the fifo on. -/
def commitFrom : List RhwePtr → Reader → Reader
  | [], ms => { ms with fifo := [] }
  | rhwe :: fifo, ms =>
    if (ms.nodes rhwe).state = .read ∧ (ms.nodes rhwe).missRef = 0 then
      let sent := (ms.nodes rhwe).hwe.toList.map fun hwe =>
        ReaderCall.event (ms.event hwe)
      let ms := { ms with calls := ms.calls ++ sent }
      let ms := ms.setNode rhwe fun node => { node with state := .commited }
      commitFrom fifo (tryDelete ms rhwe)
    else { ms with fifo := rhwe :: fifo }

def tryCommit (ms : Reader) (rhwe : RhwePtr) : Reader :=
  if ms.fifo.head? = some rhwe then commitFrom ms.fifo ms else ms

/-- A component beyond the array cannot be read. -/
def insertEvent (ms : Reader) (hwe : Nat) : Option (RhwePtr × Reader) :=
  let id := (ms.conts hwe).id
  if id.devid.toNat < ms.ncomp then
    let (rhwe, ms) := findnode ms id
    let ms := ms.setNode rhwe fun node =>
      { node with
        hwe := some hwe
        missExp := node.missExp + (ms.conts hwe).hwe.expected.toNat }
    some (rhwe, { ms with fifo := ms.fifo ++ [rhwe] })
  else none

/-- The body of the loops on the containers and on their references. -/
def solveOurRef (rhwe : RhwePtr) (ms : Reader) (ref : Nat × Nat × HweId) : Option Reader :=
  let (cont, i, refid) := ref
  if refid.devid.toNat < ms.ncomp then
    let (node, ms) := findnode ms refid
    match (ms.nodes node).hwe with
    | some hwe =>
      let ms := ms.hweSetref cont i (some hwe)
      let ms := ms.setNode node fun node =>
        { node with missExp := node.missExp - 1 }
      some (tryDelete ms node)
    | none =>
      let ms := ms.setNode node fun node =>
        { node with waiting := ⟨rhwe, cont, i⟩ :: node.waiting }
      let ms := ms.setNode rhwe fun node =>
        { node with missRef := node.missRef + 1 }
      some (ms.hweSetref cont i none)
  else none

/-- The references of some containers, in the order of the loops. -/
def idsFrom (ms : Reader) (conts : List Nat) : List (Nat × Nat × HweId) :=
  conts.flatMap fun cont =>
    (ms.conts cont).hwe.refs.zipIdx.map fun (id, i) => (cont, i, id)

def trySolveOurRef (ms : Reader) (rhwe : RhwePtr) (hwe : Nat) : Option Reader :=
  (idsFrom ms (hwe :: (ms.conts hwe).refnext)).foldlM (solveOurRef rhwe) ms

def solvePendingRef (rhwe : RhwePtr) : List RefT → Reader → Reader
  | [], ms => ms
  | ref :: waiting, ms =>
    let ms := ms.hweSetref ref.cont ref.pos (ms.nodes rhwe).hwe
    let ms := ms.setNode rhwe fun node =>
      { node with missExp := node.missExp - 1 }
    let ms := ms.setNode ref.rhwe fun node =>
      { node with missRef := node.missRef - 1 }
    let ms := tryCommit ms ref.rhwe
    solvePendingRef rhwe waiting (ms.setNode rhwe fun node => { node with waiting := waiting })

/-- What `main` does with an event that has been read. -/
def readEvent (ms : Reader) (hwe : Nat) : Option Reader := do
  let (rhwe, ms) ← insertEvent ms hwe
  let ms ← trySolveOurRef ms rhwe hwe
  let ms := solvePendingRef rhwe (ms.nodes rhwe).waiting ms
  let ms := ms.setNode rhwe fun node => { node with state := .read }
  some (tryCommit ms rhwe)

/-- One container is read.  The array of components doubles once. -/
def storeContainer (ms : Reader) (id : HweId) (hwe : Container HweId) :
    Reader :=
  { ms with
    conts := update ms.conts ms.nalloc ⟨id, hwe, [], fun _ => none⟩
    nalloc := ms.nalloc + 1
    ncomp := if ms.ncomp ≤ id.devid.toNat then 2 * ms.ncomp else ms.ncomp
    calls := ms.calls ++ [.alloc id] }

/-- A container is part of the current event, or begins the next one. -/
def readNext (state : Reader × Option Nat) (input : HweId × Container HweId) :
    Option (Reader × Option Nat) :=
  let cont := state.1.nalloc
  let ms := storeContainer state.1 input.1 input.2
  match state.2 with
  | none => some (ms, some cont)
  | some current =>
    if (ms.conts current).id = input.1 then
      some ({ ms with
        conts := update ms.conts current
          { ms.conts current with
            refnext := (ms.conts current).refnext ++ [cont] } },
        some current)
    else (readEvent ms current).map fun ms => (ms, some cont)

/-- At the end of the file nothing is read into the last container. -/
def readLast (state : Reader × Option Nat) : Option Reader :=
  let ms := { state.1 with
    nalloc := state.1.nalloc + 1
    calls := state.1.calls ++ [.alloc ⟨0, 0⟩] }
  match state.2 with
  | none => some ms
  | some current => readEvent ms current

def readerStart : Reader where
  conts := fun _ => ⟨⟨0, 0⟩, .empty, [], fun _ => none⟩
  nalloc := 0
  nodes := fun _ => ⟨⟨0, 0⟩, none, [], .unread, 0, 0⟩
  trees := fun _ => none
  free := []
  nb := 0
  ncomp := 16
  fifo := []
  calls := []

def readerMain (inputs : List (HweId × Container HweId)) : Option Reader :=
  (inputs.foldlM readNext (readerStart, none)).bind readLast

/-- An event of a trace, with the handles of its containers. -/
structure TraceEvent where
  id : HweId
  main : Nat
  hwe : Container HweId
  exts : List (Nat × Container HweId)

namespace TraceEvent

def conts (event : TraceEvent) : List (Nat × Container HweId) :=
  (event.main, event.hwe) :: event.exts

def expected (event : TraceEvent) : Nat := event.hwe.expected.toNat

def refs (event : TraceEvent) : List HweId :=
  event.conts.flatMap fun cont => cont.2.refs

end TraceEvent

/-- The events before the current one, the current one, and how many containers
they have. -/
structure Parsed where
  events : List TraceEvent
  current : Option TraceEvent
  count : Nat

def Parsed.next (parsed : Parsed) (input : HweId × Container HweId) : Parsed :=
  let started : TraceEvent := ⟨input.1, parsed.count, input.2, []⟩
  match parsed.current with
  | none => ⟨parsed.events, some started, parsed.count + 1⟩
  | some event =>
    if event.id = input.1 then
      ⟨parsed.events,
        some { event with exts := event.exts ++ [(parsed.count, input.2)] },
        parsed.count + 1⟩
    else ⟨parsed.events ++ [event], some started, parsed.count + 1⟩

def Parsed.all (parsed : Parsed) : List TraceEvent :=
  parsed.events ++ parsed.current.toList

/-- The containers of one id in a row are an event. -/
def traceEvents (inputs : List (HweId × Container HweId)) : List TraceEvent :=
  (inputs.foldl Parsed.next ⟨[], none, 0⟩).all

end Reverse.Decopus
