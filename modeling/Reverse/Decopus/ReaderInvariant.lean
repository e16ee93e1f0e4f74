import Mathlib.Data.List.Nodup
import Mathlib.Data.List.Perm.Basic
import Reverse.Decopus.Reader

/-!
# What the reader keeps

The events that were read are in the fifo until all their references are
solved.  A reference that was met is solved, or it waits at the node of the id
it names.  The counters of a node are the number of references of the event
that wait, and the number of references to it that are still expected.
-/

namespace Reverse.Decopus

/-- A reference that the reader has met. -/
structure Note where
  owner : Nat
  cont : Nat
  pos : Nat
  id : HweId
  deriving DecidableEq

def Note.key (note : Note) : Nat × Nat := (note.cont, note.pos)

def TraceEvent.notes (event : TraceEvent) : List Note :=
  event.conts.flatMap fun cont =>
    cont.2.refs.zipIdx.map fun (id, i) => ⟨event.main, cont.1, i, id⟩

/-- What the array `refs` has for a reference. -/
def Reader.cell (ms : Reader) (note : Note) : Option Nat :=
  (ms.conts note.cont).refs note.pos

/-- What has happened so far: the events that were read, the references that
were met, how many events were handed over, and the nodes of the others.  The
event `cur` is being read, and `pend` still waits for it.  The node of `focus`
was just looked up, `hot` may have lost its last reason to wait, and `doomed`
its last reason to stay. -/
structure Ghost where
  seen : List TraceEvent
  noted : List Note
  sent : Nat
  place : Nat → RhwePtr
  cur : Option Nat
  pend : List RefT
  focus : Option HweId
  hot : Option RhwePtr
  doomed : Option RhwePtr

namespace Ghost

def unsent (g : Ghost) : List TraceEvent := g.seen.drop g.sent

def refT (g : Ghost) (note : Note) : RefT :=
  ⟨g.place note.owner, note.cont, note.pos⟩

/-- The references to an id that are not solved. -/
def unsolved (g : Ghost) (ms : Reader) (id : HweId) : List Note :=
  g.noted.filter fun note => note.id = id && (ms.cell note).isNone

/-- The references of an event that are not solved. -/
def owed (g : Ghost) (ms : Reader) (main : Nat) : List Note :=
  g.noted.filter fun note => note.owner = main && (ms.cell note).isNone

/-- The references to an id that are solved. -/
def closed (g : Ghost) (ms : Reader) (id : HweId) : List Note :=
  g.noted.filter fun note => note.id = id && (ms.cell note).isSome

/-- What waits at a node. -/
def waiting (g : Ghost) (node : RhweT) : List RefT :=
  match node.hwe with
  | none => node.waiting
  | some main => if g.cur = some main then g.pend else []

end Ghost

/-- The containers of an event are in memory. -/
structure ReadStored (conts : Nat → ReadCont) (event : TraceEvent) : Prop where
  id : (conts event.main).id = event.id
  hwe : (conts event.main).hwe = event.hwe
  refnext : (conts event.main).refnext = event.exts.map Prod.fst
  exts : ∀ ext ∈ event.exts, (conts ext.1).hwe = ext.2

/-- The events and references that were read. -/
structure ReaderTrace (ms : Reader) (g : Ghost) : Prop where
  sent : g.sent ≤ g.seen.length
  distinct : (g.seen.map TraceEvent.id).Nodup
  serials : (g.seen.flatMap fun event => event.conts.map Prod.fst).Nodup
  bounded : ∀ event ∈ g.seen, ∀ cont ∈ event.conts, cont.1 < ms.nalloc
  stored : ∀ event ∈ g.seen, ReadStored ms.conts event
  keys : (g.noted.map Note.key).Nodup
  owners : ∀ note ∈ g.noted, ∃ event ∈ g.seen, note ∈ event.notes
  solved : ∀ note ∈ g.noted, ∀ main ∈ ms.cell note,
    ∃ event ∈ g.seen, event.id = note.id ∧ event.main = main

/-- What the node of an id says about the id. -/
structure NodeInv (ms : Reader) (g : Ghost) (id : HweId) (node : RhweT) : Prop where
  key : node.id = id
  known : ∀ main ∈ node.hwe, ∃ event ∈ g.seen, event.id = id ∧ event.main = main ∧
    (event ∈ g.unsent ∨ node.state = .commited)
  unknown : node.hwe = none →
    node.state = .unread ∧ node.missRef = 0 ∧ node.missExp = 0
  waits : (g.waiting node).Perm ((g.unsolved ms id).map g.refT)

/-- What the node of an event says that was not handed over. -/
structure EventInv (ms : Reader) (g : Ghost) (event : TraceEvent) (node : RhweT) :
    Prop where
  hwe : node.hwe = some event.main
  state : node.state = if g.cur = some event.main then .unread else .read
  missRef : node.missRef = (g.owed ms event.main).length
  complete : g.cur ≠ some event.main → ∀ note ∈ event.notes, note ∈ g.noted

/-- What a node says if no event is referenced more often than it expects. -/
structure CountInv (ms : Reader) (g : Ghost) (id : HweId) (p : RhwePtr)
    (node : RhweT) : Prop where
  present : ∀ event ∈ g.seen, event.id = id → node.hwe = some event.main
  missExp : ∀ event ∈ g.seen, event.id = id →
    node.missExp = event.expected - (g.closed ms id).length
  kept : ∀ event ∈ g.seen, event.id = id → event ∉ g.unsent →
    g.doomed ≠ some p → node.missExp ≠ 0
  noted : (∀ event ∈ g.seen, event.id ≠ id) → g.focus ≠ some id →
    ∃ note ∈ g.noted, note.id = id

/-- The nodes of the trees and of the pool. -/
structure ReaderNodes (ms : Reader) (g : Ghost) : Prop where
  trees : ∀ id, ∀ p ∈ ms.trees id, p < ms.nb ∧ p ∉ ms.free
  node : ∀ id, ∀ p ∈ ms.trees id, NodeInv ms g id (ms.nodes p)
  freeNodup : ms.free.Nodup
  freeBound : ∀ p ∈ ms.free, p < ms.nb
  fifo : ms.fifo = g.unsent.map fun event => g.place event.main
  place : ∀ event ∈ g.unsent, ms.trees event.id = some (g.place event.main)
  entry : ∀ event ∈ g.unsent, EventInv ms g event (ms.nodes (g.place event.main))
  current : ∀ main ∈ g.cur, ∃ event ∈ g.unsent, event.main = main
  hot : ∀ p ∈ ms.fifo.head?, g.hot ≠ some p →
    ¬((ms.nodes p).state = .read ∧ (ms.nodes p).missRef = 0)

/-- The references that wait. -/
structure ReaderWaits (ms : Reader) (g : Ghost) : Prop where
  absent : ∀ id, ms.trees id = none → g.unsolved ms id = []
  owner : ∀ note ∈ g.noted, ms.cell note = none →
    note.owner ∈ g.unsent.map TraceEvent.main
  waiting : g.cur = none → g.pend = []

/-- If no event is referenced more often than it expects, a node stays until
all references have come. -/
structure ReaderCounts (ms : Reader) (g : Ghost) : Prop where
  node : ∀ id, ∀ p ∈ ms.trees id, CountInv ms g id p (ms.nodes p)
  removed : ∀ event ∈ g.seen, ms.trees event.id = none →
    (g.noted.filter fun note => note.id = event.id).length = event.expected
  unread : ∀ id, (∀ event ∈ g.seen, event.id ≠ id) →
    g.closed ms id = [] ∧ (ms.trees id = none →
      g.noted.filter (fun note => note.id = id) = [])

/-- An event as it is handed over: each reference is the handle of the event
with that id. -/
def Delivered (events : List TraceEvent) (event : TraceEvent)
    (conts : List (Nat × Container (Option Nat))) : Prop :=
  ∃ handle : HweId → Nat,
    (∀ id ∈ event.refs, ∃ other ∈ events, other.id = id ∧ other.main = handle id) ∧
    conts = event.conts.map fun cont =>
      (cont.1, cont.2.map fun id => some (handle id))

def Reader.handled (ms : Reader) : List (List (Nat × Container (Option Nat))) :=
  ms.calls.filterMap fun call =>
    match call with
    | .alloc _ => none
    | .event conts => some conts

structure ReaderInv (exact : Prop) (ms : Reader) (g : Ghost) : Prop where
  trace : ReaderTrace ms g
  nodes : ReaderNodes ms g
  waits : ReaderWaits ms g
  counts : exact → ReaderCounts ms g
  log : List.Forall₂ (Delivered g.seen) (g.seen.take g.sent) ms.handled

end Reverse.Decopus
