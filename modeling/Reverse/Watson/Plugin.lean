import Reverse.Library.Runs
import Reverse.Watson.Automaton

/-!
# The Watson plugin

The plugin is called for the accesses of the caches and for the
acknowledgements of the memory.  The latter give a global order.  A read is
queued until the memory acknowledges the next access of the same cache, so that
the interval in which it happened is known when the automaton gets it.

Besides what the source has, the state records how often the plugin has been
called, the reads that the automaton was given, and the pairs of accesses that
were reported as a read after a modification.
-/

namespace Reverse.Watson

open Function

abbrev Word := BitVec 32
abbrev Byte := BitVec 8

/-- The kinds of access of `sherlock.h`. -/
inductive EventType where
  | noop
  | inst
  | read
  | write
  | merge
  | fill
  | deviceFill
  | inval
  | ackRead
  | ackWrite
  | ackModify
deriving DecidableEq, Repr

/-- What the plugin uses of an event of a cache and of the event that it refers
to. -/
structure CacheEvent where
  type : EventType
  devid : Byte
  addr : Word
  width : Byte
  cpureqAddr : Word
  cpureqWidth : Byte
  str : Bool
deriving DecidableEq, Repr

def CacheEvent.size (event : CacheEvent) : Nat := event.width.toNat + 1

/-- What the plugin uses of an event of a memory: its index and the cache that
the memory answers, if it is one. -/
structure MemEvent where
  index : Nat
  cache : Option Byte
deriving DecidableEq, Repr

inductive PluginCall where
  | cache (event : CacheEvent)
  | mem (event : MemEvent)
deriving DecidableEq, Repr

structure CacheData where
  gOrder : Nat
  pendRead : List (Word × Access)
deriving DecidableEq, Repr

structure Oracle where
  sysOrder : Nat
  nComp : Nat
  counters : Counters
  comp : Byte → Option CacheData
  mem : Word → MemData
  calls : Nat
  given : List (Word × Access)
  reports : List (Access × Access)

def maxPending : Nat := 10 * 1024 * 1024

def watsonPgInit : Oracle where
  sysOrder := 0
  nComp := 0
  counters := .zero
  comp _ := none
  mem _ := .zero
  calls := 0
  given := []
  reports := []

inductive CompType where
  | cpu
  | cache
  | mem
  | periph
deriving DecidableEq, Repr

/-- What `common_comp_t` takes for the id.  A `mem_t` has no type in front of its
id, which has 32 bits, so that the second byte of the id is read. -/
def commonId (id : Byte) : CompType → Byte
  | .cpu | .cache => id
  | .mem | .periph => (id.setWidth 32).extractLsb' 8 8

/-- Components come in the order of their ids.  For a peripheral the plugin is
called without a component. -/
def watsonPgComp (oracle : Oracle) : Option (Byte × CompType) → Option Oracle
  | none => some { oracle with nComp := (oracle.nComp + 1) % 256 }
  | some (id, type) =>
    if oracle.nComp ≠ (commonId id type).toNat then none
    else
      some { oracle with
        comp := update oracle.comp (BitVec.ofNat 8 oracle.nComp)
          (match type with
          | .cache => some { gOrder := 0, pendRead := [] }
          | .cpu | .mem | .periph => none)
        nComp := (oracle.nComp + 1) % 256 }

/-- A problem of a read after a modification has been counted. -/
def readCounted (before after : Counters) : Bool :=
  before.problem.modReadAck + before.problem.modReadReq <
    after.problem.modReadAck + after.problem.modReadReq

def dfaCoherence (oracle : Oracle) (addr : Word) (access : Access)
    (event : CoherenceEvent) : Option Oracle :=
  (watsonDfaWriteback (oracle.mem addr) oracle.counters access event).map
    fun (data, counters) =>
      { oracle with
        mem := update oracle.mem addr data
        counters := counters
        given :=
          if event = .readAck then oracle.given ++ [(addr, access)]
          else oracle.given
        reports :=
          if readCounted oracle.counters counters then
            oracle.reports ++ [((oracle.mem addr).modifier, access)]
          else oracle.reports }

/-- The functions `watson_event_to_reader` and `watson_event_to_writer`. -/
def watsonEventToAccess (oracle : Oracle) (event : CacheEvent) : Option Access :=
  (oracle.comp event.devid).map fun cache =>
    { id := event.devid, preOrder := cache.gOrder, posOrder := 0
      call := oracle.calls }

def watsonPendingReadAck (oracle : Oracle) (event : CacheEvent) (addr : Word) : Option Oracle :=
  (oracle.comp event.devid).bind fun cache =>
    if maxPending < cache.pendRead.length then none
    else
      (watsonEventToAccess oracle event).map fun reader =>
        { oracle with
          comp := update oracle.comp event.devid
            (some { cache with
              pendRead := cache.pendRead ++ [(addr, reader)] }) }

def CacheEvent.bytes (event : CacheEvent) : List Word :=
  (List.range event.size).map fun i => event.addr + BitVec.ofNat 32 i

/-- The automaton is given all bytes of an access. -/
def coherenceLoop (oracle : Oracle) (event : CacheEvent)
    (kind : Word → CoherenceEvent) : Option Oracle :=
  (watsonEventToAccess oracle event).bind fun access =>
    event.bytes.foldlM
      (fun oracle addr =>
        dfaCoherence oracle addr { access with posOrder := access.preOrder } (kind addr))
      oracle

/-- A byte of the line that the processor has not asked for is allocated. -/
def CacheEvent.readKind (event : CacheEvent) (addr : Word) : CoherenceEvent :=
  if event.str then .allocReq
  else if addr < event.cpureqAddr ∨
      event.cpureqAddr + event.cpureqWidth.setWidth 32 < addr then .allocReq
  else .readReq

def watsonPgExecCache (oracle : Oracle) (event : CacheEvent) : Option Oracle :=
  match event.type with
  | .ackRead =>
    event.bytes.foldlM (fun oracle addr => watsonPendingReadAck oracle event addr) oracle
  | .ackModify => coherenceLoop oracle event fun _ => .modifyAck
  | .read => coherenceLoop oracle event event.readKind
  | .write => coherenceLoop oracle event fun _ => .writeReq
  | _ => some oracle

def watsonCacheGOrder (oracle : Oracle) (id : Byte) (order : Nat) : Option Oracle :=
  (oracle.comp id).bind fun cache =>
    (cache.pendRead.foldlM
      (fun oracle pend =>
        dfaCoherence oracle pend.1 { pend.2 with posOrder := order } .readAck)
      oracle).map fun after =>
        { after with
          comp := update after.comp id (some { gOrder := order, pendRead := [] }) }

def watsonPgExecMem (oracle : Oracle) (event : MemEvent) : Option Oracle :=
  match event.cache with
  | none => some oracle
  | some id =>
    let order := if oracle.sysOrder < event.index then event.index else oracle.sysOrder
    watsonCacheGOrder { oracle with sysOrder := order } id order

def pluginExec (oracle : Oracle) : PluginCall → Option Oracle
  | .cache event => watsonPgExecCache oracle event
  | .mem event => watsonPgExecMem oracle event

def pluginStep (oracle : Oracle) (call : PluginCall) : Option Oracle :=
  (pluginExec oracle call).map fun after =>
    { after with calls := after.calls + 1 }

/-- The loop of `watson_pg_exit`, which goes on while the counter is larger
than the number of components. -/
def exitLoop : Nat → Nat → Oracle → Option Oracle
  | 0, _, _ => none
  | fuel + 1, i, oracle =>
    if oracle.nComp < i then
      match oracle.comp (BitVec.ofNat 8 i) with
      | none => exitLoop fuel (i + 1) oracle
      | some _ =>
        let order := oracle.sysOrder + 1
        (watsonCacheGOrder { oracle with sysOrder := order }
          (BitVec.ofNat 8 i) order).bind (exitLoop fuel (i + 1))
    else some oracle

def watsonPgExit (oracle : Oracle) : Option Oracle := exitLoop 256 0 oracle

/-- The plugin from its start to its end. -/
def watsonRun (components : List (Option (Byte × CompType)))
    (calls : List PluginCall) : Option Oracle :=
  (components.foldlM watsonPgComp watsonPgInit).bind fun oracle =>
    (calls.foldlM pluginStep oracle).bind watsonPgExit

/-- The loop of `watson_pg_exit` does nothing. -/
theorem watsonPgExit_eq (oracle : Oracle) : watsonPgExit oracle = some oracle := by
  simp [watsonPgExit, exitLoop]

end Reverse.Watson
