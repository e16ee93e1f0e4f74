import Reverse.Library.Tasks
import Reverse.Decopus.TraceFile

/-!
# The event handler

The functions of `hwe_handle_implem.h` that a plugin is built on.  Committed
events pass the stages `init`, `go` and `ret`, and their containers go back to
a list of unused events.  `check_init`, `check_go` and `check_ret` call each
other through the lists they walk, so what is left of each call is a task.

Counters are `int` in the source, and no run has the events to overflow them.
A list is taken as it is when a loop starts to walk it, since the calls in the
loop only put elements in front.
-/

namespace Reverse.Decopus

open Function

/-- The address of an `event_t` in its pool. -/
abbrev EventPtr := Nat

/-- A `hwe_cont` in memory but for its id, with references to events where a
record of the file has ids.  The type is part of the body. -/
structure Container (ρ : Type) where
  expected : BitVec 32
  nchild : BitVec 32
  comChild : BitVec 32
  dates : List (BitVec 64)
  refs : List ρ
  body : Body
  datesFit : dates.length ≤ 2
  refsFit : refs.length ≤ 16

def Container.empty {ρ : Type} : Container ρ :=
  ⟨0, 0, 0, [], [], .null, Nat.zero_le _, Nat.zero_le _⟩

/-- The same container with other references. -/
def Container.map {ρ κ : Type} (pointer : ρ → κ) (container : Container ρ) : Container κ :=
  { container with
    refs := container.refs.map pointer
    refsFit := by simpa using container.refsFit }

/-- The container as it is written.  The field `rid` is set on the way. -/
def Container.cont {ρ : Type} (container : Container ρ) (id : HweId) (name : ρ → HweId) : Cont where
  common :=
    { id := id, rid := 0, expected := container.expected
      nchild := container.nchild, comChild := container.comChild
      ndates := .ofNat 2 container.dates.length, dates := container.dates
      nrefs := .ofNat 6 container.refs.length
      refs := container.refs.map name
      datesSize := by
        have fit := container.datesFit
        rw [BitVec.toNat_ofNat]
        omega
      refsSize := by
        have fit := container.refsFit
        rw [BitVec.toNat_ofNat, List.length_map]
        omega }
  body := container.body

/-- The values of `stage_t` that are passed to a function. -/
inductive Stage where
  | init
  | go
  | ret
  deriving DecidableEq

/-- The fifo of a component, or one that a plugin has. -/
inductive Fifo where
  | comp (devid : BitVec 8)
  | user (number : Nat)
  deriving DecidableEq

/-- An `evptr_t` in a list of user-set followers: a stage of an event that is
blocked, or the membership in a fifo. -/
inductive Link where
  | barrier (event : EventPtr) (stage : Stage)
  | fifo (fifo : Fifo)
  deriving DecidableEq

/-- The structure `event_stage` but for its callback. -/
structure EventStage where
  cnt : Int
  done : Bool
  usrfol : List Link
  deriving DecidableEq

/-- The structure `event_t` with its container.  The list `refnext` has the
further containers of the event, and `serial` counts the calls of `event_new`
so that two uses of one address can be told apart. -/
@[ext]
structure EventT where
  id : HweId
  hwe : Container EventPtr
  refnext : List EventPtr
  commited : Bool
  missref : Int
  missfol : Int
  followers : List EventPtr
  init : EventStage
  go : EventStage
  ret : EventStage
  serial : Nat

def EventT.stage (event : EventT) : Stage → EventStage
  | .init => event.init
  | .go => event.go
  | .ret => event.ret

def EventT.setStage (event : EventT) (stage : Stage) (value : EventStage) :
    EventT :=
  match stage with
  | .init => { event with init := value }
  | .go => { event with go := value }
  | .ret => { event with ret := value }

/-- The global variables of the handler, and those of its plugin in `user`.  An
entry of the component array is present or not.  The last two fields are a
record of the calls of `event_new` and `event_recycle`: the address of each new
event, and the serial number of each one put back. -/
@[ext]
structure Handler (υ : Type) where
  events : EventPtr → EventT
  list : List EventPtr
  nb : Nat
  fifos : Fifo → Option (EventPtr × Stage)
  comp : List Bool
  startDone : Bool
  user : υ
  births : List EventPtr
  recycled : List Nat

variable {υ : Type}

@[simps list nb fifos comp startDone user births recycled]
def Handler.modify (handler : Handler υ) (event : EventPtr)
    (change : EventT → EventT) : Handler υ :=
  { handler with
    events :=
      update handler.events event (change (handler.events event)) }

@[simp]
theorem Handler.modify_events (handler : Handler υ) (event : EventPtr)
    (change : EventT → EventT) (x : EventPtr) :
    (handler.modify event change).events x =
      if x = event then change (handler.events x) else handler.events x := by
  by_cases same : x = event
  · subst same
    simp [Handler.modify]
  · simp [Handler.modify, same]

theorem Handler.modify_modify (handler : Handler υ) (event : EventPtr)
    (first second : EventT → EventT) :
    (handler.modify event first).modify event second = handler.modify event (second ∘ first) := by
  simp [Handler.modify]

def EventStage.empty : EventStage := ⟨0, false, []⟩

def eventInit (event : EventT) : EventT :=
  { event with
    commited := false
    missref := 0
    missfol := 0
    followers := []
    init := .empty
    go := .empty
    ret := .empty }

/-- The address of an unused event, or of one more from the pool. -/
def eventNext (handler : Handler υ) : EventPtr :=
  handler.list.headD handler.nb

def eventNew (handler : Handler υ) : Handler υ :=
  { handler with
    list := handler.list.tail
    nb := if handler.list = [] then handler.nb + 1 else handler.nb
    births := handler.births ++ [eventNext handler] }.modify
    (eventNext handler)
    fun event => { eventInit event with serial := handler.births.length }

def eventRecycle (handler : Handler υ) (event : EventPtr) : Handler υ :=
  { handler with
    list := event :: handler.list
    recycled := handler.recycled ++ [(handler.events event).serial] }

def handleStart (user : υ) : Handler υ where
  events := fun _ =>
    ⟨⟨0, 0⟩, .empty, [], false, 0, 0, [], .empty, .empty, .empty, 0⟩
  list := []
  nb := 0
  fifos := fun _ => none
  comp := List.replicate 16 false
  startDone := false
  user := user
  births := []
  recycled := []

def setBarrier (handler : Handler υ) (evsrc : EventPtr) (stsrc : Stage)
    (evdst : EventPtr) (stdst : Stage) : Handler υ :=
  let counted := handler.modify evdst fun event =>
    let stage := event.stage stdst
    event.setStage stdst { stage with cnt := stage.cnt + 1 }
  counted.modify evsrc fun event =>
    let stage := event.stage stsrc
    event.setStage stsrc { stage with usrfol := .barrier evdst stdst :: stage.usrfol }

def putInfifo (handler : Handler υ) (fifo : Fifo) (ev : EventPtr) (stg : Stage) : Handler υ :=
  let barred :=
    match handler.fifos fifo with
    | some (queue, stage) => setBarrier handler queue stage ev stg
    | none => handler
  let queued := { barred with fifos := update barred.fifos fifo (some (ev, stg)) }
  queued.modify ev fun event =>
    let stage := event.stage stg
    event.setStage stg { stage with usrfol := .fifo fifo :: stage.usrfol }

def rmFrfifo (handler : Handler υ) (fifo : Fifo) (ev : EventPtr) : Handler υ :=
  if (handler.fifos fifo).map Prod.fst = some ev then
    { handler with fifos := update handler.fifos fifo none }
  else handler

/-- What a plugin defines: the stages it uses, and its functions. -/
structure Plugin (υ : Type) where
  useStageGo : Bool
  useStageRet : Bool
  processComponent : EventPtr → Handler υ → Handler υ
  processStart : Handler υ → Handler υ
  callback : Stage → EventPtr → Handler υ → Handler υ

/-- What is left of a call. -/
inductive Task where
  | checkInit (e : EventPtr)
  | checkGo (e : EventPtr)
  | checkRet (e : EventPtr)
  | unlock (e : EventPtr) (stage : Stage)
  | unlocking (e : EventPtr) (links : List Link)
  | initDone (e : EventPtr)
  | goFollowers (e : EventPtr)
  | following (followers : List EventPtr)
  | goDone (e : EventPtr)
  | release (conts : List EventPtr)
  | releaseRefs (refs : List EventPtr)
  | recycle (e : EventPtr)
  | retDone (e : EventPtr)
  | wake (followers : List EventPtr)
  | commit (e : EventPtr)

def Task.check : Stage → EventPtr → Task
  | .init => .checkInit
  | .go => .checkGo
  | .ret => .checkRet

/-- The counter of `free_barrier`, before the check. -/
def freeBarrier (handler : Handler υ) (event : EventPtr) (stage : Stage) : Handler υ :=
  handler.modify event fun event =>
    event.setStage stage { event.stage stage with cnt := (event.stage stage).cnt - 1 }

def Handler.conts (handler : Handler υ) (e : EventPtr) : List EventPtr :=
  e :: (handler.events e).refnext

def exec (plugin : Plugin υ) (task : Task) (handler : Handler υ) : List Task × Handler υ :=
  match task with
  | .checkInit e =>
    let event := handler.events e
    if event.commited ∧ event.missref = 0 ∧ event.init.cnt = 0 then
      ([.unlock e .init, .initDone e], plugin.callback .init e handler)
    else ([], handler)
  | .unlock e stage =>
    ([.unlocking e ((handler.events e).stage stage).usrfol], handler)
  | .unlocking _ [] => ([], handler)
  | .unlocking e (.barrier event stage :: links) =>
    ([.check stage event, .unlocking e links], freeBarrier handler event stage)
  | .unlocking e (.fifo fifo :: links) =>
    ([.unlocking e links], rmFrfifo handler fifo e)
  | .initDone e =>
    ([.checkGo e], handler.modify e fun event =>
      { event with init := { event.init with usrfol := [], done := true } })
  | .checkGo e =>
    let event := handler.events e
    if event.init.done = false then ([], handler)
    else if plugin.useStageGo then
      if event.go.cnt ≠ 0 then ([], handler)
      else
        ([.unlock e .go, .goFollowers e], plugin.callback .go e handler)
    else ([.goDone e], handler)
  | .goFollowers e =>
    ([.following (handler.events e).followers, .goDone e],
      handler.modify e fun event =>
        { event with go := { event.go with usrfol := [] } })
  | .following [] => ([], handler)
  | .following (follower :: followers) =>
    ([.checkGo follower, .following followers],
      handler.modify follower fun event =>
        { event with go := { event.go with cnt := event.go.cnt - 1 } })
  | .goDone e =>
    ([.checkRet e], handler.modify e fun event =>
      { event with
        followers := [], go := { event.go with done := true } })
  | .checkRet e =>
    let event := handler.events e
    if event.go.done = false ∨ event.missfol ≠ 0 then ([], handler)
    else if plugin.useStageRet then
      if event.ret.cnt ≠ 0 then ([], handler)
      else
        ([.release (handler.conts e), .unlock e .ret, .retDone e], plugin.callback .ret e handler)
    else ([], (handler.conts e).foldl eventRecycle handler)
  | .release [] => ([], handler)
  | .release (cur :: conts) =>
    ([.releaseRefs (handler.events cur).hwe.refs, .recycle cur, .release conts], handler)
  | .releaseRefs [] => ([], handler)
  | .releaseRefs (ref :: refs) =>
    ([.checkRet ref, .releaseRefs refs], handler.modify ref fun event =>
      { event with ret := { event.ret with cnt := event.ret.cnt - 1 } })
  | .recycle e => ([], eventRecycle handler e)
  | .retDone e =>
    ([], handler.modify e fun event =>
      { event with ret := { event.ret with usrfol := [] } })
  | .wake [] => ([], handler)
  | .wake (follower :: followers) =>
    ([.checkInit follower, .wake followers],
      handler.modify follower fun event =>
        { event with missref := event.missref - 1 })
  | .commit e =>
    ([.checkInit e], handler.modify e fun event =>
      { event with commited := true })

section HandleEvent

variable (plugin : Plugin υ)

/-- The body of the loop on references. -/
def noteReference (e : EventPtr) (handler : Handler υ) (ref : EventPtr) : Handler υ :=
  let missed :=
    if (handler.events ref).commited then handler
    else handler.modify e fun event =>
      { event with missref := event.missref + 1 }
  let followed :=
    if (missed.events ref).go.done then missed
    else
      let pushed := missed.modify ref fun event =>
        { event with followers := e :: event.followers }
      if plugin.useStageGo then
        pushed.modify e fun event =>
          { event with go := { event.go with cnt := event.go.cnt + 1 } }
      else pushed
  followed.modify ref fun event =>
    { event with
      missfol := event.missfol - 1
      ret :=
        if plugin.useStageRet then
          { event.ret with cnt := event.ret.cnt + 1 }
        else event.ret }

def Handler.refs (handler : Handler υ) (e : EventPtr) : List EventPtr :=
  (handler.conts e).flatMap fun cur => (handler.events cur).hwe.refs

/-- What is done with a committed event before the first check. -/
def registerEvent (handler : Handler υ) (e : EventPtr) : Handler υ :=
  let queued := putInfifo handler (.comp (handler.events e).id.devid) e .init
  let expecting := queued.modify e fun event =>
    { event with missfol := event.missfol + event.hwe.expected.toNat }
  (expecting.refs e).foldl (noteReference plugin e) expecting

/-- A component is registered once.  The array doubles once, and an id beyond
it is stored outside. -/
def registerComponent (handler : Handler υ) (e : EventPtr) : Option (Handler υ) :=
  let devid := (handler.events e).id.devid
  let comp :=
    if handler.comp.length ≤ devid.toNat then
      handler.comp ++ List.replicate handler.comp.length false
    else handler.comp
  if comp[devid.toNat]? = some false then
    some (eventRecycle
      (plugin.processComponent e
        { handler with
          comp := comp.set devid.toNat true
          fifos := update handler.fifos (.comp devid) none }) e)
  else none

/-- An event of a component that is not registered has no fifo to enter. -/
def traceEvent (fuel : Nat) (handler : Handler υ) (e : EventPtr) : Option (Handler υ) :=
  if handler.comp[(handler.events e).id.devid.toNat]? = some true then
    let registered := registerEvent plugin handler e
    Tasks.run (exec plugin) fuel [.wake (registered.events e).followers, .commit e] registered
  else none

def handleEvent (fuel : Nat) (handler : Handler υ) (e : EventPtr) : Option (Handler υ) :=
  if handler.startDone then traceEvent plugin fuel handler e
  else
    match (handler.events e).hwe.body with
    | .info _ => registerComponent plugin handler e
    | _ =>
      traceEvent plugin fuel { plugin.processStart handler with startDone := true } e

end HandleEvent

end Reverse.Decopus
