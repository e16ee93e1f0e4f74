import Reverse.Decopus.Handler

/-!
# Runs of the trace writer

The plugin `hwetrace_write` uses the stage `init` alone, to write an event.
Its clients allocate containers, fill them and hand them over.  Here a client
names a container by its serial number, that is by the call of `handle_alloc`
that returned it, and refers to it with the address it got from that call.
-/

namespace Reverse.Decopus

open Option

/-- The variables of the writer, and a record of the calls of `buffer_event`
with the containers as they were written. -/
structure WriterLog where
  writer : Writer
  calls : List (Cont × List Cont)

def WriterLog.start : WriterLog := ⟨Writer.start, []⟩

def WriterLog.write (log : WriterLog) (call : Cont × List Cont) : WriterLog :=
  ⟨bufferEvent log.writer call.1 call.2, log.calls ++ [call]⟩

section

variable {υ : Type}

/-- A container with the ids that its references have now. -/
def Handler.cont (handler : Handler υ) (e : EventPtr) : Cont :=
  (handler.events e).hwe.cont (handler.events e).id fun ref =>
    (handler.events ref).id

/-- What `buffer_event` writes of an event. -/
def Handler.record (handler : Handler υ) (e : EventPtr) : Cont × List Cont :=
  (handler.cont e, (handler.events e).refnext.map handler.cont)

end

def writeEvent (e : EventPtr) (handler : Handler WriterLog) : Handler WriterLog :=
  { handler with user := handler.user.write (handler.record e) }

def hwetraceWrite : Plugin WriterLog where
  useStageGo := false
  useStageRet := false
  processComponent := writeEvent
  processStart := id
  callback := fun _ => writeEvent

/-- An event as a client hands it over, with the serial numbers of its
containers and of the events they refer to. -/
structure Commit where
  main : Nat
  hwe : Container Nat
  exts : List (Nat × Container Nat)

def Commit.serials (commit : Commit) : List Nat :=
  commit.main :: commit.exts.map Prod.fst

def Commit.refs (commit : Commit) : List Nat :=
  commit.hwe.refs ++ commit.exts.flatMap fun ext => ext.2.refs

def Commit.expected (commit : Commit) : Nat := commit.hwe.expected.toNat

def Commit.isInfo (commit : Commit) : Bool :=
  match commit.hwe.body with
  | .info _ => true
  | _ => false

/-- The ids given to containers and the events handed over, in order. -/
structure History where
  names : List HweId
  commits : List Commit

namespace History

def name (history : History) (serial : Nat) : HweId :=
  history.names.getD serial ⟨0, 0⟩

/-- How often an event has been referenced. -/
def references (history : History) (serial : Nat) : Nat :=
  (history.commits.flatMap Commit.refs).count serial

/-- A container that has not been handed over. -/
def Held (history : History) (serial : Nat) : Prop :=
  serial < history.names.length ∧ serial ∉ history.commits.flatMap Commit.serials

/-- What a client may hand over: containers that it holds, with references to
events that have been allocated. -/
structure Ready (history : History) (commit : Commit) : Prop where
  distinct : commit.serials.Nodup
  held : ∀ serial ∈ commit.serials, history.Held serial
  allocated : ∀ serial ∈ commit.refs, serial < history.names.length

/-- The record of an event in which each reference has the id of the event
that the client refers to. -/
def record (history : History) (commit : Commit) : Cont × List Cont :=
  let id := history.name commit.main
  (commit.hwe.cont id history.name, commit.exts.map fun ext => ext.2.cont id history.name)

/-- No event is referenced more often than it expects to be, and no additional
container is referenced. -/
def Within (history : History) : Prop :=
  ∀ commit ∈ history.commits,
    history.references commit.main ≤ commit.expected ∧
      ∀ ext ∈ commit.exts, history.references ext.1 = 0

/-- Every event is referenced as often as it expects to be. -/
def Balanced (history : History) : Prop :=
  ∀ commit ∈ history.commits,
    history.references commit.main = commit.expected ∧
      ∀ ext ∈ commit.exts, history.references ext.1 = 0

instance (history : History) : Decidable history.Balanced :=
  inferInstanceAs (Decidable (∀ commit ∈ history.commits,
    history.references commit.main = commit.expected ∧
      ∀ ext ∈ commit.exts, history.references ext.1 = 0))

/-- Every container has been handed over. -/
def Complete (history : History) : Prop :=
  ∀ serial, ¬ history.Held serial

instance (history : History) : Decidable history.Complete :=
  decidable_of_iff (∀ serial < history.names.length,
      serial ∈ history.commits.flatMap Commit.serials)
    ⟨fun handed serial held => held.2 (handed serial held.1),
      fun complete serial allocated => Decidable.byContradiction fun free =>
        complete serial ⟨allocated, free⟩⟩

def allocate (history : History) (id : HweId) : History :=
  { history with names := history.names ++ [id] }

def hand (history : History) (commit : Commit) : History :=
  { history with commits := history.commits ++ [commit] }

end History

section

variable {υ : Type}

/-- A client allocates a container and gives it its id. -/
def allocate (handler : Handler υ) (id : HweId) : Handler υ :=
  (eventNew handler).modify (eventNext handler) fun event =>
    { event with id := id }

/-- The address that the client got with a container. -/
def Handler.pointer (handler : Handler υ) (serial : Nat) : EventPtr :=
  handler.births.getD serial 0

/-- A client fills the containers of an event.  To the additional ones
`hwe_extend` has given the id of the main one. -/
def fill (handler : Handler υ) (commit : Commit) : Handler υ :=
  let main := handler.pointer commit.main
  { handler with
    events := fun x =>
      let event := handler.events x
      if x = main then
        { event with
          hwe := commit.hwe.map handler.pointer
          refnext := commit.exts.map fun ext => handler.pointer ext.1 }
      else
        match commit.exts.find? fun ext => handler.pointer ext.1 = x with
        | some ext =>
          { event with
            id := (handler.events main).id
            hwe := ext.2.map handler.pointer }
        | none => event }

end

/-- The client fills the containers and `handle_event` returns. -/
def Handled (handler : Handler WriterLog) (commit : Commit) (after : Handler WriterLog) : Prop :=
  ∃ fuel, handleEvent hwetraceWrite fuel (fill handler commit)
    (handler.pointer commit.main) = some after

/-- Runs of the trace writer in which every call meets a condition on the state
before it. -/
inductive Run (allocating : Handler WriterLog → Prop)
    (committing : Handler WriterLog → Commit → Prop) :
    History → Handler WriterLog → Prop where
  | start : Run allocating committing ⟨[], []⟩ (handleStart .start)
  | alloc (id : HweId) (run : Run allocating committing history handler)
      (condition : allocating handler) :
      Run allocating committing (history.allocate id) (allocate handler id)
  | commit (commit : Commit) (run : Run allocating committing history handler)
      (ready : history.Ready commit) (condition : committing handler commit)
      (handled : Handled handler commit after) :
      Run allocating committing (history.hand commit) after

/-- What a client does. -/
inductive Action where
  | alloc (id : HweId)
  | commit (commit : Commit)

instance (history : History) (commit : Commit) : Decidable (history.Ready commit) :=
  decidable_of_iff
    (commit.serials.Nodup ∧
      (∀ serial ∈ commit.serials, serial < history.names.length ∧
        serial ∉ history.commits.flatMap Commit.serials) ∧
      ∀ serial ∈ commit.refs, serial < history.names.length)
    ⟨fun ⟨distinct, held, allocated⟩ => ⟨distinct, held, allocated⟩,
      fun ready => ⟨ready.distinct, ready.held, ready.allocated⟩⟩

def perform (state : History × Handler WriterLog) : Action → Option (History × Handler WriterLog)
  | .alloc id => some (state.1.allocate id, allocate state.2 id)
  | .commit commit =>
    if state.1.Ready commit then
      (handleEvent hwetraceWrite 64 (fill state.2 commit)
        (state.2.pointer commit.main)).map fun after =>
          (state.1.hand commit, after)
    else none

theorem noRefs_fit : ([] : List Nat).length ≤ 16 := by decide

theorem oneRef_fit : [1].length ≤ 16 := by decide

/-- The information about a processor. -/
def infoCommit (main : Nat) : Commit where
  main := main
  hwe :=
    { expected := 0, nchild := 0, comChild := 0, dates := [], refs := []
      body := .info
        { version := hweVersion, nsize := 0, name := [], detail := .processor 1
          nameSize := noName_size }
      datesFit := by decide, refsFit := by decide }
  exts := []

/-- An event without data. -/
def nullCommit (main : Nat) (expected : BitVec 32) (refs : List Nat)
    (fit : refs.length ≤ 16) : Commit where
  main := main
  hwe :=
    { (Container.empty : Container Nat) with
      expected := expected, refs := refs, refsFit := fit }
  exts := []

def play (script : List Action) : Option (History × Handler WriterLog) :=
  script.foldlM perform (⟨[], []⟩, handleStart .start)

/-- A script meets conditions if each of its calls does. -/
def Meets (allocating : Handler WriterLog → Prop) (committing : Handler WriterLog → Commit → Prop)
    (handler : Handler WriterLog) : Action → Prop
  | .alloc _ => allocating handler
  | .commit commit => committing handler commit

instance {allocating : Handler WriterLog → Prop} {committing : Handler WriterLog → Commit → Prop}
    [DecidablePred allocating] [DecidableRel committing] (handler : Handler WriterLog) :
    (action : Action) → Decidable (Meets allocating committing handler action)
  | .alloc _ => inferInstanceAs (Decidable (allocating handler))
  | .commit commit => inferInstanceAs (Decidable (committing handler commit))

theorem Run.perform (run : Run allocating committing before.1 before.2)
    (meets : Meets allocating committing before.2 action)
    (performed : perform before action = some after) :
    Run allocating committing after.1 after.2 := by
  cases action with
  | alloc id =>
    cases performed
    exact .alloc id run meets
  | commit commit =>
    simp only [Decopus.perform, ite_none_right_eq_some, map_eq_some_iff] at performed
    obtain ⟨ready, last, handled, rfl⟩ := performed
    exact .commit commit run ready meets ⟨64, handled⟩

theorem Run.script {script : List Action} (run : Run allocating committing before.1 before.2)
    (meets : ∀ n, ∀ action ∈ script[n]?,
      ∀ middle ∈ (script.take n).foldlM Decopus.perform before,
        Meets allocating committing middle.2 action)
    (performed : script.foldlM Decopus.perform before = some after) :
    Run allocating committing after.1 after.2 := by
  induction script generalizing before with
  | nil =>
    cases performed
    exact run
  | cons action script ih =>
    rw [List.foldlM_cons] at performed
    obtain ⟨middle, first, rest⟩ := bind_eq_some_iff.mp performed
    apply ih _ _ rest
    · exact run.perform (meets 0 action rfl before rfl) first
    · intro n later found state reached
      apply meets (n + 1) later found state
      rw [List.take_succ_cons, List.foldlM_cons]
      exact bind_eq_some_iff.mpr ⟨middle, first, reached⟩

theorem run_meets (played : play script = some state)
    (meets : ∀ n < script.length, ∀ action ∈ script[n]?,
      ∀ middle ∈ play (script.take n), Meets allocating committing middle.2 action) :
    Run allocating committing state.1 state.2 := by
  apply Run.script .start _ played
  intro n action found
  exact meets n (List.getElem?_eq_some_iff.mp found).1 action found

theorem run_play (played : play script = some state) :
    Run (fun _ => True) (fun _ _ => True) state.1 state.2 := by
  apply Run.script .start _ played
  intro n action _ middle _
  cases action <;> trivial

end Reverse.Decopus
