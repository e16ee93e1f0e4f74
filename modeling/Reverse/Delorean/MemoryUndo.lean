import Reverse.Delorean.Walk

/-!
# Undoing stores

A store changes the word under the key `addr >> 2`.  Reversing it writes to
the word under the key `addr`, and what it writes is the value that the store
itself recorded, or zero for the first store.  The stores that are undone all
the same are described exactly.
-/

namespace Reverse.Delorean

open Sherlock Library Function

def memValues (oracle : Oracle) (key : Word) : Word :=
  (oracle.table.get key).value

/-- The value a store leaves in its word. -/
def stored (table : HashTable) (store : StoreEvent) : Word :=
  memMerge store.addr store.data store.width (table.get (memKey store.addr)).value

/-- The value that reversing a store writes. -/
def putBack (table : HashTable) (store : StoreEvent) : Word :=
  if (table.get (memKey store.addr)).lastWrite = none then 0
  else stored table store

/-- The store can be undone: reversing it does not touch a wrong word, and
writes what the right word had. -/
def StoreUndone (table : HashTable) (store : StoreEvent) : Prop :=
  if memKey store.addr = store.addr then
    putBack table store = (table.get store.addr).value
  else
    stored table store = (table.get (memKey store.addr)).value ∧
      putBack table store = (table.get store.addr).value

/-- What `mem_reverse_exec` writes for a node. -/
def MemData.reversed (data : MemData) : Word :=
  match data.lastWrite with
  | none => 0
  | some _ => data.value

theorem memReverseExec_values (table : HashTable) (data : MemData) (key : Word) :
    ((memReverseExec table data).get key).value =
      if key = data.addr then data.reversed else (table.get key).value := by
  cases edge : data.lastWrite with
  | none =>
    simp only [memReverseExec, edge, HashTable.get_put, MemData.reversed]
    split <;> rfl
  | some node =>
    simp only [memReverseExec, edge, HashTable.get_put, MemData.reversed]
    split <;> rfl

/-- What recording a store does to the memory and to the heap. -/
structure RecordedStore (oracle : Oracle) (last : NodeId) (next : Oracle)
    (store : StoreEvent) : Prop where
  values : memValues next =
    update (memValues oracle) (memKey store.addr)
      (stored oracle.table store)
  node : ∃ data, data.id.isSome ∧ data.addr = store.addr ∧
    data.reversed = putBack oracle.table store ∧
    Appended oracle last (.mem data) next

theorem memRetAck_store (current : oracle.lastExec = some last) (allocated : last < oracle.fresh)
    (recorded : memRetAck oracle store = some next) :
    RecordedStore oracle last next store := by
  obtain ⟨instr, heap, _, table⟩ := deloreanPgExecMem_appended recorded current allocated
  constructor
  · funext key
    rw [memValues, table, HashTable.get_put, update_apply]
    by_cases same : key = memKey store.addr
    · simp [same, get_memExec, stored]
    · simp [same, get_memExec, memValues]
  · refine ⟨_, rfl, rfl, ?_, heap.fresh, heap.lastExec, heap.added,
      heap.linked, heap.core, heap.back, heap.forth⟩
    simp only [MemData.reversed, get_memExec, if_true, putBack, stored]
    split <;> simp_all

/-- A history in which only stores are recorded. -/
def OnlyStores {start : Oracle} (history : History start) : Prop :=
  ∀ event ∈ history.events, ∃ store, event = .store store

section Unwinding

variable {start : Oracle} {history : History start} {base first : Nat}

theorem store_step (empty : Chain base first 0 start) (current : start.lastExec = some base)
    (found : history.events[pos]? = some (.store store)) :
    RecordedStore (history.state pos) (nodeAt base first pos)
      (history.state (pos + 1)) store := by
  have inside : pos ≤ history.length := Nat.le_of_lt (List.getElem?_eq_some_iff.mp found).1
  obtain ⟨chain, here⟩ := history.chain empty current inside
  exact memRetAck_store here (chain.allocated (Nat.le_refl _)) (history.step found)

def undoEvent (history : History start) (pos : Nat) (values : Word → Word) : Word → Word :=
  match history.events[pos]? with
  | some (.store store) => update values store.addr
      (putBack (history.state pos).table store)
  | _ => values

section

variable (empty : Chain base first 0 start) (current : start.lastExec = some base)

include empty current

/-- Reversing the store at a position undoes it on the memory words. -/
theorem reverse_store (stores : OnlyStores history) (inside : pos < history.length)
    (nodes : oracle.nodes = history.tip.nodes)
    (stands : oracle.lastExec = some (nodeAt base first (pos + 1))) :
    ∃ next, reverseStep oracle = some next ∧
      next.nodes = history.tip.nodes ∧
      next.lastExec = some (nodeAt base first pos) ∧
      memValues next = undoEvent history pos (memValues oracle) := by
  have found := List.getElem?_eq_getElem inside
  obtain ⟨store, isStore⟩ := stores _ (List.mem_of_getElem? found)
  rw [isStore] at found
  obtain ⟨data, named, addr, reversed, appended⟩ := (store_step empty current found).node
  obtain ⟨id, named⟩ := Option.isSome_iff_exists.mp named
  have content := NodeData.core_eq_mem (history.tip_core empty current inside appended)
  rw [← nodes] at content
  have before : (history.tip.nodes
      (nodeAt base first (pos + 1))).lastExec = some (nodeAt base first pos) :=
    (history.chain empty current (Nat.le_refl history.length)).1.back pos inside
  rw [← nodes] at before
  obtain ⟨next, result, _, nextNodes, _, lastExec, table⟩ := reverseStep_mem stands content named
  refine ⟨next, result, nextNodes.trans nodes, lastExec.trans before, ?_⟩
  funext key
  simp only [memValues, table, memReverseExec_values, undoEvent, found, addr,
    reversed, update_apply]

theorem replay_back_values (stores : OnlyStores history) (bounded : count ≤ history.length) :
    ∃ last, replay (List.replicate count .back) history.tip = some last ∧
      last.nodes = history.tip.nodes ∧
      last.lastExec = some (nodeAt base first (history.length - count)) ∧
      memValues last = unwind (undoEvent history) history.length count (memValues history.tip) := by
  induction count with
  | zero =>
    exact ⟨history.tip, rfl, rfl, (history.chain empty current (Nat.le_refl _)).2, rfl⟩
  | succ count ih =>
    obtain ⟨middle, replayed, nodes, stands, values⟩ := ih (Nat.le_of_succ_le bounded)
    have here : history.length - count = history.length - (count + 1) + 1 := by omega
    rw [here] at stands
    obtain ⟨last, reversed, lastNodes, lastExec, lastValues⟩ :=
      reverse_store empty current stores (by omega) nodes stands
    refine ⟨last, ?_, lastNodes, lastExec, ?_⟩
    · rw [List.replicate_succ', replay_append, replayed]
      simp [replay, reversed]
    · rw [lastValues, values, unwind]

/-- One store is undone from the memory it led to exactly when it meets the
condition. -/
theorem undoEvent_iff (found : history.events[pos]? = some (.store store))
    :
    undoEvent history pos (memValues (history.state (pos + 1))) =
        memValues (history.state pos) ↔
      StoreUndone (history.state pos).table store := by
  rw [(store_step empty current found).values]
  simp only [undoEvent, found]
  rw [StoreUndone]
  split
  · next same =>
      rw [same, Function.update_idem, Function.update_eq_self_iff]
      rfl
  · next differ =>
      constructor
      · intro undone
        have right := congrFun undone (memKey store.addr)
        have wrong := congrFun undone store.addr
        rw [update_of_ne differ, update_self] at right
        rw [update_self] at wrong
        exact ⟨right, wrong⟩
      · rintro ⟨right, wrong⟩
        funext key
        rw [update_apply, update_apply]
        split
        · next same => rw [same, wrong, memValues]
        · split
          · next same => rw [same, right, memValues]
          · rfl

end

end Unwinding

/-- The tool stands at the end of what it has recorded. -/
def AtTip (oracle : Oracle) : Prop :=
  ∃ base first, Chain base first 0 oracle ∧ oracle.lastExec = some base

/-- Reversing the last `count` stores gives every word the value it had before
them, for every `count`, exactly when each store meets its condition in the
memory it was applied to. -/
theorem memory_undo_iff {start : Oracle} (tip : AtTip start)
    (history : History start) (stores : OnlyStores history) :
    (∀ count ≤ history.length, ∃ last,
        replay (List.replicate count .back) history.tip = some last ∧
        ∀ key, memValues last key = memValues (history.state (history.length - count)) key) ↔
      ∀ (pos : Nat) (store : StoreEvent),
        history.events[pos]? = some (.store store) →
        StoreUndone (history.state pos).table store := by
  obtain ⟨base, first, chain, current⟩ := tip
  have unwound : (∀ count ≤ history.length, ∃ last,
      replay (List.replicate count .back) history.tip = some last ∧
      ∀ key, memValues last key = memValues (history.state (history.length - count)) key) ↔
      ∀ count ≤ history.length,
        unwind (undoEvent history) history.length count (memValues (history.state history.length)) =
          memValues (history.state (history.length - count)) := by
    apply forall₂_congr
    intro count bounded
    obtain ⟨last, replayed, _, _, values⟩ := replay_back_values chain current stores bounded
    rw [replayed]
    change _ ↔ unwind (undoEvent history) history.length count (memValues history.tip) = _
    rw [← values]
    simp [funext_iff]
  refine unwound.trans ((unwind_eq_iff (undoEvent history) history.length
    (fun pos => memValues (history.state pos))).trans ?_)
  constructor
  · intro single pos store found
    exact (undoEvent_iff chain current found).mp (single pos (List.getElem?_eq_some_iff.mp found).1)
  · intro condition pos inside
    have found := List.getElem?_eq_getElem inside
    obtain ⟨store, isStore⟩ := stores _ (List.mem_of_getElem? found)
    rw [isStore] at found
    exact (undoEvent_iff chain current found).mpr (condition pos store found)

/-- The store of a word to an address, requested by an instruction. -/
def wordStore (addr : Word) (byte : Byte) (inst : NodeId) : StoreEvent :=
  { mem := 1, addr := addr, data := fun _ => byte, width := 4
    inst := some inst }

/-- The first store to address zero of an empty memory meets the condition:
the two keys agree and the old value is zero. -/
theorem memory_undo_iff_zero :
    ∃ history : History (boot ⟨fun _ _ => none⟩ [.cpu 0, .mem 1]),
      history.events = [.store (wordStore 0 7 0)] ∧
      memValues history.tip 0 = 0x07070707 ∧
      ∀ count ≤ history.length, ∃ last,
        replay (List.replicate count .back) history.tip = some last ∧
        ∀ key, memValues last key = memValues (history.state (history.length - count)) key := by
  refine ⟨.cons _ rfl .nil, rfl, rfl, (memory_undo_iff ?_ _ ?_).mpr ?_⟩
  · exact boot_chain _ (by simp)
  · intro event member
    exact ⟨_, List.mem_singleton.mp member⟩
  · intro pos store found
    cases pos with
    | zero =>
      cases found
      rfl
    | succ pos => cases found

/-- After an instruction has stored a word at address eight, reversing the
store does not change the word back. -/
theorem memory_not_undone :
    ∃ history : History (boot ⟨fun _ _ => none⟩ [.cpu 0, .mem 1]),
      history.events = [.inst 0 (writingInst 0 [] (by decide)), .store (wordStore 8 7 2)] ∧
      ∃ last, replay [.back] history.tip = some last ∧
        memValues last (memKey 8) = 0x07070707 ∧
        memValues (history.state 1) (memKey 8) = 0 := by
  exact ⟨.cons _ rfl (.cons _ rfl .nil), rfl, _, rfl, rfl, rfl⟩

end Reverse.Delorean
