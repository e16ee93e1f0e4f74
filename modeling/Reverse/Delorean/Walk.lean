import Reverse.Delorean.PlainHistory

/-!
# Walks over a recorded trace

Whatever wrong values and edges a walk of reverse and forward steps passes
through, it repairs them all on its way back to the tip.
-/

namespace Reverse.Delorean

open Sherlock Library Option

theorem boot_ready (table : HashTable) (announced : comps ≠ []) :
    ∃ base first, Ready (Announced comps) base first (boot table comps) := by
  obtain ⟨base, first, chain, current⟩ := boot_chain table announced
  refine ⟨base, first, chain, current, boot_ids table comps, ?_⟩
  intro id known cell
  obtain ⟨node, found, _⟩ := boot_anchored table known cell
  exact isSome_of_eq_some found

theorem execReg_mem {event : InstEvent} (listed : event.execReg = some regs)
    (member : write ∈ regs.writes) : write ∈ event.regs ∨ write.id = 15 := by
  unfold InstEvent.execReg at listed
  split at listed
  · split at listed
    · cases listed
      rcases List.mem_append.mp member with inside | last
      · exact Or.inl inside
      · exact Or.inr (by rw [List.mem_singleton.mp last])
    · cases listed
  · cases listed
    exact Or.inr (by rw [List.mem_singleton.mp member])

/-- The instruction lists only `r0`-`r15`, `SPSR` and `CPSR` values that keep
the mode. -/
def ListsArch (oracle : Oracle) : Event → Prop
  | .inst id event => ∀ write ∈ event.regs, (archCell write.id).isSome ∧
      (write.id = regidCpsr → write.data &&& cpsrModeMask = (oracle.cpu id).mode)
  | _ => True

theorem steady_of_arch (arch : ∀ write ∈ writes, (archCell write.id).isSome ∧
      (write.id = regidCpsr → write.data &&& cpsrModeMask = mode)) :
    Steady mode writes ∧ Direct writes := by
  constructor
  · intro write member
    obtain ⟨found, keeps⟩ := arch write member
    obtain ⟨cell, found⟩ := isSome_iff_exists.mp found
    have named := archCell_eq_some_iff.mp found
    refine ⟨cell, target_of_regid named, ?_⟩
    rintro rfl
    exact keeps (some.inj named).symm
  · intro write member cell reached
    obtain ⟨found, _⟩ := arch write member
    obtain ⟨other, found⟩ := isSome_iff_exists.mp found
    have named := archCell_eq_some_iff.mp found
    rw [target_of_regid named, Target.cell.injEq] at reached
    subst other
    exact Or.inr named

theorem ListsArch.plain (lists : ListsArch oracle event)
    (known : ∀ id inst, event = .inst id inst → announced id)
    (recorded : recordEvent oracle event = some next) :
    Plain announced oracle event := by
  cases event with
  | store store => trivial
  | dev id => trivial
  | inst id event =>
    simp only [recordEvent, cpuGoInst, bind_eq_bind, bind_eq_some_iff] at recorded
    obtain ⟨regs, listed, _⟩ := recorded
    refine ⟨known id event rfl, regs, listed, steady_of_arch ?_⟩
    intro write member
    rcases execReg_mem listed member with inside | counter
    · exact lists write inside
    · rw [counter]
      exact ⟨rfl, fun status => absurd status (by decide)⟩

/-- A walk from the tip to the tip, in which instructions may list a register
several times and stores may be interleaved, changes no replayed register, no
edge of one and not the current node. -/
theorem replay_returns_to_tip (table : HashTable) (comps : List Comp)
    (history : History (boot table comps))
    (known : ∀ id inst, .inst id inst ∈ history.events → .cpu id ∈ comps)
    (lists : ∀ (pos : Nat) (event : Event),
      history.events[pos]? = some event →
      ListsArch (history.state pos) event)
    (moves : List Move)
    (followed : Move.follow history.length history.length moves = some history.length) :
    ∃ last, replay moves history.tip = some last ∧
      last.lastExec = history.tip.lastExec ∧
      ∀ (id : DevId) (cell : Cell), cell.regid.isSome →
        (last.cpu id).cell cell = (history.tip.cpu id).cell cell := by
  by_cases announced : comps = []
  · subst announced
    rw [history.length_of_unannounced] at followed
    have stays : moves = [] := by
      cases moves with
      | nil => rfl
      | cons move moves => cases move <;> simp [Move.follow] at followed
    subst stays
    exact ⟨history.tip, rfl, rfl, fun _ _ _ => rfl⟩
  · obtain ⟨base, first, ready⟩ := boot_ready table announced
    let plain : PlainHistory (Announced comps) base first (boot table comps) :=
      { history with
        ready := ready
        plain := fun found => (lists _ _ found).plain
          (fun id inst same => known id inst
            (same ▸ List.mem_of_getElem? found))
          (history.step found) }
    have tip := plain.tip_stands
    obtain ⟨last, walked, stands, contents⟩ : ∃ last,
        plain.timeline.walk moves history.tip = some last ∧
        plain.Stands history.length last ∧
        ∀ key, plain.timeline.read last key = plain.timeline.recorded history.length key :=
      Timeline.walk_tip followed tip (fun _ => rfl)
    rw [walk_eq_replay rfl rfl] at walked
    refine ⟨last, walked, stands.current.trans tip.current.symm, ?_⟩
    intro id cell replayed
    exact contents (id, ⟨cell, replayed⟩)

/-- An instruction that lists `r0` twice, and the store it makes. -/
theorem replay_returns_to_tip_repeated :
    ∃ history : History (boot ⟨fun _ _ => none⟩ [.cpu 0, .mem 1]),
      history.length = 2 ∧
      ∃ last,
        replay [.back, .back, .forth, .back, .forth, .forth] history.tip = some last ∧
        last.lastExec = history.tip.lastExec ∧
        ∀ (id : DevId) (cell : Cell), cell.regid.isSome →
          (last.cpu id).cell cell = (history.tip.cpu id).cell cell := by
  let twice := writingInst 0 [⟨0, 1⟩, ⟨0, 2⟩] (by decide)
  let store : StoreEvent := { mem := 1, addr := 8, data := fun _ => 7, width := 4, inst := some 2 }
  let history : History (boot ⟨fun _ _ => none⟩ [.cpu 0, .mem 1]) :=
    .cons (.inst 0 twice) rfl (.cons (.store store) rfl .nil)
  refine ⟨history, rfl, replay_returns_to_tip _ _ history ?_ ?_ _ rfl⟩
  · intro id inst member
    have first : (Event.inst id inst) = .inst 0 twice := by
      simpa [history, History.cons, History.nil] using member
    rw [Event.inst.injEq] at first
    simp [first.1]
  · intro pos event found
    match pos, found with
    | 0, found =>
      cases found
      intro write member
      have listed : write = ⟨0, 1⟩ ∨ write = ⟨0, 2⟩ := by
        simpa [twice, writingInst] using member
      rcases listed with rfl | rfl <;> exact ⟨rfl, by decide⟩
    | 1, found =>
      cases found
      trivial

end Reverse.Delorean
