import Reverse.Decopus.ParHandler

/-!
# Every interleaving of the tracer and the handler

The order of the events and the owners of the containers in all states that the
two threads can reach, and the end of the trace.
-/

namespace Reverse.Decopus

open List
open Option hiding choice

section

variable {δ : Type} {cfg : ParConfig} {par later : Hwepar δ}
  {tracer handler : Nat} {loc : ContPtr → ContLoc} {rest : List (ParEvent δ)}
  {begun : Prop} {arrays : Nat → Nat → Option ContPtr}
  {memory : ContPtr → ParCont δ} {action : ParAction δ}
  {actions : List (ParAction δ)}

theorem hweparInit_inv (cfg : ParConfig)
    (arrays : Nat → Nat → Option ContPtr) (memory : ContPtr → ParCont δ) :
    ParInv cfg (hweparInit cfg arrays memory) 0 1 (fun _ => .handler) []
      False := by
  have two := cfg.two_le_nbbuf
  have positive := cfg.bufstart_pos
  have less := cfg.bufstart_lt
  have empty : Bounded cfg (cfg.bufsize - 1) (-1) := by
    constructor <;> omega
  refine ⟨?_, ?_, ?_, ?_, ?_⟩
  · constructor
    · exact (Nat.zero_mod _).symm
    · exact (Nat.zero_mod _).symm
    · exact (Nat.mod_eq_of_lt two).symm
    · exact (Nat.mod_eq_of_lt two).symm
    · exact Nat.zero_lt_one
    · exact ⟨(Nat.zero_mod _).symm, Nat.zero_lt_one, Nat.le_refl _⟩
    · exact fun busy => absurd rfl busy
    · change 1 + 0 ≤ 0 + cfg.nbbuf
      omega
  · exact ⟨empty, fun _ _ _ => empty, nofun, fun _ => ⟨rfl, rfl, id⟩, trivial, trivial⟩
  · refine ⟨?_, nofun, nodup_nil, fun _ _ => rfl, nofun, nodup_nil, nofun⟩
    intro k i _ _ small clean
    -- Every container is used up until the handler has seen the buffer.
    have dirty : (cfg.bufsize : Int) - 1 < i := by
      unfold CleanAt at clean
      split at clean
      · exact clean
      · rw [if_neg (by omega)] at clean
        split at clean <;> exact clean
    omega
  · refine ⟨rfl, nofun, fun _ => ?_, nofun⟩
    have noCells : handlerCells cfg (hweparInit cfg arrays memory) 0 1 = [] := by
      change List.flatMap (fun _ => []) _ = _
      exact flatMap_eq_nil_iff.mpr fun _ _ => rfl
    rw [noCells]
    rfl
  · refine ⟨nofun, fun before cont after isLog => ?_, nofun⟩
    cases before <;> cases isLog

theorem ParInv.weaken (inv : ParInv cfg par tracer handler loc rest begun) (less : begins → begun) :
    ParInv cfg par tracer handler loc rest begins := by
  refine { inv with bounds := { inv.bounds with unopened := fun isNone => ?_ } }
  obtain ⟨isFull, noEvents, unopened⟩ := inv.bounds.unopened isNone
  refine ⟨isFull, noEvents, ?_⟩
  unfold Unopened at unopened ⊢
  cases place : par.tracer <;> rw [place] at unopened <;>
    first | exact unopened | exact mt less unopened

theorem ParInv.step (inv : ParInv cfg par tracer handler loc rest begun)
    (step : parStep cfg par action = some later) (before : action = .stop → begun)
    (begin : begins → begun ∨ action = .init) :
    ∃ tracer handler loc rest, ParInv cfg later tracer handler loc rest begins := by
  cases action with
  | init =>
    obtain ⟨idle, isLater⟩ := ite_none_right_eq_some.mp step
    cases isLater
    exact ⟨_, _, _, _, inv.alloc idle nofun⟩
  | extend head =>
    obtain ⟨known, isLater⟩ := ite_none_right_eq_some.mp step
    cases isLater
    refine ⟨_, _, _, _, inv.alloc known.1 ?_⟩
    rintro other ⟨⟩
    exact known.2
  | write cont data =>
    obtain ⟨known, isLater⟩ := ite_none_right_eq_some.mp step
    cases isLater
    exact ⟨_, _, _, _, (inv.write known.2).weaken fun isBegun =>
      (begin isBegun).resolve_right nofun⟩
  | commit head =>
    obtain ⟨known, isLater⟩ := ite_none_right_eq_some.mp step
    cases isLater
    exact ⟨_, _, _, _, inv.commit known.1 known.2⟩
  | stop =>
    obtain ⟨idle, isLater⟩ := ite_none_right_eq_some.mp step
    cases isLater
    refine ⟨_, _, _, _, inv.stop idle fun isNone => ?_⟩
    have unopened := (inv.bounds.unopened isNone).2.2
    unfold Unopened at unopened
    rw [idle] at unopened
    exact unopened (before rfl)
  | tracer =>
    obtain ⟨_, _, next⟩ := inv.tracerStep step
    exact ⟨_, _, _, _, next.weaken fun isBegun =>
      (begin isBegun).resolve_right nofun⟩
  | handler =>
    obtain ⟨_, _, _, next⟩ := inv.handlerStep step
    exact ⟨_, _, _, _, next.weaken fun isBegun =>
      (begin isBegun).resolve_right nofun⟩
  | refill choice =>
    obtain ⟨_, next⟩ := inv.refillStep step
    exact ⟨_, _, _, _, next.weaken fun isBegun =>
      (begin isBegun).resolve_right nofun⟩
  | change cont value =>
    obtain ⟨member, isLater⟩ := ite_none_right_eq_some.mp step
    cases isLater
    have isLoc := (inv.owned.pool cont member).1
    have changed : ParInv cfg (par.setCont cont value) tracer handler loc rest begun := by
      apply inv.setCont
      · exact fun _ _ => isLoc ▸ nofun
      · exact fun _ => isLoc ▸ nofun
      · intro head isOpened
        rw [isLoc] at isOpened
        cases isOpened
    exact ⟨_, _, _, _, changed.weaken fun isBegun =>
      (begin isBegun).resolve_right nofun⟩

/-- `hwepar_stop` comes after an event was begun. -/
def StopsOpened (actions : List (ParAction δ)) : Prop :=
  ∀ before after, actions = before ++ .stop :: after → .init ∈ before

theorem StopsOpened.init (opened : StopsOpened (actions ++ [action])) : StopsOpened actions := by
  intro first after isRun
  apply opened first (after ++ [action])
  rw [isRun, append_assoc]
  rfl

theorem parRun_inv (run : parRun cfg arrays memory actions = some par)
    (opened : StopsOpened actions) :
    ∃ tracer handler loc rest, ParInv cfg par tracer handler loc rest (.init ∈ actions) := by
  induction actions using List.reverseRecOn generalizing par with
  | nil =>
    cases run
    exact ⟨0, 1, _, [], (hweparInit_inv cfg arrays memory).weaken not_mem_nil⟩
  | append_singleton actions action ih =>
    rw [parRun_concat] at run
    obtain ⟨middle, before, step⟩ := bind_eq_some_iff.mp run
    obtain ⟨tracer, handler, loc, rest, inv⟩ := ih before opened.init
    apply inv.step step
    · intro isStop
      exact opened actions [] (by rw [isStop])
    · intro member
      rcases mem_append.mp member with old | new
      · exact Or.inl old
      · exact Or.inr (mem_singleton.mp new).symm

theorem handlerStep_tracer (step : handlerStep cfg par = some later) :
    later.tracer = par.tracer := by
  unfold handlerStep at step
  dsimp only at step
  repeat' split at step
  all_goals first | cases step; rfl | nomatch step

theorem refillStep_tracer (step : refillStep par choice = some later) :
    later.tracer = par.tracer := by
  unfold refillStep handleAlloc at step
  repeat' split at step
  all_goals first | cases step; rfl | nomatch step

theorem hweparTake_tracer (par : Hwepar δ) (event : Option ContPtr) :
    (hweparTake par event).tracer = .crashed ∨ (hweparTake par event).tracer = .idle := by
  unfold hweparTake
  split
  · exact Or.inl rfl
  · split
    · exact Or.inl rfl
    · cases event <;> exact Or.inr rfl

theorem hweparPut_tracer (par : Hwepar δ) (cont : Option ContPtr) :
    (hweparPut par cont).tracer = .crashed ∨
      (hweparPut par cont).tracer =
        match cont with
        | some _ => .idle
        | none => .switch .flush := by
  unfold hweparPut
  split
  · exact Or.inl rfl
  · exact Or.inr rfl

theorem tracerStep_ends (step : tracerStep cfg par = some later) (alive : later.tracer ≠ .crashed) :
    later.tracer.ends = par.tracer.ends := by
  unfold tracerStep at step
  split at step
  · cases step
  · rename_i job isAt
    cases step
    rw [isAt]
    change (if _ then TracerAt.newbuffer job else .sync job).ends = _
    split <;> rfl
  · rename_i job isAt
    obtain ⟨-, isLater⟩ := ite_none_right_eq_some.mp step
    cases isLater
    rw [isAt]
    rfl
  · rename_i job isAt
    cases step
    rw [isAt]
    rfl
  · rename_i event isAt
    cases step
    rw [isAt, (hweparTake_tracer par event).resolve_left alive]
    rfl
  · rename_i cont isAt
    cases step
    rw [isAt, (hweparPut_tracer par cont).resolve_left alive]
    cases cont <;> rfl
  · rename_i isAt
    cases step
    rw [isAt]
    rfl
  · cases step
  · cases step

theorem parStep_ends (step : parStep cfg par action = some later)
    (alive : later.tracer ≠ .crashed) :
    later.tracer.ends = true ↔ par.tracer.ends = true ∨ action = .stop := by
  cases action with
  | init =>
    obtain ⟨idle, isLater⟩ := ite_none_right_eq_some.mp step
    cases isLater
    rw [idle]
    change (if _ then TracerAt.switch (.alloc none) else .run (.alloc none)).ends = true ↔ _
    split <;> simp [TracerAt.ends, TracerAt.job, ParJob.ends]
  | extend head =>
    obtain ⟨⟨idle, -⟩, isLater⟩ := ite_none_right_eq_some.mp step
    cases isLater
    rw [idle]
    change (if _ then TracerAt.switch (.alloc (some head))
      else .run (.alloc (some head))).ends = true ↔ _
    split <;> simp [TracerAt.ends, TracerAt.job, ParJob.ends]
  | write cont data =>
    obtain ⟨-, isLater⟩ := ite_none_right_eq_some.mp step
    cases isLater
    change par.tracer.ends = true ↔ _
    simp
  | commit head =>
    obtain ⟨⟨idle, -⟩, isLater⟩ := ite_none_right_eq_some.mp step
    cases isLater
    rw [hweparHandle, handleLocal_ends, idle]
    simp [TracerAt.ends, TracerAt.job]
  | stop =>
    obtain ⟨-, isLater⟩ := ite_none_right_eq_some.mp step
    cases isLater
    rw [hweparStop, handleLocal_ends]
    exact ⟨fun _ => Or.inr rfl, fun _ => rfl⟩
  | tracer =>
    rw [tracerStep_ends step alive]
    simp
  | handler =>
    rw [handlerStep_tracer step]
    simp
  | refill choice =>
    rw [refillStep_tracer step]
    simp
  | change cont value =>
    obtain ⟨-, isLater⟩ := ite_none_right_eq_some.mp step
    cases isLater
    change par.tracer.ends = true ↔ _
    simp

theorem ParInv.alive (inv : ParInv cfg par tracer handler loc rest begun) :
    par.tracer ≠ .crashed := by
  intro crashed
  have fits := inv.bounds.tracerFits
  unfold TracerFits at fits
  rw [crashed] at fits
  exact fits

theorem parRun_ends (run : parRun cfg arrays memory actions = some par)
    (opened : StopsOpened actions) :
    par.tracer.ends = true ↔ .stop ∈ actions := by
  induction actions using List.reverseRecOn generalizing par with
  | nil =>
    cases run
    exact ⟨nofun, fun member => absurd member not_mem_nil⟩
  | append_singleton actions action ih =>
    obtain ⟨_, _, _, _, inv⟩ := parRun_inv run opened
    rw [parRun_concat] at run
    obtain ⟨middle, before, step⟩ := bind_eq_some_iff.mp run
    rw [parStep_ends step inv.alive, ih before opened.init, mem_append, mem_singleton, eq_comm]

/-- How often the tracer can go on with what it does. -/
def ParJob.steps : ParJob → Nat
  | .alloc _ => 1
  | .handle (some _) => 1
  | .handle none => 5
  | .flush => 1

def TracerAt.steps : TracerAt → Nat
  | .switch job => job.steps + 3
  | .sync job => job.steps + 2
  | .newbuffer job => job.steps + 1
  | .run job => job.steps
  | _ => 0

/-- How many buffers the tracer is about to show. -/
def ParJob.shows : ParJob → Nat
  | .handle none => 1
  | _ => 0

def TracerAt.shows : TracerAt → Nat
  | .switch job => job.shows + 1
  | .sync job => job.shows + 1
  | .newbuffer job => job.shows + 1
  | .run job => job.shows
  | _ => 0

/-- How far the handler is in its buffer. -/
def HandlerAt.steps (cfg : ParConfig) : HandlerAt → Nat
  | .sync => 0
  | .buffer _ => 1
  | .handle _ _ _ i => 2 + i
  | .refill _ _ i => 3 + cfg.bufsize + i
  | .next _ => 4 + 2 * cfg.bufsize
  | .done => 5 + 2 * cfg.bufsize

def parWork (cfg : ParConfig) (par : Hwepar δ) : Nat :=
  par.tracer.steps +
    ((hweparHandlerSync cfg par + par.tracer.shows) * (5 + 2 * cfg.bufsize) - par.handler.steps cfg)

theorem parWork_tracer (fewer : later.tracer.steps < par.tracer.steps)
    (same : later.handler = par.handler) (shows : hweparHandlerSync cfg later + later.tracer.shows ≤
      hweparHandlerSync cfg par + par.tracer.shows) :
    parWork cfg later < parWork cfg par := by
  unfold parWork
  rw [same]
  apply Nat.add_lt_add_of_lt_of_le fewer
  apply Nat.sub_le_sub_right
  exact Nat.mul_le_mul_right _ shows

theorem hweparTake_handler (cfg : ParConfig) (par : Hwepar δ) (event : Option ContPtr) :
    (hweparTake par event).handler = par.handler ∧
      hweparHandlerSync cfg (hweparTake par event) = hweparHandlerSync cfg par := by
  unfold hweparTake
  split
  · exact ⟨rfl, rfl⟩
  · split
    · exact ⟨rfl, rfl⟩
    · cases event <;> exact ⟨rfl, rfl⟩

theorem hweparPut_handler (cfg : ParConfig) (par : Hwepar δ) (cont : Option ContPtr) :
    (hweparPut par cont).handler = par.handler ∧
      hweparHandlerSync cfg (hweparPut par cont) = hweparHandlerSync cfg par := by
  unfold hweparPut
  split <;> exact ⟨rfl, rfl⟩

theorem tracerStep_work (inv : ParInv cfg par tracer handler loc rest begun)
    (step : tracerStep cfg par = some later) :
    parWork cfg later < parWork cfg par := by
  obtain ⟨_, _, after⟩ := inv.tracerStep step
  have alive := after.alive
  unfold tracerStep at step
  split at step
  · cases step
  · rename_i job isAt
    cases step
    have place : (hweparSwitchbuffer cfg par job).tracer = .newbuffer job ∨
        (hweparSwitchbuffer cfg par job).tracer = .sync job := by
      change (if _ then TracerAt.newbuffer job else .sync job) = _ ∨
        (if _ then TracerAt.newbuffer job else .sync job) = _
      split
      · exact Or.inl rfl
      · exact Or.inr rfl
    apply parWork_tracer
    · rw [isAt]
      rcases place with isPlace | isPlace <;> rw [isPlace] <;> simp [TracerAt.steps]
    · rfl
    · rw [isAt]
      rcases place with isPlace | isPlace <;> rw [isPlace] <;> exact Nat.le_refl _
  · rename_i job isAt
    obtain ⟨-, isLater⟩ := ite_none_right_eq_some.mp step
    cases isLater
    apply parWork_tracer
    · rw [isAt]
      simp [TracerAt.steps]
    · rfl
    · rw [isAt]
      exact Nat.le_refl _
  · rename_i job isAt
    cases step
    have within := inv.places.le
    apply parWork_tracer
    · rw [isAt]
      exact Nat.lt_succ_self _
    · rfl
    · rw [(inv.newbuffer isAt).places.handler_count, inv.places.handler_count, isAt]
      change _ + job.shows ≤ _ + (job.shows + 1)
      omega
  · rename_i event isAt
    cases step
    have isIdle := (hweparTake_tracer par event).resolve_left alive
    apply parWork_tracer
    · rw [isAt, isIdle]
      exact Nat.zero_lt_one
    · exact (hweparTake_handler cfg par event).1
    · rw [(hweparTake_handler cfg par event).2, isAt, isIdle]
      exact Nat.le_refl _
  · rename_i cont isAt
    cases step
    have isNext := (hweparPut_tracer par cont).resolve_left alive
    apply parWork_tracer
    · rw [isAt, isNext]
      cases cont <;> exact Nat.lt_succ_self _
    · exact (hweparPut_handler cfg par cont).1
    · rw [(hweparPut_handler cfg par cont).2, isAt, isNext]
      cases cont <;> exact Nat.le_refl _
  · rename_i isAt
    cases step
    apply parWork_tracer
    · rw [isAt]
      exact Nat.zero_lt_one
    · rfl
    · rw [isAt]
      exact Nat.le_refl _
  · cases step
  · cases step

theorem parWork_handler (same : later.tracer = par.tracer)
    (count : hweparHandlerSync cfg later = hweparHandlerSync cfg par)
    (dirty : 0 < hweparHandlerSync cfg par) (more : par.handler.steps cfg < later.handler.steps cfg)
    (high : par.handler.steps cfg < 5 + 2 * cfg.bufsize) :
    parWork cfg later < parWork cfg par := by
  unfold parWork
  rw [same, count]
  apply Nat.add_lt_add_left
  refine Nat.sub_lt_sub_left ?_ more
  refine Nat.lt_of_lt_of_le high (Nat.le_mul_of_pos_left _ ?_)
  exact Nat.add_pos_left dirty _

section

variable (inv : ParInv cfg par tracer handler loc rest begun)

include inv

theorem ParInv.dirty (busy : par.handler ≠ .sync) : 0 < hweparHandlerSync cfg par := by
  have inside := inv.places.inside busy
  rw [inv.places.handler_count]
  omega

theorem handlerStep_work (step : handlerStep cfg par = some later) :
    parWork cfg later < parWork cfg par := by
  have fits := inv.bounds.handlerFits
  unfold HandlerFits at fits
  unfold handlerStep at step
  split at step
  · rename_i isAt
    obtain ⟨dirty, isLater⟩ := ite_none_right_eq_some.mp step
    cases isLater
    refine parWork_handler rfl rfl dirty ?_ ?_
    · rw [isAt]
      exact Nat.zero_lt_one
    · rw [isAt]
      change 0 < _
      omega
  · rename_i todo isAt
    cases step
    refine parWork_handler rfl rfl (inv.dirty (isAt ▸ nofun)) ?_ ?_
    · rw [isAt]
      exact Nat.lt_succ_self _
    · rw [isAt]
      change 1 < _
      omega
  · rename_i todo fidx eidx i isAt
    have dirty := inv.dirty (isAt ▸ nofun)
    have bounded := inv.bounds.dirty handler (Nat.le_refl _) (inv.places.inside (isAt ▸ nofun))
    have order := bounded.order
    have high := bounded.high
    rw [isAt] at fits
    dsimp only at fits
    have small : par.handler.steps cfg < 5 + 2 * cfg.bufsize := by
      rw [isAt]
      change 2 + i < _
      omega
    split at step
    · split at step
      · cases step
        refine parWork_handler rfl rfl dirty ?_ ?_
        · exact small
        · exact small
      · cases step
        refine parWork_handler rfl rfl dirty ?_ ?_
        · rw [isAt]
          exact Nat.lt_succ_self _
        · exact small
    · cases step
      refine parWork_handler rfl rfl dirty ?_ ?_
      · rw [isAt]
        change 2 + i < 3 + cfg.bufsize + cfg.bufstart
        omega
      · exact small
  · rename_i todo eidx i isAt
    have bounded := inv.bounds.dirty handler (Nat.le_refl _) (inv.places.inside (isAt ▸ nofun))
    have high := bounded.high
    rw [isAt] at fits
    dsimp only at fits
    split at step
    · cases step
    · cases step
      refine parWork_handler rfl rfl (inv.dirty (isAt ▸ nofun)) ?_ ?_
      · rw [isAt]
        change 3 + cfg.bufsize + i < 4 + 2 * cfg.bufsize
        omega
      · rw [isAt]
        change 3 + cfg.bufsize + i < _
        omega
  · rename_i todo isAt
    cases step
    have inside := inv.places.inside (isAt ▸ nofun)
    have fewer : hweparHandlerSync cfg par =
        hweparHandlerSync cfg (hweparNext cfg par todo) + 1 := by
      rw [(inv.next isAt).places.handler_count, inv.places.handler_count]
      omega
    unfold parWork
    rw [isAt, fewer]
    change par.tracer.steps + ((_ + par.tracer.shows) * _ - _) <
      par.tracer.steps + (_ - (4 + 2 * cfg.bufsize))
    have spread : ∀ count, (count + 1) * (5 + 2 * cfg.bufsize) =
        count * (5 + 2 * cfg.bufsize) + (5 + 2 * cfg.bufsize) :=
      fun count => Nat.succ_mul count _
    rw [Nat.add_right_comm, spread]
    omega
  · cases step

theorem refillStep_work (step : refillStep par choice = some later) :
    parWork cfg later < parWork cfg par := by
  have fits := inv.bounds.handlerFits
  unfold HandlerFits at fits
  unfold refillStep at step
  split at step
  · rename_i todo eidx i isAt
    have bounded := inv.bounds.dirty handler (Nat.le_refl _) (inv.places.inside (isAt ▸ nofun))
    have high := bounded.high
    rw [isAt] at fits
    dsimp only at fits
    split at step
    · obtain ⟨⟨cont, found⟩, isAlloc, isLater⟩ := map_eq_some_iff.mp step
      have same : found.tracer = par.tracer ∧
          hweparHandlerSync cfg found = hweparHandlerSync cfg par := by
        unfold handleAlloc at isAlloc
        split at isAlloc
        · cases isAlloc
          exact ⟨rfl, rfl⟩
        · obtain ⟨-, isFound⟩ := ite_none_right_eq_some.mp isAlloc
          cases isFound
          exact ⟨rfl, rfl⟩
      rw [← isLater]
      refine parWork_handler same.1 same.2 (inv.dirty (isAt ▸ nofun)) ?_ ?_
      · rw [isAt]
        exact Nat.lt_succ_self _
      · rw [isAt]
        change 3 + cfg.bufsize + i < _
        omega
    · cases step
  · cases step

end

/-- The threads go on by themselves. -/
def ParAction.thread : ParAction δ → Bool
  | .tracer => true
  | .handler => true
  | .refill _ => true
  | _ => false

theorem thread_work (inv : ParInv cfg par tracer handler loc rest begun)
    (thread : action.thread = true) (step : parStep cfg par action = some later) :
    parWork cfg later < parWork cfg par := by
  cases action with
  | tracer => exact tracerStep_work inv step
  | handler => exact handlerStep_work inv step
  | refill choice => exact refillStep_work inv step
  | init => cases thread
  | extend head => cases thread
  | write cont data => cases thread
  | commit head => cases thread
  | stop => cases thread
  | change cont value => cases thread

theorem handler_enabled (notDone : par.handler ≠ .done)
    (dirty : par.handler = .sync → 0 < hweparHandlerSync cfg par) :
    ∃ action : ParAction δ, action.thread = true ∧ parStep cfg par action ≠ none := by
  cases isAt : par.handler with
  | sync =>
    refine ⟨.handler, rfl, ?_⟩
    change handlerStep cfg par ≠ none
    unfold handlerStep
    rw [isAt]
    dsimp only
    rw [if_pos (dirty isAt)]
    nofun
  | buffer todo =>
    refine ⟨.handler, rfl, ?_⟩
    change handlerStep cfg par ≠ none
    unfold handlerStep
    rw [isAt]
    nofun
  | handle todo fidx eidx i =>
    refine ⟨.handler, rfl, ?_⟩
    change handlerStep cfg par ≠ none
    unfold handlerStep
    rw [isAt]
    dsimp only
    split
    · split <;> nofun
    · nofun
  | refill todo eidx i =>
    by_cases more : (i : Int) < eidx
    · refine ⟨.refill none, rfl, ?_⟩
      change refillStep par none ≠ none
      unfold refillStep
      rw [isAt]
      dsimp only
      rw [if_pos more]
      nofun
    · refine ⟨.handler, rfl, ?_⟩
      change handlerStep cfg par ≠ none
      unfold handlerStep
      rw [isAt]
      dsimp only
      rw [if_neg more]
      nofun
  | next todo =>
    refine ⟨.handler, rfl, ?_⟩
    change handlerStep cfg par ≠ none
    unfold handlerStep
    rw [isAt]
    nofun
  | done => exact absurd isAt notDone

/-- While the tracer is in a call, or waits for the end of the handler, one of
the threads can go on. -/
theorem ParInv.enabled (inv : ParInv cfg par tracer handler loc rest begun)
    (notIdle : par.tracer ≠ .idle) (unfinished : par.tracer = .joining → par.handler ≠ .done) :
    ∃ action : ParAction δ, action.thread = true ∧ parStep cfg par action ≠ none := by
  have fits := inv.bounds.tracerFits
  have ready := inv.places.ready
  unfold TracerFits at fits
  unfold TracerReady at ready
  have runs : Decopus.tracerStep cfg par ≠ none → ∃ action : ParAction δ,
      action.thread = true ∧ parStep cfg par action ≠ none :=
    fun moves => ⟨.tracer, rfl, moves⟩
  cases isAt : par.tracer with
  | idle => exact absurd isAt notIdle
  | switch job =>
    apply runs
    unfold Decopus.tracerStep
    rw [isAt]
    nofun
  | sync job =>
    by_cases clean : 0 < hweparTracerSync cfg par
    · apply runs
      unfold Decopus.tracerStep
      rw [isAt]
      dsimp only
      rw [if_pos clean]
      nofun
    · have ahead := inv.places.ahead
      have within := inv.places.le
      have two := cfg.two_le_nbbuf
      rw [isAt] at ready
      have count := inv.places.tracer_count ready
      apply handler_enabled
      · exact inv.running (isAt ▸ nofun) (isAt ▸ nofun)
      · intro _
        rw [inv.places.handler_count]
        omega
  | newbuffer job =>
    apply runs
    unfold Decopus.tracerStep
    rw [isAt]
    nofun
  | run job =>
    apply runs
    unfold Decopus.tracerStep
    rw [isAt]
    cases job <;> nofun
  | joining =>
    have notDone := unfinished isAt
    have order := inv.flow.order notDone
    rw [isAt] at fits
    apply handler_enabled notDone
    intro waits
    rw [inv.places.handler_count]
    by_contra noneLeft
    have empty : tracer + cfg.nbbuf - handler = 0 := by omega
    unfold handlerCells tracerCells at order
    rw [isAt, waits, empty, fits] at order
    simp [dirtyCells, TracerAt.cells, TracerAt.job, TracerAt.ends] at order
  | crashed => exact absurd isAt inv.alive

theorem ParInv.thread_bounded (inv : ParInv cfg par tracer handler loc rest begun)
    {more : List (ParAction δ)} (threads : ∀ action ∈ more, action.thread = true)
    (run : more.foldlM (parStep cfg) par = some later) :
    more.length ≤ parWork cfg par := by
  induction more generalizing par tracer handler loc rest with
  | nil => exact Nat.zero_le _
  | cons action more ih =>
    obtain ⟨middle, step, others⟩ := bind_eq_some_iff.mp run
    have isThread := threads action mem_cons_self
    have less := thread_work inv isThread step
    obtain ⟨_, _, _, _, next⟩ := inv.step step
      (fun isStop => by
        rw [isStop] at isThread
        nomatch isThread)
      (fun isBegun => Or.inl isBegun)
    have shorter := ih next
      (fun action member => threads action (mem_cons_of_mem _ member))
      others
    exact Nat.succ_le_of_lt (Nat.lt_of_le_of_lt shorter less)

/-- What holds in a state that is reached with some actions. -/
structure RingCorrect (cfg : ParConfig) (actions : List (ParAction δ))
    (par : Hwepar δ) : Prop where
  alive : par.tracer ≠ .crashed
  /-- Events arrive as they were committed, each once and in order. -/
  order : par.received <+: par.committed
  /-- The marker of the end comes after all of them. -/
  marker : par.handler = .done →
    par.received = par.committed ∧ .stop ∈ actions
  apart : ∀ cont, par.TracerHas cont → cont ∉ par.pool
  /-- An event on its way belongs to nobody. -/
  travelling : ∀ event ∈ par.committed.drop par.received.length,
    ∀ cont ∈ event.map Prod.fst, ¬par.TracerHas cont ∧ cont ∉ par.pool
  given : ∀ cont, lastTransfer par.log cont = some (.give cont) →
    ¬par.TracerHas cont ∧ cont ∉ par.pool
  /-- A container is handed out after the handler gave it, and once. -/
  taken : ∀ before cont after, par.log = before ++ .take cont :: after →
    lastTransfer before cont = some (.give cont)
  /-- The threads do not run forever. -/
  finite : ∃ bound, ∀ (more : List (ParAction δ)) later,
    (∀ action ∈ more, action.thread = true) →
      more.foldlM (parStep cfg) par = some later → more.length ≤ bound
  /-- They stop where the call of the tracer returns. -/
  returns : (∀ action : ParAction δ, action.thread = true →
    parStep cfg par action = none) →
      (.stop ∈ actions → par.tracer = .joining ∧ par.handler = .done) ∧
        (.stop ∉ actions → par.tracer = .idle)

theorem ParInv.tracerHas (inv : ParInv cfg par tracer handler loc rest begun)
    (has : par.TracerHas cont) :
    ∃ head, loc cont = .opened head := by
  obtain ⟨head, isOpened, inside⟩ := has
  exact ⟨head, (inv.owned.opened head isOpened).2 cont (mem_cons.mpr inside)⟩

/-- A container that is neither in an open event nor with the handler. -/
theorem ParInv.elsewhere (inv : ParInv cfg par tracer handler loc rest begun)
    (notOpened : ∀ head, loc cont ≠ .opened head) (notHandler : loc cont ≠ .handler) :
    ¬par.TracerHas cont ∧ cont ∉ par.pool := by
  constructor
  · intro has
    obtain ⟨head, isLoc⟩ := inv.tracerHas has
    exact notOpened head isLoc
  · intro member
    exact notHandler (inv.owned.pool cont member).1

/-- In every interleaving the handler gets the events that were committed, and
no container is used by both threads. -/
theorem par_ring_correct (cfg : ParConfig)
    (arrays : Nat → Nat → Option ContPtr) (memory : ContPtr → ParCont δ)
    (actions : List (ParAction δ)) (par : Hwepar δ)
    (run : parRun cfg arrays memory actions = some par)
    (opened : StopsOpened actions) : RingCorrect cfg actions par := by
  obtain ⟨tracer, handler, loc, rest, inv⟩ := parRun_inv run opened
  have ends := parRun_ends run opened
  constructor
  · exact inv.alive
  · exact ⟨rest, inv.flow.committed.symm⟩
  · intro isDone
    obtain ⟨noRest, place⟩ := inv.flow.finished isDone
    refine ⟨?_, ends.mp ?_⟩
    · rw [inv.flow.committed, noRest, append_nil]
    · rcases place with isPlace | isPlace <;> rw [isPlace] <;> rfl
  · intro cont has member
    obtain ⟨head, isLoc⟩ := inv.tracerHas has
    rw [(inv.owned.pool cont member).1] at isLoc
    cases isLoc
  · intro event member cont inside
    rw [inv.flow.committed, drop_left] at member
    obtain ⟨n, isEvent⟩ := List.getElem?_of_mem member
    obtain ⟨head, isAt, -, all⟩ := inv.flow.stored n event isEvent
    rw [isAt] at inside
    have isCont : cont ∈ head :: (par.memory head).exts := by
      simpa [eventAt] using inside
    have isLoc := all cont isCont
    exact inv.elsewhere (by simp [isLoc]) (by simp [isLoc])
  · intro cont isGiven
    obtain ⟨b, i, isLoc⟩ := inv.logged.waits cont isGiven
    exact inv.elsewhere (by simp [isLoc]) (by simp [isLoc])
  · exact inv.logged.taken
  · exact ⟨parWork cfg par, fun more later threads run =>
      inv.thread_bounded threads run⟩
  · intro stuck
    have halted : par.tracer = .idle ∨ par.tracer = .joining ∧ par.handler = .done := by
      by_contra moves
      obtain ⟨action, thread, enabled⟩ := inv.enabled
        (fun idle => moves (Or.inl idle))
        (fun joins isDone => moves (Or.inr ⟨joins, isDone⟩))
      exact enabled (stuck action thread)
    constructor
    · intro member
      apply halted.resolve_left
      intro idle
      have isEnd := ends.mpr member
      rw [idle] at isEnd
      cases isEnd
    · intro notStopped
      apply halted.resolve_right
      intro joined
      apply notStopped
      apply ends.mp
      rw [joined.1]
      rfl

end

/-- Two buffers of two cells, one for an empty container. -/
def smallRing : ParConfig := ⟨2, 2, 1, by decide, by decide, by decide⟩

/-- One event is begun and committed, and the trace is closed. -/
def smallTrace : List (ParAction Nat) :=
  [.init, .tracer, .handler, .handler, .handler, .refill none, .handler,
    .handler, .tracer, .tracer, .tracer, .write 0 7, .commit 0, .tracer, .stop,
    .tracer, .tracer, .handler, .handler, .handler, .refill none, .handler,
    .handler, .tracer, .tracer, .tracer, .handler, .handler, .handler, .handler]

theorem par_ring_correct_small : ∃ par,
    parRun smallRing (fun _ _ => none) (fun _ => ⟨[], 0⟩) smallTrace =
      some par ∧
    par.handler = .done ∧ par.received = [[(0, ⟨[], 7⟩)]] ∧
    RingCorrect smallRing smallTrace par := by
  have runs : ((parRun smallRing (fun _ _ => none) (fun _ => ⟨[], 0⟩)
      smallTrace).map fun par => (par.handler, par.received)) =
        some (.done, [[(0, ⟨[], 7⟩)]]) := by
    decide
  obtain ⟨par, isRun, isEnd⟩ := map_eq_some_iff.mp runs
  obtain ⟨isDone, isReceived⟩ := Prod.mk.inj isEnd
  refine ⟨par, isRun, isDone, isReceived, par_ring_correct smallRing _ _ smallTrace par isRun ?_⟩
  intro before after isTrace
  cases before with
  | nil => cases isTrace
  | cons first before =>
    injection isTrace with isFirst _
    exact isFirst ▸ mem_cons_self

/-- The marker is put through the pointer that `hwepar_init` has left null. -/
theorem par_stop_without_events :
    (parRun smallRing (fun _ _ => none) (fun _ => ⟨[], 0⟩)
      [ParAction.stop, .tracer]).map (fun par : Hwepar Nat => par.tracer) =
        some .crashed := by
  decide

end Reverse.Decopus
