import Mathlib.Init

/-!
# Runs of a partial step

A step that can fail is run over a list of inputs.  What every step keeps, the
whole run keeps, also where it depends on the inputs that came before.
-/

namespace Reverse.Runs

open List

variable {σ : Type} {α : Type*} {step : σ → α → Option σ} {before after : σ} {inputs : List α}

theorem foldlM_history (holds : List α → σ → Prop)
    (keeps : ∀ {seen input state next}, input ∈ inputs → holds seen state →
      step state input = some next → holds (seen ++ [input]) next)
    (start : holds seen before) (run : inputs.foldlM step before = some after) :
    holds (seen ++ inputs) after := by
  induction inputs generalizing seen before with
  | nil =>
    cases run
    rwa [append_nil]
  | cons input inputs ih =>
    rw [foldlM_cons] at run
    obtain ⟨middle, first, rest⟩ := Option.bind_eq_some_iff.mp run
    have later := ih (fun member => keeps (mem_cons_of_mem _ member))
      (keeps mem_cons_self start first) rest
    rwa [append_assoc] at later

theorem foldlM_keeps (holds : σ → Prop)
    (keeps : ∀ {input state next}, input ∈ inputs → holds state →
      step state input = some next → holds next)
    (start : holds before) (run : inputs.foldlM step before = some after) : holds after :=
  @foldlM_history _ _ _ _ _ _ [] (fun _ => holds) keeps start run

end Reverse.Runs
