import Mathlib.Data.List.Basic

/-!
# Runs of a partial step function

A system is given by a step function `step : S → A → Option S`; `none` says that the action
is not enabled.  `run` executes a list of actions, and `Reach` is the same notion as an
inductive predicate that also

* keeps the history of the run, last action first, and
* asks a condition `G` of every step, in the state before the step.

`Reach.invariant` is the induction rule; `reach_of_run` and `reach_of_runWhen` turn an evaluated
run into a reachability proof.
-/

namespace Transition

variable {S A : Type*}

/-- Execute a list of actions; `none` as soon as one of them is not enabled. -/
def run (step : S → A → Option S) (s : S) : List A → Option S
  | [] => some s
  | a :: as => (step s a).bind fun s' => run step s' as

/-- Execute a list of actions, with a test of the condition before each one. -/
def runWhen (step : S → A → Option S) (G : S → A → Prop) [∀ s a, Decidable (G s a)] (s : S) :
    List A → Option S
  | [] => some s
  | a :: as => if G s a then (step s a).bind fun s' => runWhen step G s' as else none

/-- A run from `s₀` to `s` all of whose steps meet `G`; the list is its history, last action
first. -/
inductive Reach (step : S → A → Option S) (G : S → A → Prop) (s₀ : S) : List A → S → Prop
  | nil : Reach step G s₀ [] s₀
  | cons {tr : List A} {s s' : S} {a : A} :
      Reach step G s₀ tr s → G s a → step s a = some s' → Reach step G s₀ (a :: tr) s'

/-- The condition that every step meets. -/
def Always : S → A → Prop := fun _ _ => True

section

variable {step : S → A → Option S} {G : S → A → Prop} {s₀ : S}

/-- **The invariant rule.** What holds at the start and is kept by every step that meets the
condition holds at the end of every such run; it may speak of the history. -/
theorem Reach.invariant {I : List A → S → Prop} (h0 : I [] s₀)
    (hstep : ∀ tr s a s', I tr s → G s a → step s a = some s' → I (a :: tr) s')
    {tr : List A} {s : S} (h : Reach step G s₀ tr s) : I tr s := by
  induction h with
  | nil => exact h0
  | cons _ hG hs ih => exact hstep _ _ _ _ ih hG hs

/-- The invariant rule for a property of the state alone. -/
theorem Reach.state_invariant {I : S → Prop} (h0 : I s₀)
    (hstep : ∀ s a s', I s → G s a → step s a = some s' → I s')
    {tr : List A} {s : S} (h : Reach step G s₀ tr s) : I s :=
  h.invariant (I := fun _ s => I s) h0 fun _ s a s' => hstep s a s'

/-- A run may be continued. -/
theorem Reach.extend {tr : List A} {s s' : S} (h : Reach step G s₀ tr s) (as : List A)
    (hG : ∀ s, ∀ a ∈ as, G s a) (hr : run step s as = some s') :
    Reach step G s₀ (as.reverse ++ tr) s' := by
  induction as generalizing s tr with
  | nil => cases hr; exact h
  | cons a as ih =>
    obtain ⟨u, hu, hr'⟩ := Option.bind_eq_some_iff.1 hr
    have := ih (h.cons (hG s a List.mem_cons_self) hu)
      (fun s b hb => hG s b (List.mem_cons_of_mem a hb)) hr'
    simpa using this

/-- An evaluated run of actions that meet the condition in every state. -/
theorem reach_of_run {as : List A} {s : S} (hG : ∀ s, ∀ a ∈ as, G s a)
    (hr : run step s₀ as = some s) : Reach step G s₀ as.reverse s := by
  simpa using Reach.nil.extend as hG hr

theorem reach_always {as : List A} {s : S} (hr : run step s₀ as = some s) :
    Reach step Always s₀ as.reverse s :=
  reach_of_run (fun _ _ _ => trivial) hr

/-- An evaluated run whose steps were tested. -/
theorem reach_of_runWhen [∀ s a, Decidable (G s a)] {as : List A} {s : S}
    (hr : runWhen step G s₀ as = some s) : Reach step G s₀ as.reverse s := by
  suffices hgen : ∀ (as : List A) (tr : List A) (u : S), Reach step G s₀ tr u →
      runWhen step G u as = some s → Reach step G s₀ (as.reverse ++ tr) s by
    simpa using hgen as [] s₀ .nil hr
  intro as
  induction as with
  | nil =>
    intro tr u hu hr
    cases hr
    exact hu
  | cons a as ih =>
    intro tr u hu hr
    simp only [runWhen] at hr
    split_ifs at hr with hG
    obtain ⟨v, hv, hr⟩ := Option.bind_eq_some_iff.1 hr
    simpa using ih (a :: tr) v (hu.cons hG hv) hr

end

end Transition
