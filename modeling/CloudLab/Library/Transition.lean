import Mathlib

/-!
# Labelled transition systems

The steps of all parties of a concurrent program, one label each. `Reachable` takes a
condition on the steps of a run, so that a property can be shown for every run or for
the runs whose steps all meet a condition.
-/
namespace Library

structure System (σ ℓ : Type) where
  init : σ → Prop
  /-- The state behind a step, if the step can be taken. -/
  next : σ → ℓ → Option σ

namespace System

variable {σ ℓ : Type} (S : System σ ℓ)

/-- The states of runs whose steps are all allowed. -/
inductive Reachable (allowed : σ → ℓ → Prop) : σ → Prop
  | start {s : σ} (initial : S.init s) : Reachable allowed s
  | step {s t : σ} {l : ℓ} (before : Reachable allowed s) (ok : allowed s l)
      (taken : S.next s l = some t) : Reachable allowed t

/-- Any step may be taken. -/
def Always : σ → ℓ → Prop := fun _ _ => True

def run (s : σ) (labels : List ℓ) : Option σ := labels.foldlM S.next s

variable {S} {allowed : σ → ℓ → Prop}

/-- What holds at the start and is kept by every allowed step holds in every state. -/
theorem Reachable.invariant {I : σ → Prop} (base : ∀ s, S.init s → I s)
    (kept : ∀ s l t, I s → allowed s l → S.next s l = some t → I t) {s : σ}
    (reachable : S.Reachable allowed s) : I s := by
  induction reachable with
  | start initial => exact base _ initial
  | step _ ok taken ih => exact kept _ _ _ ih ok taken

theorem Reachable.mono {allowed' : σ → ℓ → Prop} (weaker : ∀ s l, allowed s l → allowed' s l) {s : σ}
    (reachable : S.Reachable allowed s) : S.Reachable allowed' s :=
  reachable.invariant (fun _ => .start) fun s l _ before ok taken => .step before (weaker s l ok) taken

/-- A run whose steps are all allowed is a run. -/
theorem Reachable.always {s : σ} (reachable : S.Reachable allowed s) : S.Reachable Always s :=
  reachable.mono fun _ _ _ => trivial

/-- The steps that are allowed. -/
def guarded (S : System σ ℓ) (allowed : σ → ℓ → Prop) [∀ s, DecidablePred (allowed s)] :
    System σ ℓ where
  init := S.init
  next s l := if allowed s l then S.next s l else none

theorem Reachable.guarded [∀ s, DecidablePred (allowed s)] {s t : σ} {labels : List ℓ}
    (reachable : S.Reachable allowed s) (ran : (S.guarded allowed).run s labels = some t) :
    S.Reachable allowed t := by
  induction labels generalizing s with
  | nil =>
    obtain rfl := Option.some.inj ran
    exact reachable
  | cons l labels ih =>
    obtain ⟨u, taken, rest⟩ := Option.bind_eq_some_iff.mp ran
    obtain ⟨ok, taken⟩ := Option.ite_none_right_eq_some.mp taken
    exact ih (.step reachable ok taken) rest

instance : ∀ s : σ, DecidablePred (Always s : ℓ → Prop) := fun _ _ => .isTrue trivial

theorem guarded_always : S.guarded Always = S := rfl

theorem Reachable.run {s t : σ} {labels : List ℓ} (reachable : S.Reachable Always s)
    (ran : S.run s labels = some t) : S.Reachable Always t := by
  rw [← S.guarded_always] at ran
  exact reachable.guarded ran

end System

end Library
