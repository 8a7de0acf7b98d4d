import Mathlib.Algebra.GroupWithZero.Nat
import Mathlib.Data.List.Basic
import Mathlib.Tactic.Common

/-!
# Guarded transition systems

* `System` : initial states, a guard on labels and a deterministic step; all nondeterminism is in the label;
* `Reachable`, `Reachable.invariant` : what holds initially and is preserved by a permitted step holds everywhere;
* `System.when` : the same system with one more condition on every step, `Reachable.of_when`;
* `System.after` : the same system from a given state on;
* `System.run`, `System.Steps`, `System.Along` : runs given by a list of labels, `Reachable.run` exhibits the state
  they reach;
* `System.run_invariant`, `System.along_of_steps` : the invariant rule for one run;
* `along_iff_steps` : a step-wise equivalence carried over a whole run;
* `run_cost` : a potential that pays for the cost of every step bounds the cost of a run.
-/

namespace Transition

universe u v

/-- States `σ` that move under labels `ι`; a label is taken only where the guard permits it. -/
structure System (σ : Type u) (ι : Type v) where
  init : σ → Prop
  permits : σ → ι → Prop
  step : σ → ι → σ

variable {σ : Type u} {ι : Type v}

/-- The states some run from an initial state reaches. -/
inductive Reachable (S : System σ ι) : σ → Prop
  | init {s : σ} : S.init s → Reachable S s
  | step {s : σ} {i : ι} : Reachable S s → S.permits s i → Reachable S (S.step s i)

/-- The invariant rule; the step may use that its source is reachable. -/
theorem Reachable.invariant {S : System σ ι} {P : σ → Prop} (hinit : ∀ s, S.init s → P s)
    (hstep : ∀ s i, Reachable S s → P s → S.permits s i → P (S.step s i)) {s : σ} (h : Reachable S s) :
    P s := by
  induction h with
  | init h0 => exact hinit _ h0
  | step hr hi ih => exact hstep _ _ hr ih hi

/-- The runs of `S` whose every step also meets `C`. -/
def System.when (S : System σ ι) (C : σ → ι → Prop) : System σ ι :=
  { S with permits := fun s i => S.permits s i ∧ C s i }

instance (S : System σ ι) (C : σ → ι → Prop) (s : σ) (i : ι) [Decidable (S.permits s i)] [Decidable (C s i)] :
    Decidable ((S.when C).permits s i) := inferInstanceAs (Decidable (S.permits s i ∧ C s i))

theorem Reachable.of_when {S : System σ ι} {C : σ → ι → Prop} {s : σ} (h : Reachable (S.when C) s) :
    Reachable S s := by
  induction h with
  | init h0 => exact .init h0
  | step _ hi ih => exact .step ih hi.1

/-- A stronger condition leaves fewer states to reach. -/
theorem Reachable.weaken {S : System σ ι} {C D : σ → ι → Prop} (hcd : ∀ s i, C s i → D s i) {s : σ}
    (h : Reachable (S.when C) s) : Reachable (S.when D) s := by
  induction h with
  | init h0 => exact .init h0
  | step _ hi ih => exact .step ih ⟨hi.1, hcd _ _ hi.2⟩

/-- The runs that go on from `s`. -/
def System.after (S : System σ ι) (s : σ) : System σ ι := { S with init := fun s' => s' = s }

theorem Reachable.of_after {S : System σ ι} {s s' : σ} (hs : Reachable S s) (h : Reachable (S.after s) s') :
    Reachable S s' := by
  induction h with
  | init h0 => rwa [h0]
  | step _ hi ih => exact .step ih hi

/-! ## Runs along a list of labels -/

/-- The state after a list of labels. -/
def System.run (S : System σ ι) (s : σ) (is : List ι) : σ := is.foldl S.step s

/-- Every step of the run meets `C`. -/
def System.Steps (S : System σ ι) (C : σ → ι → Prop) : σ → List ι → Prop
  | _, [] => True
  | s, i :: is => C s i ∧ S.Steps C (S.step s i) is

/-- `P` holds in every state of the run, the first and the last included. -/
def System.Along (S : System σ ι) (P : σ → Prop) : σ → List ι → Prop
  | s, [] => P s
  | s, i :: is => P s ∧ S.Along P (S.step s i) is

instance System.decidableSteps (S : System σ ι) (C : σ → ι → Prop) [∀ s i, Decidable (C s i)] :
    ∀ s is, Decidable (S.Steps C s is)
  | _, [] => .isTrue trivial
  | s, i :: is =>
    have := S.decidableSteps C (S.step s i) is
    inferInstanceAs (Decidable (C s i ∧ S.Steps C (S.step s i) is))

theorem System.run_concat (S : System σ ι) (s : σ) (is : List ι) (i : ι) :
    S.run s (is ++ [i]) = S.step (S.run s is) i := List.foldl_append

theorem Reachable.run {S : System σ ι} {s : σ} {is : List ι} (h : Reachable S s) (ha : S.Steps S.permits s is) :
    Reachable S (S.run s is) := by
  induction is generalizing s with
  | nil => exact h
  | cons i is ih => exact ih (h.step ha.1) ha.2

/-- The invariant rule for one run. -/
theorem System.run_invariant {S : System σ ι} {P : σ → Prop} (hstep : ∀ s i, P s → S.permits s i → P (S.step s i))
    {s : σ} {is : List ι} (h : P s) (ha : S.Steps S.permits s is) : P (S.run s is) := by
  induction is generalizing s with
  | nil => exact h
  | cons i is ih => exact ih (hstep s i h ha.1) ha.2

/-- What every step that meets `C` preserves holds along a run of such steps. -/
theorem System.along_of_steps {S : System σ ι} {P : σ → Prop} {C : σ → ι → Prop}
    (hstep : ∀ s i, P s → C s i → P (S.step s i)) {s : σ} {is : List ι} (h : P s) (hc : S.Steps C s is) :
    S.Along P s is := by
  induction is generalizing s with
  | nil => exact h
  | cons i is ih => exact ⟨h, ih (hstep s i h hc.1) hc.2⟩

/-- Where one step from a good state is good exactly when it meets `C`, a run stays good exactly when all of its
steps meet `C`. -/
theorem along_iff_steps {S : System σ ι} {P : σ → Prop} {C : σ → ι → Prop}
    (hstep : ∀ s i, Reachable S s → P s → S.permits s i → (P (S.step s i) ↔ C s i)) {s : σ} {is : List ι}
    (h : Reachable S s) (hp : P s) (ha : S.Steps S.permits s is) : S.Along P s is ↔ S.Steps C s is := by
  induction is generalizing s with
  | nil => exact ⟨fun _ => trivial, fun _ => hp⟩
  | cons i is ih =>
    have hiff := hstep s i h hp ha.1
    constructor
    · rintro ⟨_, hrest⟩
      have hp' : P (S.step s i) := by
        cases is with
        | nil => exact hrest
        | cons j is => exact hrest.1
      exact ⟨hiff.mp hp', (ih (h.step ha.1) hp' ha.2).mp hrest⟩
    · rintro ⟨hc, hrest⟩
      have hp' := hiff.mpr hc
      exact ⟨hp, (ih (h.step ha.1) hp' ha.2).mpr hrest⟩

/-! ## Potentials -/

/-- Where the potential `Φ` pays for what a step costs beyond its credit, the credits of a run and the potential it
starts with bound its cost. -/
theorem System.run_cost {S : System σ ι} {Φ : σ → Nat → Prop} {cost credit : ι → Nat}
    (hstep : ∀ s i m, Φ s m → S.permits s i → ∃ m', Φ (S.step s i) m' ∧ m' + cost i ≤ m + credit i)
    {s : σ} {is : List ι} {m : Nat} (h : Φ s m) (ha : S.Steps S.permits s is) :
    (is.map cost).sum ≤ m + (is.map credit).sum := by
  induction is generalizing s m with
  | nil => exact Nat.zero_le _
  | cons i is ih =>
    obtain ⟨m', hm', hle⟩ := hstep s i m h ha.1
    have hrest := ih hm' ha.2
    rw [List.map_cons, List.map_cons, List.sum_cons, List.sum_cons]
    omega

end Transition
