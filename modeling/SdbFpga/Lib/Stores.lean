import Mathlib.Logic.Function.Basic
import Mathlib.Tactic.Common

/-!
# Lists of stores

* `Stores.run` : the memory after the stores of a list;
* `run_of_not_mem` : what is not stored to is unchanged, `run_of_mem` : what is stored to depends on the stores only;
* `run_comm` : stores to different addresses can be exchanged.
-/

namespace Stores

variable {A V : Type} [DecidableEq A]

/-- The memory after the stores, in order. -/
def run (stores : List (A × V)) (mem : A → V) : A → V :=
  stores.foldl (fun mem store => Function.update mem store.1 store.2) mem

@[simp] theorem run_nil (mem : A → V) : run [] mem = mem := rfl

@[simp] theorem run_cons (store : A × V) (stores : List (A × V)) (mem : A → V) :
    run (store :: stores) mem = run stores (Function.update mem store.1 store.2) := rfl

/-- What is not stored to is unchanged. -/
theorem run_of_not_mem (stores : List (A × V)) : ∀ (mem : A → V) {a : A}, a ∉ stores.map Prod.fst →
    run stores mem a = mem a := by
  induction stores with
  | nil => exact fun _ _ _ => rfl
  | cons store stores ih =>
    intro mem a ha
    simp only [List.map_cons, List.mem_cons, not_or] at ha
    rw [run_cons, ih _ ha.2, Function.update_of_ne ha.1]

/-- What is stored to depends on the stores only. -/
theorem run_of_mem (stores : List (A × V)) : ∀ (mem mem' : A → V) {a : A}, a ∈ stores.map Prod.fst →
    run stores mem a = run stores mem' a := by
  induction stores with
  | nil =>
    intro _ _ a ha
    cases ha
  | cons store stores ih =>
    intro mem mem' a ha
    rw [run_cons, run_cons]
    by_cases hrest : a ∈ stores.map Prod.fst
    · exact ih _ _ hrest
    · have heq : a = store.1 := by simpa [hrest] using ha
      rw [run_of_not_mem _ _ hrest, run_of_not_mem _ _ hrest, heq, Function.update_self, Function.update_self]

/-- Stores to different addresses can be exchanged. -/
theorem run_comm {xs ys : List (A × V)} (hdisj : ∀ a ∈ xs.map Prod.fst, a ∉ ys.map Prod.fst) (mem : A → V) :
    run xs (run ys mem) = run ys (run xs mem) := by
  funext a
  by_cases hx : a ∈ xs.map Prod.fst
  · rw [run_of_not_mem ys _ (hdisj a hx)]
    exact run_of_mem xs _ _ hx
  · rw [run_of_not_mem xs _ hx]
    by_cases hy : a ∈ ys.map Prod.fst
    · exact run_of_mem ys _ _ hy
    · rw [run_of_not_mem ys _ hy, run_of_not_mem ys _ hy, run_of_not_mem xs _ hx]

end Stores
