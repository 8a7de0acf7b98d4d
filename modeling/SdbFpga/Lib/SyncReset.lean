import Mathlib.Algebra.GroupWithZero.Nat
import Mathlib.Data.List.DropRight
import Mathlib.Tactic.Common

/-!
# Registers with a synchronous reset

Cycles are listed in order; `r` is the reset, itself registered, so that a cycle of reset clears at the end of the
next one.

* `sinceReset` : the cycles since the last one of reset;
* `window` : each of them with the cycle after it, `map_fst_window`;
* `value_eq_foldl` : a register that the reset clears holds its update folded over the window;
* `foldl_counter`, `foldl_delayed`, `foldl_sticky`, `foldl_saturating` : four updates and their folds.
-/

namespace SyncReset

universe u v
variable {α : Type u} {β : Type v}

/-! ## The window -/

section Window
variable (r : α → Bool)

/-- The cycles since the last one of reset. -/
def sinceReset (xs : List α) : List α := xs.rtakeWhile fun x => !r x

/-- The cycles since the last one of reset, each with the cycle after it. -/
def window (xs : List α) : List (α × α) := (xs.zip xs.tail).rtakeWhile fun p => !r p.1

theorem zip_tail_concat (xs : List α) (x y : α) :
    (xs ++ [x, y]).zip (xs ++ [x, y]).tail = (xs ++ [x]).zip (xs ++ [x]).tail ++ [(x, y)] := by
  induction xs with
  | nil => rfl
  | cons z zs ih =>
    cases zs with
    | nil => rfl
    | cons a as => exact congrArg ((z, a) :: ·) ih

theorem window_singleton (x : α) : window r [x] = [] := rfl

theorem window_concat (xs : List α) (x y : α) :
    window r (xs ++ [x, y]) = if r x then [] else window r (xs ++ [x]) ++ [(x, y)] := by
  unfold window
  rw [zip_tail_concat, List.rtakeWhile_concat]
  cases r x
  · rfl
  · rfl

theorem map_fst_window (xs : List α) (x : α) : (window r (xs ++ [x])).map Prod.fst = sinceReset r xs := by
  induction xs using List.reverseRecOn generalizing x with
  | nil => rfl
  | append_singleton xs y ih =>
    rw [List.append_assoc, List.singleton_append, window_concat]
    unfold sinceReset
    rw [List.rtakeWhile_concat]
    cases r y
    · simp only [Bool.false_eq_true, if_false, Bool.not_false, if_true, List.map_append, List.map_singleton]
      exact congrArg (· ++ [y]) (ih y)
    · rfl

/-- A register that starts in reset, is cleared after a cycle of reset and else updated from the last two cycles. -/
theorem value_eq_foldl (value : List α → β) {init : β} {f : β → α × α → β} (hone : ∀ x, value [x] = init)
    (hstep : ∀ xs x y, value (xs ++ [x, y]) = if r x then init else f (value (xs ++ [x])) (x, y))
    (xs : List α) (x : α) : value (xs ++ [x]) = (window r (xs ++ [x])).foldl f init := by
  induction xs using List.reverseRecOn generalizing x with
  | nil => exact hone x
  | append_singleton xs y ih =>
    rw [List.append_assoc, List.singleton_append, hstep, window_concat]
    cases r y
    · simp only [Bool.false_eq_true, if_false, List.foldl_append, List.foldl_cons, List.foldl_nil]
      rw [ih y]
    · rfl

end Window

/-! ## Updates -/

section Updates
variable {n : Nat}

/-- A counter of `n` bits that adds a weight. -/
theorem foldl_counter (weight : α → Nat) (xs : List α) :
    xs.foldl (fun c x => c + BitVec.ofNat n (weight x)) 0 = BitVec.ofNat n (xs.map weight).sum := by
  induction xs using List.reverseRecOn with
  | nil => rfl
  | append_singleton xs x ih =>
    rw [List.foldl_append, ih, List.map_append, List.sum_append, BitVec.ofNat_add]
    simp

/-- A counter that adds one cycle late: what the last cycle brings still waits in `q`. -/
theorem foldl_delayed {γ : Type*} {q₀ : γ} (next : α → γ) {amount : γ → BitVec n} (hq₀ : amount q₀ = 0)
    (xs : List α) : (xs.foldl (fun (c : γ × BitVec n) x => (next x, c.2 + amount c.1)) (q₀, 0)).2 =
      BitVec.ofNat n (xs.dropLast.map fun x => (amount (next x)).toNat).sum := by
  have hlast : ∀ (xs : List α) (x : α),
      ((xs ++ [x]).foldl (fun (c : γ × BitVec n) x => (next x, c.2 + amount c.1)) (q₀, 0)).1 = next x := by
    intro xs x
    rw [List.foldl_append]
    rfl
  induction xs using List.reverseRecOn with
  | nil => rfl
  | append_singleton xs x ih =>
    rw [List.foldl_append, List.foldl_cons, List.foldl_nil, ih, List.dropLast_concat]
    cases xs using List.reverseRecOn with
    | nil => simp [hq₀]
    | append_singleton xs y =>
      rw [hlast, List.dropLast_concat, List.map_append, List.sum_append, BitVec.ofNat_add]
      simp

/-- A flag that stays. -/
theorem foldl_sticky (p : α → Bool) (xs : List α) : xs.foldl (fun b x => b || p x) false = xs.any p := by
  induction xs using List.reverseRecOn with
  | nil => rfl
  | append_singleton xs x ih => rw [List.foldl_append, ih, List.any_append]; simp

/-- A counter that stops at its largest value. -/
theorem foldl_saturating (p : α → Bool) (xs : List α) :
    xs.foldl (fun c x => if p x && !(c == BitVec.allOnes n) then c + 1 else c) 0 =
      BitVec.ofNat n (min (2 ^ n - 1) (xs.countP p)) := by
  induction xs using List.reverseRecOn with
  | nil => simp
  | append_singleton xs x ih =>
    rw [List.foldl_append, List.foldl_cons, List.foldl_nil, ih, List.countP_append, List.countP_singleton]
    have hpow : 0 < 2 ^ n := Nat.two_pow_pos n
    have hfull : (BitVec.ofNat n (min (2 ^ n - 1) (xs.countP p)) == BitVec.allOnes n) =
        decide (2 ^ n - 1 ≤ xs.countP p) := by
      rw [beq_eq_decide, decide_eq_decide, ← BitVec.toNat_inj, BitVec.toNat_ofNat, BitVec.toNat_allOnes,
        Nat.mod_eq_of_lt (by omega)]
      omega
    rw [hfull]
    cases p x
    · simp
    · by_cases hle : 2 ^ n - 1 ≤ xs.countP p
      · rw [decide_eq_true hle, if_neg (by simp), if_pos rfl, Nat.min_eq_left hle, Nat.min_eq_left (by omega)]
      · rw [decide_eq_false hle, if_pos (by simp), if_pos rfl, Nat.min_eq_right (by omega),
          Nat.min_eq_right (by omega), BitVec.ofNat_add]
        rfl

end Updates

end SyncReset
