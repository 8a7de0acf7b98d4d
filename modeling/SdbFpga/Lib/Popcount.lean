import Mathlib.Data.Nat.Count
import SdbFpga.Lib.Bits

/-!
# Counting the ones of an array of words

* `bitAt mem r` : bit `r` of an array of words, lowest bit first, `exists_bitAt`;
* `toNat_cpop`, `count_bitAt_succ`, `sum_cpop` : the population count of a word counts its bits;
* `count_eq_count_iff` : when counting over a longer range gives the same number, `count_eq_countP_iff_behind`,
  `count_eq_countP_iff_missed` : the same for a list.
-/

namespace Bits

/-- Bit `r` of an array of words. -/
def bitAt {w : Nat} (mem : Nat → BitVec w) (r : Nat) : Bool := (mem (r / w)).getLsbD (r % w)

theorem bitAt_mul_add {w : Nat} (mem : Nat → BitVec w) (i : Nat) {k : Nat} (hk : k < w) :
    bitAt mem (w * i + k) = (mem i).getLsbD k := by
  rw [bitAt, Nat.mul_add_div (by omega), Nat.div_eq_of_lt hk, Nat.add_zero, Nat.mul_add_mod, Nat.mod_eq_of_lt hk]

/-- Any bits can stand in an array. -/
theorem exists_bitAt {w : Nat} (hw : 0 < w) (f : Nat → Bool) : ∃ mem : Nat → BitVec w, ∀ r, bitAt mem r = f r := by
  refine ⟨fun i => setBits 0 ((List.range w).map fun k => (k, f (w * i + k))), ?_⟩
  intro r
  rw [bitAt, getLsbD_setBits_range _ _ w le_rfl, if_pos (Nat.mod_lt r hw), Nat.div_add_mod]

theorem cpopNatRec_eq_count {w : Nat} (x : BitVec w) (n : Nat) :
    x.cpopNatRec n 0 = Nat.count (fun k => x.getLsbD k = true) n := by
  induction n with
  | zero => rfl
  | succ n ih =>
    rw [BitVec.cpopNatRec_succ, BitVec.cpopNatRec_eq, ih, Nat.zero_add, Nat.count_succ]
    cases x.getLsbD n <;> rfl

theorem toNat_cpop {w : Nat} (x : BitVec w) : x.cpop.toNat = Nat.count (fun k => x.getLsbD k = true) w := by
  rw [BitVec.toNat_cpop, cpopNatRec_eq_count]

theorem count_congr {p q : Nat → Prop} [DecidablePred p] [DecidablePred q] {n : Nat} (h : ∀ r < n, p r ↔ q r) :
    Nat.count p n = Nat.count q n :=
  (Nat.count_mono_left fun r hr => (h r hr).mp).antisymm (Nat.count_mono_left fun r hr => (h r hr).mpr)

/-- One word more. -/
theorem count_bitAt_succ {w : Nat} (mem : Nat → BitVec w) (i : Nat) :
    Nat.count (fun r => bitAt mem r = true) (w * (i + 1)) =
      Nat.count (fun r => bitAt mem r = true) (w * i) + (mem i).cpop.toNat := by
  rw [Nat.mul_succ, Nat.count_add, toNat_cpop]
  congr 1
  exact count_congr fun k hk => by rw [bitAt_mul_add mem i hk]

/-- The population counts of an array are together the number of its ones. -/
theorem sum_cpop {w : Nat} (mem : Nat → BitVec w) (n : Nat) :
    ((List.range n).map fun i => (mem i).cpop.toNat).sum = Nat.count (fun r => bitAt mem r = true) (w * n) := by
  induction n with
  | zero => simp
  | succ n ih =>
    rw [List.range_succ, List.map_append, List.sum_append, List.map_singleton, List.sum_singleton, ih,
      count_bitAt_succ]

/-- Counting block by block. -/
theorem sum_count_blocks {p : Nat → Nat → Prop} [∀ i, DecidablePred (p i)] {m : Nat} (hm : 0 < m) (n : Nat) :
    ((List.range n).map fun i => Nat.count (p i) m).sum = Nat.count (fun R => p (R / m) (R % m)) (m * n) := by
  induction n with
  | zero => simp
  | succ n ih =>
    have hblock : Nat.count (p n) m = Nat.count (fun k => p ((m * n + k) / m) ((m * n + k) % m)) m := by
      apply count_congr
      intro k hk
      rw [Nat.mul_add_div hm, Nat.div_eq_of_lt hk, Nat.add_zero, Nat.mul_add_mod, Nat.mod_eq_of_lt hk]
    rw [List.range_succ, List.map_append, List.sum_append, ih, Nat.mul_succ, Nat.count_add, ← hblock]
    simp

/-- A longer range counts the same exactly if nothing in the rest counts. -/
theorem count_eq_count_iff {p q : Nat → Prop} [DecidablePred p] [DecidablePred q] {n m : Nat} (hnm : n ≤ m)
    (h : ∀ r < n, q r ↔ p r) : Nat.count q m = Nat.count p n ↔ ∀ r, n ≤ r → r < m → ¬ q r := by
  obtain ⟨k, rfl⟩ := Nat.exists_eq_add_of_le hnm
  rw [Nat.count_add, count_congr h, Nat.add_eq_left, Nat.count_iff_forall_not]
  constructor
  · intro hnot r hr hlt
    obtain ⟨i, rfl⟩ := Nat.exists_eq_add_of_le hr
    exact hnot i (by omega)
  · intro hnot i hi
    exact hnot (n + i) (by omega) (by omega)

/-- Counting in a list by position. -/
theorem countP_eq_count {α : Type} (f : α → Bool) (l : List α) :
    l.countP f = Nat.count (fun r => l[r]?.any f = true) l.length := by
  induction l using List.reverseRecOn with
  | nil => rfl
  | append_singleton l a ih =>
    have hold : Nat.count (fun r => (l ++ [a])[r]?.any f = true) l.length = l.countP f := by
      rw [ih]
      exact count_congr fun r hr => by rw [List.getElem?_append_left hr]
    rw [List.countP_append, List.length_append, List.length_singleton, Nat.count_succ, hold, List.getElem?_concat_length,
      List.countP_singleton]
    rfl

section Count
variable {α : Type} {l : List α} {g : α → Bool} {f : Nat → Bool} {n : Nat}

/-- Counting behind the end of a list gives the same exactly if nothing is found there. -/
theorem count_eq_countP_iff_behind (hn : l.length ≤ n) (hf : ∀ r (h : r < l.length), f r = g l[r]) :
    Nat.count (fun r => f r = true) n = l.countP g ↔ ∀ r, l.length ≤ r → r < n → f r = false := by
  have heq : ∀ r < l.length, f r = true ↔ l[r]?.any g = true := by
    intro r hr
    rw [hf r hr, List.getElem?_eq_getElem hr, Option.any_some]
  rw [countP_eq_count, count_eq_count_iff hn heq]
  exact forall₃_congr fun r _ _ => Iff.of_eq (Bool.not_eq_true _)

/-- Counting a part of a list gives the same exactly if nothing is missed. -/
theorem count_eq_countP_iff_missed (hn : n ≤ l.length) (hf : ∀ r (h : r < l.length), r < n → f r = g l[r]) :
    Nat.count (fun r => f r = true) n = l.countP g ↔ ∀ r, n ≤ r → ∀ h : r < l.length, g l[r] = false := by
  have heq : ∀ r < n, l[r]?.any g = true ↔ f r = true := by
    intro r hr
    rw [hf r (by omega) hr, List.getElem?_eq_getElem (by omega), Option.any_some]
  rw [countP_eq_count, eq_comm, count_eq_count_iff hn heq]
  apply forall₃_congr
  intro r _ hr
  rw [List.getElem?_eq_getElem hr, Option.any_some, Bool.not_eq_true]

end Count

end Bits
