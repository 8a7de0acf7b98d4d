import SdbFpga.Lib.Bits

/-!
# Packed integers

Vectors of `k` lanes of `w` bits, as the multimedia instructions see them.

* `broadcast` : one value in every lane;
* `cmpgt` : the signed comparison, lane by lane, as a mask;
* `movemask` : the top bits of the lanes;
* `getLsbD_not_movemask_cmpgt` : the complement of such a mask is the signed `≤`;
* `slt_eq_ult_iff` : signed and unsigned comparison differ exactly where the top bits do.
-/

namespace Bits

/-- A lane of words of its own width. -/
theorem lane_concat_self {w : Nat} (f : Nat → BitVec w) (k i : Nat) (hi : i < k) : lane w i (concat w k f) = f i := by
  apply BitVec.eq_of_getLsbD_eq
  intro j hj
  have hdiv : (w * i + j) / w = i := by rw [Nat.mul_add_div (by omega), Nat.div_eq_of_lt hj, Nat.add_zero]
  have hmod : (w * i + j) % w = j := by rw [Nat.mul_add_mod, Nat.mod_eq_of_lt hj]
  rw [getLsbD_lane, getLsbD_concat _ _ _ _ (lanePos_lt hi hj), hdiv, hmod, decide_eq_true hj, Bool.true_and]

section Simd
variable (w k : Nat)

/-- `set1` : `x` in every lane. -/
def broadcast (x : BitVec w) : BitVec (w * k) := concat w k fun _ => x

/-- All ones in the lanes where `a` is greater than `b`, both signed. -/
def cmpgt (a b : BitVec (w * k)) : BitVec (w * k) :=
  concat w k fun i => if (lane w i b).slt (lane w i a) then BitVec.allOnes w else 0

/-- The most significant bit of every lane. -/
def movemask (a : BitVec (w * k)) : BitVec k :=
  setBits 0 ((List.range k).map fun i => (i, (lane w i a).msb))

variable {w k}

theorem lane_broadcast (x : BitVec w) {i : Nat} (hi : i < k) : lane w i (broadcast w k x) = x :=
  lane_concat_self _ k i hi

theorem getLsbD_movemask (a : BitVec (w * k)) {i : Nat} (hi : i < k) :
    (movemask w k a).getLsbD i = (lane w i a).msb := by
  rw [movemask, getLsbD_setBits_range _ _ _ (Nat.le_refl k), if_pos hi]

/-- The complement of the mask of `a > b` is `a ≤ b`. -/
theorem getLsbD_not_movemask_cmpgt (hw : 0 < w) (a b : BitVec (w * k)) {i : Nat} (hi : i < k) :
    (~~~movemask w k (cmpgt w k a b)).getLsbD i = !(lane w i b).slt (lane w i a) := by
  rw [BitVec.getLsbD_not, getLsbD_movemask _ hi, cmpgt, lane_concat_self _ k i hi, decide_eq_true hi, Bool.true_and]
  congr 1
  split
  · next h =>
    rw [h, BitVec.msb_allOnes hw]
  · next h =>
    rw [Bool.not_eq_true] at h
    rw [h]
    exact BitVec.msb_zero

end Simd

/-- Signed and unsigned comparison differ exactly where the top bits do. -/
theorem slt_eq_ult_iff {w : Nat} (x y : BitVec w) : x.slt y = x.ult y ↔ x.msb = y.msb := by
  constructor
  · intro heq
    by_contra hne
    rw [BitVec.slt_eq_not_ult_of_msb_neq hne] at heq
    exact Bool.not_ne_self _ heq
  · exact BitVec.slt_eq_ult_of_msb_eq

theorem msb_eq_false_iff_toNat_lt {w : Nat} (x : BitVec (w + 1)) : x.msb = false ↔ x.toNat < 2 ^ w := by
  rw [BitVec.msb_eq_false_iff_two_mul_lt, Nat.pow_succ']
  omega

end Bits
