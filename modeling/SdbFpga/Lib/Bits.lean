import Mathlib.Data.BitVec
import Mathlib.Data.Nat.Bitwise
import Mathlib.Tactic.Common

/-!
# Assigning single bits, lanes and packed words

* `setBit`, `setBits` : a list of single-bit assignments, `getLsbD_setBits_range` reads the result of a range;
* `setSlice` : the assignment of a slice;
* `lane w k v` : the `w`-bit field number `k` of `v`, `toNat_extractLsb_lane` for a slice;
* `Below v k` : no bit of `v` from `k` on, `lane_or_shift`, `lane_or_shift_old` : appending a field to a word;
* `concat w k f` : `k` words of `w` bits, lowest first, `lane_concat` : a lane of it is a lane of one word.
-/

namespace Bits

variable {n : Nat}

/-- `v` with bit `i` assigned `b`. -/
def setBit (v : BitVec n) (i : Nat) (b : Bool) : BitVec n :=
  v &&& ~~~BitVec.twoPow n i ||| if b then BitVec.twoPow n i else 0#n

theorem getLsbD_setBit (v : BitVec n) (i j : Nat) (b : Bool) (hi : i < n) :
    (setBit v i b).getLsbD j = if j = i then b else v.getLsbD j := by
  unfold setBit
  by_cases hj : j = i
  · subst hj
    cases b <;> simp [hi]
  · have hij : ¬ i = j := fun h => hj h.symm
    by_cases hjn : j < n
    · cases b <;> simp [hj, hjn]
    · cases b <;> simp [BitVec.getLsbD_twoPow, hj, hij, hjn, BitVec.getLsbD_of_ge v j (by omega)]

/-- The assignments of a list, in order. -/
def setBits (v : BitVec n) (as : List (Nat × Bool)) : BitVec n :=
  as.foldl (fun v a => setBit v a.1 a.2) v

theorem setBits_append (v : BitVec n) (as bs : List (Nat × Bool)) :
    setBits v (as ++ bs) = setBits (setBits v as) bs := by
  simp [setBits]

/-- Assigning bits `0 .. k-1` in order leaves the others alone. -/
theorem getLsbD_setBits_range (v : BitVec n) (f : Nat → Bool) (k : Nat) (hk : k ≤ n) (j : Nat) :
    (setBits v ((List.range k).map fun i => (i, f i))).getLsbD j = if j < k then f j else v.getLsbD j := by
  induction k with
  | zero => simp [setBits]
  | succ k ih =>
    rw [List.range_succ, List.map_append, setBits_append]
    simp only [List.map_cons, List.map_nil, setBits, List.foldl_cons, List.foldl_nil]
    rw [getLsbD_setBit _ _ _ _ (by omega)]
    by_cases hj : j = k
    · subst hj; simp
    · rw [if_neg hj]
      have := ih (by omega)
      simp only [setBits] at this
      rw [this]
      by_cases hlt : j < k
      · rw [if_pos hlt, if_pos (by omega)]
      · rw [if_neg hlt, if_neg (by omega)]

/-- `v[i +: w] := c`; what is outside of `v` is dropped. -/
def setSlice {w : Nat} (v : BitVec n) (i : Nat) (c : BitVec w) : BitVec n :=
  v &&& ~~~((BitVec.allOnes w).setWidth n <<< i) ||| c.setWidth n <<< i

theorem getLsbD_setSlice {w : Nat} (v : BitVec n) (i : Nat) (c : BitVec w) {j : Nat} (hj : j < n) :
    (setSlice v i c).getLsbD j = if i ≤ j ∧ j < i + w then c.getLsbD (j - i) else v.getLsbD j := by
  have hsub : j - i < n := by omega
  unfold setSlice
  rw [BitVec.getLsbD_or, BitVec.getLsbD_and, BitVec.getLsbD_not, BitVec.getLsbD_shiftLeft, BitVec.getLsbD_shiftLeft,
    BitVec.getLsbD_setWidth, BitVec.getLsbD_setWidth, BitVec.getLsbD_allOnes]
  by_cases hi : i ≤ j
  · have hnot : ¬ j < i := by omega
    by_cases hw : j < i + w
    · have hlow : j - i < w := by omega
      simp [hj, hi, hnot, hw, hsub, hlow]
    · have hhigh : ¬ j - i < w := by omega
      simp [hj, hi, hnot, hw, hsub, hhigh, BitVec.getLsbD_of_ge c (j - i) (by omega)]
  · have hlt : j < i := by omega
    simp [hj, hi, hlt]

/-- A position in lane `i` is below the lanes from `m` on. -/
theorem lanePos_lt {w m i j : Nat} (hi : i < m) (hj : j < w) : w * i + j < w * m := by
  calc w * i + j < w * i + w := Nat.add_lt_add_left hj _
    _ = w * (i + 1) := (Nat.mul_succ w i).symm
    _ ≤ w * m := Nat.mul_le_mul_left w hi

/-- A position in lane `k`. -/
theorem div_mod_lane {w k j : Nat} (hge : w * k ≤ j) (hlt : j < w * k + w) : j / w = k ∧ j % w = j - w * k := by
  have hw : 0 < w := by omega
  refine (Nat.div_mod_unique hw).mpr ⟨?_, ?_⟩ <;> omega

/-- Slices side by side from bit 0 on. -/
theorem getLsbD_foldl_setSlice {w : Nat} (f : Nat → BitVec w) (v : BitVec n) (k : Nat) {j : Nat} (hj : j < n) :
    ((List.range k).foldl (fun r i => setSlice r (w * i) (f i)) v).getLsbD j =
      if j < w * k then (f (j / w)).getLsbD (j % w) else v.getLsbD j := by
  induction k with
  | zero => simp
  | succ k ih =>
    rw [List.range_succ, List.foldl_append, List.foldl_cons, List.foldl_nil, getLsbD_setSlice _ _ _ hj, ih, Nat.mul_succ]
    by_cases hlt : j < w * k
    · rw [if_neg (by omega), if_pos hlt, if_pos (by omega)]
    · rw [if_neg hlt]
      by_cases hin : j < w * k + w
      · obtain ⟨hdiv, hmod⟩ := div_mod_lane (by omega) hin
        rw [if_pos ⟨by omega, hin⟩, if_pos hin, hdiv, hmod]
      · rw [if_neg (by omega), if_neg hin]

/-- The `w`-bit lane `k` of `v`. -/
def lane (w k : Nat) (v : BitVec n) : BitVec w := v.extractLsb' (w * k) w

theorem getLsbD_lane (w k : Nat) (v : BitVec n) (i : Nat) :
    (lane w k v).getLsbD i = (decide (i < w) && v.getLsbD (w * k + i)) := by
  simp [lane]

theorem lane_zero (w : Nat) (v : BitVec n) : lane w 0 v = v.setWidth w := by
  apply BitVec.eq_of_getLsbD_eq
  intro i hi
  rw [getLsbD_lane, BitVec.getLsbD_setWidth, Nat.mul_zero, Nat.zero_add]

/-- A lane that survives a change of width. -/
theorem lane_setWidth {w k m : Nat} (h : w * k + w ≤ m) (v : BitVec n) : lane w k (v.setWidth m) = lane w k v := by
  apply BitVec.eq_of_getLsbD_eq
  intro i hi
  have hm : w * k + i < m := by omega
  rw [getLsbD_lane, getLsbD_lane, BitVec.getLsbD_setWidth, decide_eq_true hm, Bool.true_and]

/-- The slice `v[w*k+w-1 : w*k]` is lane `k`. -/
theorem toNat_extractLsb_lane (w k : Nat) (v : BitVec n) (hw : 0 < w) :
    (v.extractLsb (w * k + (w - 1)) (w * k)).toNat = (lane w k v).toNat := by
  simp only [BitVec.extractLsb, lane, BitVec.extractLsb'_toNat]
  congr 2
  omega

/-- `v[hi:0]` is all ones. -/
theorem toNat_extractLsb_ones (v : BitVec n) (hi : Nat) :
    (v.extractLsb hi 0).toNat = 2 ^ (hi + 1) - 1 ↔ ∀ k ≤ hi, v.getLsbD k = true := by
  show (v.extractLsb hi 0).toNat = 2 ^ (hi - 0 + 1) - 1 ↔ _
  rw [← BitVec.toNat_allOnes, BitVec.toNat_inj]
  constructor
  · intro h k hk
    have hbit := congrArg (fun x => x.getLsbD k) h
    simpa [BitVec.getLsbD_extractLsb, hk, Nat.lt_succ_of_le hk] using hbit
  · intro h
    apply BitVec.eq_of_getLsbD_eq
    intro k hk
    have hk' : k ≤ hi := by omega
    simp [Nat.lt_succ_of_le hk', h k hk']

/-! ## Appending a field to a word -/

/-- All bits of `v` are below `k`. -/
def Below (v : BitVec n) (k : Nat) : Prop := ∀ b, k ≤ b → v.getLsbD b = false

theorem below_zero (k : Nat) : Below (0#n) k := by
  intro b _
  exact BitVec.getLsbD_zero

theorem below_of_toNat_lt {v : BitVec n} {w : Nat} (h : v.toNat < 2 ^ w) : Below v w := by
  intro b hb
  exact Nat.testBit_lt_two_pow (lt_of_lt_of_le h (Nat.pow_le_pow_right (by decide) hb))

theorem below_ofNat {x w : Nat} (h : x < 2 ^ w) : Below (BitVec.ofNat n x) w := by
  apply below_of_toNat_lt
  rw [BitVec.toNat_ofNat]
  exact (Nat.mod_le _ _).trans_lt h

theorem Below.or_shift {v c : BitVec n} {k w : Nat} (hv : Below v k) (hc : Below c w) :
    Below (v ||| c <<< k) (k + w) := by
  intro b hb
  rw [BitVec.getLsbD_or, BitVec.getLsbD_shiftLeft, hv b (by omega), hc (b - k) (by omega)]
  simp

/-- The appended field. -/
theorem lane_or_shift {v c : BitVec n} {w m : Nat} (hv : Below v (w * m)) (hm : w * m + w ≤ n) :
    lane w m (v ||| c <<< (w * m)) = c.setWidth w := by
  apply BitVec.eq_of_getLsbD_eq
  intro i hi
  have hlow : ¬ w * m + i < w * m := by omega
  have hn : w * m + i < n := by omega
  rw [getLsbD_lane, BitVec.getLsbD_or, BitVec.getLsbD_shiftLeft, hv _ (by omega), BitVec.getLsbD_setWidth]
  simp [hi, hlow, hn]

/-- The fields appended before. -/
theorem lane_or_shift_old {v c : BitVec n} {w m i : Nat} (hi : i < m) :
    lane w i (v ||| c <<< (w * m)) = lane w i v := by
  apply BitVec.eq_of_getLsbD_eq
  intro j hj
  have hlow : w * i + j < w * m := lanePos_lt hi hj
  rw [getLsbD_lane, getLsbD_lane, BitVec.getLsbD_or, BitVec.getLsbD_shiftLeft]
  simp [hlow]

/-- A narrow lane inside a wider one. -/
theorem lane_lane {w v k i : Nat} (hi : i < v) (x : BitVec n) : lane w i (lane (w * v) k x) = lane w (v * k + i) x := by
  apply BitVec.eq_of_getLsbD_eq
  intro j hj
  have hin : w * i + j < w * v := lanePos_lt hi hj
  have hpos : w * v * k + (w * i + j) = w * (v * k + i) + j := by
    rw [Nat.mul_add, Nat.mul_assoc]
    omega
  simp only [getLsbD_lane, hin, hpos, decide_true, Bool.true_and]

/-! ## Words side by side -/

/-- `k` words of `w` bits, `f 0` in the lowest bits. -/
def concat (w : Nat) : (k : Nat) → (Nat → BitVec w) → BitVec (w * k)
  | 0, _ => 0#0
  | k + 1, f => (f k ++ concat w k f).cast (by rw [Nat.mul_succ, Nat.add_comm])

theorem getLsbD_concat (w : Nat) (f : Nat → BitVec w) (k b : Nat) (hb : b < w * k) :
    (concat w k f).getLsbD b = (f (b / w)).getLsbD (b % w) := by
  induction k with
  | zero => omega
  | succ k ih =>
    rw [Nat.mul_succ] at hb
    rw [concat, BitVec.getLsbD_cast, BitVec.getLsbD_append]
    by_cases hlt : b < w * k
    · rw [if_pos hlt, ih hlt]
    · obtain ⟨hdiv, hmod⟩ := div_mod_lane (Nat.le_of_not_lt hlt) hb
      rw [if_neg hlt, hdiv, hmod]

/-- A lane of the concatenation, where `v` lanes make a word. -/
theorem lane_concat {w v m : Nat} (hm : w * v = m) (f : Nat → BitVec m) (n k : Nat) (hk : k < v * n) :
    lane w k (concat m n f) = lane w (k % v) (f (k / v)) := by
  subst hm
  have hv : 0 < v := Nat.pos_of_mul_pos_right (Nat.lt_of_le_of_lt (Nat.zero_le k) hk)
  apply BitVec.eq_of_getLsbD_eq
  intro i hi
  have hbound : w * k + i < w * v * n := by
    rw [Nat.mul_assoc]
    exact lanePos_lt hk hi
  have hsplit : w * k + i = w * (k % v) + i + w * v * (k / v) := by
    have hkv := Nat.div_add_mod k v
    calc w * k + i = w * (v * (k / v) + k % v) + i := by rw [hkv]
      _ = w * (k % v) + i + w * v * (k / v) := by
        rw [Nat.mul_add, Nat.mul_assoc]
        omega
  have hlow : w * (k % v) + i < w * v := lanePos_lt (Nat.mod_lt k hv) hi
  rw [getLsbD_lane, getLsbD_concat _ _ _ _ hbound, getLsbD_lane, hsplit, Nat.add_mul_div_left _ _ (by omega),
    Nat.div_eq_of_lt hlow, Nat.zero_add, Nat.add_mul_mod_self_left, Nat.mod_eq_of_lt hlow]

end Bits
