import SdbFpga.Fpga.FilterUnits

/-!
# The 4-bit filter in slices

`filter_unit` compares the 128 codes of a line at once, `p64`, `p32` and `p16` those of a half, a quarter and an eighth.

* `SliceUnit.clock` : one clock edge; `p16`, `p32`, `p64`, `filterUnit` : the four widths;
* `getLsbD_clock` : result bit `k` is the test of lane `k`, whatever was there before;
* `getLsbD_slice` : the lanes of a slice are lanes of the line;
* `filterUnit_eq_p64`, `filterUnit_eq_p32` : the wide unit is its slices side by side.
-/

namespace SdbFpga.Fpga
open Bits

/-- The output registers of a unit with `m` lanes. -/
structure SliceUnit (m : Nat) where
  bitResult : BitVec m
  processingDone : Bool
  deriving DecidableEq, Repr

namespace SliceUnit
variable {m n : Nat}

def cleared (m : Nat) : SliceUnit m := ⟨0, false⟩

/-- One clock edge of a unit that assigns `code >= predicate` of each slice. `reset` clears both registers. -/
def clock (lanes : List (Nat × Nat × Nat)) (reset en : Bool) (predicate : BitVec 4) (incomingCl : BitVec n)
    (u : SliceUnit m) : SliceUnit m :=
  if reset then ⟨0, false⟩
  else if en then
    ⟨setBits u.bitResult
      (lanes.map fun l => (l.1, decide (predicate.toNat ≤ (incomingCl.extractLsb l.2.1 l.2.2).toNat))), true⟩
  else u

end SliceUnit

/-! The lanes of each unit are the first ones of the same enumeration. -/

def p16 (reset en : Bool) (predicate : BitVec 4) (incomingCl : BitVec 64) (u : SliceUnit 16) : SliceUnit 16 :=
  u.clock (lanes4.take 16) reset en predicate incomingCl

def p32 (reset en : Bool) (predicate : BitVec 4) (incomingCl : BitVec 128) (u : SliceUnit 32) : SliceUnit 32 :=
  u.clock (lanes4.take 32) reset en predicate incomingCl

def p64 (reset en : Bool) (predicate : BitVec 4) (incomingCl : BitVec 256) (u : SliceUnit 64) : SliceUnit 64 :=
  u.clock (lanes4.take 64) reset en predicate incomingCl

def filterUnit (reset en : Bool) (predicate : BitVec 4) (incomingCl : ClData) (u : SliceUnit 128) : SliceUnit 128 :=
  u.clock (lanes4.take 128) reset en predicate incomingCl

/-! ## What an edge does -/

section Clock
variable {m n : Nat} (predicate : BitVec 4)

theorem lanes4_take (hm : m ≤ 128) : lanes4.take m = (List.range m).map fun k => (k, 4 * k + (4 - 1), 4 * k) := by
  rw [lanes4_eq, ← List.map_take, List.take_range, Nat.min_eq_left hm]

theorem getLsbD_clock (hm : m ≤ 128) (cl : BitVec n) (u : SliceUnit m) {k : Nat} (hk : k < m) :
    (u.clock (lanes4.take m) false true predicate cl).bitResult.getLsbD k =
      decide (predicate.toNat ≤ (lane 4 k cl).toNat) := by
  have hset := getLsbD_setBits_range u.bitResult (fun k => decide (predicate.toNat ≤ (lane 4 k cl).toNat)) m
    (Nat.le_refl m) k
  rw [if_pos hk] at hset
  simp only [← toNat_extractLsb_lane 4 _ cl (by decide)] at hset ⊢
  simpa [SliceUnit.clock, lanes4_take hm, Function.comp_def] using hset

/-- Nothing is left of the registers' old contents. -/
theorem clock_eq_cleared (hm : m ≤ 128) (cl : BitVec n) (u : SliceUnit m) :
    u.clock (lanes4.take m) false true predicate cl =
      (SliceUnit.cleared m).clock (lanes4.take m) false true predicate cl := by
  have hbits : (u.clock (lanes4.take m) false true predicate cl).bitResult =
      ((SliceUnit.cleared m).clock (lanes4.take m) false true predicate cl).bitResult := by
    apply BitVec.eq_of_getLsbD_eq
    intro k hk
    rw [getLsbD_clock predicate hm cl u hk, getLsbD_clock predicate hm cl _ hk]
  unfold SliceUnit.clock at hbits ⊢
  simpa using hbits

/-- A slice of `m` lanes: its lane `k` is lane `m * i + k` of the line. -/
theorem getLsbD_slice (hm : m ≤ 128) (cl : BitVec n) (u : SliceUnit m) {i k l : Nat} (hk : k < m) (hl : m * i + k = l) :
    (u.clock (lanes4.take m) false true predicate (lane (4 * m) i cl)).bitResult.getLsbD k =
      decide (predicate.toNat ≤ (lane 4 l cl).toNat) := by
  rw [getLsbD_clock predicate hm _ u hk, lane_lane hk, hl]

theorem getLsbD_filterUnit (cl : ClData) (u : SliceUnit 128) {l : Nat} (hl : l < 128) :
    (filterUnit false true predicate cl u).bitResult.getLsbD l = decide (predicate.toNat ≤ (lane 4 l cl).toNat) :=
  getLsbD_clock predicate (Nat.le_refl 128) cl u hl

/-! ## Tilings -/

theorem filterUnit_eq_p64 (cl : ClData) (u : SliceUnit 128) (v : Nat → SliceUnit 64) :
    (filterUnit false true predicate cl u).bitResult =
      (p64 false true predicate (lane 256 1 cl) (v 1)).bitResult ++
        (p64 false true predicate (lane 256 0 cl) (v 0)).bitResult := by
  have hslice : ∀ i k l, k < 64 → 64 * i + k = l →
      decide (predicate.toNat ≤ (lane 4 l cl).toNat) =
        (p64 false true predicate (lane 256 i cl) (v i)).bitResult.getLsbD k := fun i k l hk hl =>
    (getLsbD_slice predicate (by decide) cl (v i) hk hl).symm
  apply BitVec.eq_of_getLsbD_eq
  intro l hl
  rw [getLsbD_filterUnit predicate cl u hl, BitVec.getLsbD_append]
  by_cases h0 : l < 64
  · rw [if_pos h0]
    exact hslice 0 l l h0 (by omega)
  · rw [if_neg h0]
    exact hslice 1 (l - 64) l (by omega) (by omega)

theorem filterUnit_eq_p32 (cl : ClData) (u : SliceUnit 128) (v : Nat → SliceUnit 32) :
    (filterUnit false true predicate cl u).bitResult =
      (p32 false true predicate (lane 128 3 cl) (v 3)).bitResult ++
        (p32 false true predicate (lane 128 2 cl) (v 2)).bitResult ++
          (p32 false true predicate (lane 128 1 cl) (v 1)).bitResult ++
            (p32 false true predicate (lane 128 0 cl) (v 0)).bitResult := by
  have hslice : ∀ i k l, k < 32 → 32 * i + k = l →
      decide (predicate.toNat ≤ (lane 4 l cl).toNat) =
        (p32 false true predicate (lane 128 i cl) (v i)).bitResult.getLsbD k := fun i k l hk hl =>
    (getLsbD_slice predicate (by decide) cl (v i) hk hl).symm
  apply BitVec.eq_of_getLsbD_eq
  intro l hl
  rw [getLsbD_filterUnit predicate cl u hl, BitVec.getLsbD_append, BitVec.getLsbD_append, BitVec.getLsbD_append]
  by_cases h0 : l < 32
  · rw [if_pos h0]
    exact hslice 0 l l h0 (by omega)
  rw [if_neg h0]
  by_cases h1 : l - 32 < 32
  · rw [if_pos h1]
    exact hslice 1 (l - 32) l h1 (by omega)
  rw [if_neg h1]
  by_cases h2 : l - 32 - 32 < 32
  · rw [if_pos h2]
    exact hslice 2 (l - 32 - 32) l h2 (by omega)
  · rw [if_neg h2]
    exact hslice 3 (l - 32 - 32 - 32) l (by omega) (by omega)

end Clock

end SdbFpga.Fpga
