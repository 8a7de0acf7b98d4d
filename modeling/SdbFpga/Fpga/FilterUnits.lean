import SdbFpga.Lib.Bits

/-!
# The filter units of the scan

`d_year`, `lo_discount` and `lo_quantity` compare every code of a 512-bit cache line with the predicate in one
clock edge. Their lanes are enumerated by hand in the source; `lanes4` and `lanes8` keep the enumeration.

* `lanes4_eq`, `lanes8_eq` : the enumerations are regular;
* `dYear`, `loDiscount`, `loQuantity` : one clock edge of each unit;
* `getLsbD_dYear` and so on : result bit `k` is the test of lane `k`, every other bit keeps its value.
-/

namespace SdbFpga.Fpga
open Bits

/-- A cache line, `t_ccip_clData`. -/
abbrev ClData := BitVec 512

/-- The output registers of a filter unit. -/
structure FilterUnit where
  bitResult : ClData
  processingDone : Bool
  deriving DecidableEq, Repr

/-- `(bit, hi, lo)` : the test of slice `[hi:lo]` is assigned to `bit_result[bit]` (`d_year`, `lo_discount`). -/
def lanes4 : List (Nat × Nat × Nat) :=
  [
    (0, 3, 0), (1, 7, 4), (2, 11, 8), (3, 15, 12), (4, 19, 16), (5, 23, 20),
    (6, 27, 24), (7, 31, 28), (8, 35, 32), (9, 39, 36), (10, 43, 40), (11, 47, 44),
    (12, 51, 48), (13, 55, 52), (14, 59, 56), (15, 63, 60), (16, 67, 64), (17, 71, 68),
    (18, 75, 72), (19, 79, 76), (20, 83, 80), (21, 87, 84), (22, 91, 88), (23, 95, 92),
    (24, 99, 96), (25, 103, 100), (26, 107, 104), (27, 111, 108), (28, 115, 112), (29, 119, 116),
    (30, 123, 120), (31, 127, 124), (32, 131, 128), (33, 135, 132), (34, 139, 136), (35, 143, 140),
    (36, 147, 144), (37, 151, 148), (38, 155, 152), (39, 159, 156), (40, 163, 160), (41, 167, 164),
    (42, 171, 168), (43, 175, 172), (44, 179, 176), (45, 183, 180), (46, 187, 184), (47, 191, 188),
    (48, 195, 192), (49, 199, 196), (50, 203, 200), (51, 207, 204), (52, 211, 208), (53, 215, 212),
    (54, 219, 216), (55, 223, 220), (56, 227, 224), (57, 231, 228), (58, 235, 232), (59, 239, 236),
    (60, 243, 240), (61, 247, 244), (62, 251, 248), (63, 255, 252), (64, 259, 256), (65, 263, 260),
    (66, 267, 264), (67, 271, 268), (68, 275, 272), (69, 279, 276), (70, 283, 280), (71, 287, 284),
    (72, 291, 288), (73, 295, 292), (74, 299, 296), (75, 303, 300), (76, 307, 304), (77, 311, 308),
    (78, 315, 312), (79, 319, 316), (80, 323, 320), (81, 327, 324), (82, 331, 328), (83, 335, 332),
    (84, 339, 336), (85, 343, 340), (86, 347, 344), (87, 351, 348), (88, 355, 352), (89, 359, 356),
    (90, 363, 360), (91, 367, 364), (92, 371, 368), (93, 375, 372), (94, 379, 376), (95, 383, 380),
    (96, 387, 384), (97, 391, 388), (98, 395, 392), (99, 399, 396), (100, 403, 400), (101, 407, 404),
    (102, 411, 408), (103, 415, 412), (104, 419, 416), (105, 423, 420), (106, 427, 424), (107, 431, 428),
    (108, 435, 432), (109, 439, 436), (110, 443, 440), (111, 447, 444), (112, 451, 448), (113, 455, 452),
    (114, 459, 456), (115, 463, 460), (116, 467, 464), (117, 471, 468), (118, 475, 472), (119, 479, 476),
    (120, 483, 480), (121, 487, 484), (122, 491, 488), (123, 495, 492), (124, 499, 496), (125, 503, 500),
    (126, 507, 504), (127, 511, 508)]

/-- The slices of `lo_quantity`. -/
def lanes8 : List (Nat × Nat × Nat) :=
  [
    (0, 7, 0), (1, 15, 8), (2, 23, 16), (3, 31, 24), (4, 39, 32), (5, 47, 40),
    (6, 55, 48), (7, 63, 56), (8, 71, 64), (9, 79, 72), (10, 87, 80), (11, 95, 88),
    (12, 103, 96), (13, 111, 104), (14, 119, 112), (15, 127, 120), (16, 135, 128), (17, 143, 136),
    (18, 151, 144), (19, 159, 152), (20, 167, 160), (21, 175, 168), (22, 183, 176), (23, 191, 184),
    (24, 199, 192), (25, 207, 200), (26, 215, 208), (27, 223, 216), (28, 231, 224), (29, 239, 232),
    (30, 247, 240), (31, 255, 248), (32, 263, 256), (33, 271, 264), (34, 279, 272), (35, 287, 280),
    (36, 295, 288), (37, 303, 296), (38, 311, 304), (39, 319, 312), (40, 327, 320), (41, 335, 328),
    (42, 343, 336), (43, 351, 344), (44, 359, 352), (45, 367, 360), (46, 375, 368), (47, 383, 376),
    (48, 391, 384), (49, 399, 392), (50, 407, 400), (51, 415, 408), (52, 423, 416), (53, 431, 424),
    (54, 439, 432), (55, 447, 440), (56, 455, 448), (57, 463, 456), (58, 471, 464), (59, 479, 472),
    (60, 487, 480), (61, 495, 488), (62, 503, 496), (63, 511, 504)]

theorem lanes4_eq : lanes4 = (List.range 128).map fun k => (k, 4 * k + (4 - 1), 4 * k) := by decide

theorem lanes8_eq : lanes8 = (List.range 64).map fun k => (k, 8 * k + (8 - 1), 8 * k) := by decide

/-- One clock edge of a unit that assigns `test` of each slice. `reset` clears both registers. -/
def FilterUnit.clock (lanes : List (Nat × Nat × Nat)) (test : Nat → Bool) (reset en : Bool) (cl : ClData)
    (u : FilterUnit) : FilterUnit :=
  if reset then ⟨0, false⟩
  else if en then
    ⟨setBits u.bitResult (lanes.map fun l => (l.1, test (cl.extractLsb l.2.1 l.2.2).toNat)), true⟩
  else u

/-- `d_year`: `code == predicate`. -/
def dYear (reset en : Bool) (predicate : BitVec 4) (dYearCl : ClData) (u : FilterUnit) : FilterUnit :=
  u.clock lanes4 (fun v => v == predicate.toNat) reset en dYearCl

/-- `lo_discount`: `lower_pred <= code && code <= higher_pred`. -/
def loDiscount (reset en : Bool) (lowerPred higherPred : BitVec 4) (incomingCl : ClData) (u : FilterUnit) :
    FilterUnit :=
  u.clock lanes4 (fun v => decide (lowerPred.toNat ≤ v) && decide (v ≤ higherPred.toNat)) reset en incomingCl

/-- `lo_quantity`: `code <= predicate`. -/
def loQuantity (reset en : Bool) (predicate : BitVec 8) (incomingCl : ClData) (u : FilterUnit) : FilterUnit :=
  u.clock lanes8 (fun v => decide (v ≤ predicate.toNat)) reset en incomingCl

/-! ## What an edge does -/

/-- A regular enumeration of `m` lanes of `w` bits: bit `k` is the test of lane `k`. -/
theorem getLsbD_clock_range (w m : Nat) (hw : 0 < w) (hm : m ≤ 512) (test : Nat → Bool) (cl : ClData)
    (u : FilterUnit) (k : Nat) :
    (u.clock ((List.range m).map fun k => (k, w * k + (w - 1), w * k)) test false true cl).bitResult.getLsbD k =
      if k < m then test (lane w k cl).toNat else u.bitResult.getLsbD k := by
  simp only [FilterUnit.clock, Bool.false_eq_true, if_false, if_true, List.map_map]
  have := getLsbD_setBits_range u.bitResult (fun k => test (lane w k cl).toNat) m hm k
  simp only [← toNat_extractLsb_lane w _ cl hw] at this ⊢
  exact this

theorem getLsbD_dYear (predicate : BitVec 4) (cl : ClData) (u : FilterUnit) (k : Nat) :
    (dYear false true predicate cl u).bitResult.getLsbD k =
      if k < 128 then (lane 4 k cl).toNat == predicate.toNat else u.bitResult.getLsbD k := by
  rw [dYear, lanes4_eq, getLsbD_clock_range 4 128 (by decide) (by decide)]

theorem getLsbD_loDiscount (lowerPred higherPred : BitVec 4) (cl : ClData) (u : FilterUnit) (k : Nat) :
    (loDiscount false true lowerPred higherPred cl u).bitResult.getLsbD k =
      if k < 128 then
        decide (lowerPred.toNat ≤ (lane 4 k cl).toNat) && decide ((lane 4 k cl).toNat ≤ higherPred.toNat)
      else u.bitResult.getLsbD k := by
  rw [loDiscount, lanes4_eq, getLsbD_clock_range 4 128 (by decide) (by decide)]

theorem getLsbD_loQuantity (predicate : BitVec 8) (cl : ClData) (u : FilterUnit) (k : Nat) :
    (loQuantity false true predicate cl u).bitResult.getLsbD k =
      if k < 64 then decide ((lane 8 k cl).toNat ≤ predicate.toNat) else u.bitResult.getLsbD k := by
  rw [loQuantity, lanes8_eq, getLsbD_clock_range 8 64 (by decide) (by decide)]

end SdbFpga.Fpga
