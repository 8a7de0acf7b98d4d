import Mathlib.Algebra.BigOperators.Ring.Finset
import SdbFpga.Sched.ScanOnFpga

/-!
# Counting in the write buffers

`AFU_HANDLER` counts a write buffer by words, by bytes or by half words, and not all of them look at the same part of a
line; `testBitMap` and `PrintBitResultByItem` count a bit vector.

* `countFilterResult`, `getPartitionCount`, `printPartitionResult`, `printFilterResults`, `testBitMap`,
  `printBitResultByItem`;
* `lineOnes` : the ones at the low end of the lines of a buffer, `countFilterResult_eq` and so on : what each counts;
* `lineOnes_filled` : a filled buffer has no ones behind its results;
* `sum_lineOnes` : the slices after the copy loop;
* `counts_agree` : they all report the count of `countBitResults`.
-/

namespace SdbFpga.Sched
open Bits Text Data Fpga Api

/-! ## The counters -/

/-- A byte of a buffer of words. -/
def byteOf (buff : Nat → Word) (i : Nat) : BitVec 8 := lane 8 (i % 8) (buff (i / 8))

/-- `countFilterResult`; the state is `count_total` and `buff_index`. -/
def countFilterResult (writeBuff : Nat → Word) (totalCls bitEncoding : Int) : Int :=
  let wordsPerCl := clSize / wordSize
  let resWordsPerCl := ((clSize : Int).tdiv bitEncoding).tdiv wordSize
  ((List.range totalCls.toNat).foldl (fun (s : Int × Nat) _ =>
    let countPerCl := (List.range resWordsPerCl.toNat).foldl
      (fun count wordId => int32 (count + (writeBuff (s.2 + wordId)).cpop.toNat)) 0
    (int32 (s.1 + countPerCl), s.2 + wordsPerCl)) (0, 0)).1

/-- `getPartitionCount`: the first 16 bytes of each line. -/
def getPartitionCount (writeBuff : Nat → Word) (totalCls : Int) : Int :=
  (List.range totalCls.toNat).foldl (fun count index => (List.range 16).foldl
    (fun count i => int32 (count + (byteOf writeBuff (index * 64 + i)).cpop.toNat)) count) 0

/-- `to_string` of a `bitset<8>`: the highest bit first. -/
def bitString (b : BitVec 8) : Line := (List.range 8).reverse.map fun k => if b.getLsbD k then '1' else '0'

/-- The inner loop of `printPartitionResult`: the string of a line. -/
def clResult (writeBuff : Nat → Word) (filterCount : Int) (index : Nat) : Line × Int :=
  (List.range 16).foldl (fun r i =>
    let bitRes := byteOf writeBuff (index * 64 + i)
    (r.1 ++ bitString bitRes, int32 (r.2 + bitRes.cpop.toNat))) ([], filterCount)

/-- `printPartitionResult`, with the strings that it prints. -/
def printPartitionResult (writeBuff : Nat → Word) (totalCls : Int) : List Line × Int :=
  (List.range totalCls.toNat).foldl (fun s index =>
    let r := clResult writeBuff s.2 index
    (s.1 ++ [r.1], r.2)) ([], 0)

/-- `printFilterResults`: the halves of each word. -/
def printFilterResults (buff : Nat → Word) (totalWords : Int) : Int :=
  (List.range totalWords.toNat).foldl (fun count i =>
    let high := (buff i >>> 32).setWidth 32
    let low := (buff i).setWidth 32
    int32 (count + (high.cpop.toNat + low.cpop.toNat : Nat))) 0

/-- The loop of `testBitMap` and of `countBitmapResult`. -/
def bitMapLoop (bitMap : Nat → Word) (wordId : Nat) (filterCount remaining : Int) : Int :=
  if 0 < remaining then
    bitMapLoop bitMap (wordId + 1) (int32 (filterCount + (bitMap wordId).cpop.toNat)) (remaining - 64)
  else filterCount
termination_by remaining.toNat
decreasing_by omega

/-- `testBitMap`. -/
def testBitMap (bitMap : Nat → Word) (size : Int) : Int := bitMapLoop bitMap 0 0 size

/-- `countBitmapResult`, of the bit map that a `JoinApi` has. -/
def countBitmapResult (bitMap : Nat → Word) (size : Int) : Int := bitMapLoop bitMap 0 0 size

/-- `PrintBitResultByItem`, with the items and bits that it prints. -/
def printBitResultByItem (j : JobWrapper) : List (Nat × Bool) × Int :=
  (List.range j.bitVectorSize.toNat).foldl (fun s buffId => (List.range 64).foldl (fun s id =>
    let res := (j.bitResult buffId >>> id).getLsbD 0
    (s.1 ++ [(s.1.length, res)], int32 (s.2 + res.toNat))) s) ([], 0)

/-! ## What they count -/

/-- The ones among the first `bits` bits of each of the first `n` lines. -/
def lineOnes (buff : Nat → Word) (bits n : Nat) : Nat :=
  ((List.range n).map fun i => Nat.count (fun k => bitAt buff (512 * i + k) = true) bits).sum

theorem lineOnes_le (buff : Nat → Word) (bits n : Nat) : lineOnes buff bits n ≤ bits * n := by
  induction n with
  | zero => exact le_refl _
  | succ n ih =>
    have hline : Nat.count (fun k => bitAt buff (512 * n + k) = true) bits ≤ bits := Nat.count_le _
    rw [lineOnes] at ih ⊢
    rw [List.range_succ, List.map_append, List.sum_append, List.map_singleton, List.sum_singleton, Nat.mul_succ]
    omega

theorem bitAt_byteOf (buff : Nat → Word) (r : Nat) : bitAt (byteOf buff) r = bitAt buff r := by
  have hbyte : r % 8 < 8 := Nat.mod_lt r (by decide)
  have hdiv : r / 8 / 8 = r / 64 := Nat.div_div_eq_div_mul r 8 8
  have hmod : 8 * (r / 8 % 8) + r % 8 = r % 64 := by omega
  rw [bitAt, byteOf, getLsbD_lane, decide_eq_true hbyte, Bool.true_and, hdiv, hmod, bitAt]

/-- The ones of some words of a line. -/
theorem sum_cpop_line {w m : Nat} (hw : w * m = 512) (mem : Nat → BitVec w) (line n : Nat) :
    ((List.range n).map fun i => (mem (m * line + i)).cpop.toNat).sum =
      Nat.count (fun k => bitAt mem (512 * line + k) = true) (w * n) := by
  have hpos : 0 < w := Nat.pos_of_mul_pos_right (Nat.lt_of_lt_of_eq (by decide) hw.symm)
  rw [sum_cpop fun i => mem (m * line + i)]
  apply count_congr
  intro k _
  have hpos' : 512 * line + k = w * (m * line) + k := by rw [← hw, Nat.mul_assoc]
  rw [bitAt, bitAt, hpos', Nat.mul_add_div hpos, Nat.mul_add_mod]

section Counters
variable (buff : Nat → Word) {n : Nat} (hn : n ≤ 64)
include hn

theorem countFilterResult_eq {bitEncoding : Int} {m : Nat} (hm : ((clSize : Int).tdiv bitEncoding).tdiv wordSize = m)
    (hle : m ≤ 8) : countFilterResult buff n bitEncoding = lineOnes buff (64 * m) n := by
  have hloop : ∀ k ≤ n, (List.range k).foldl (fun (s : Int × Nat) _ =>
      (int32 (s.1 + (List.range m).foldl
        (fun count wordId => int32 (count + (buff (s.2 + wordId)).cpop.toNat)) 0), s.2 + 8)) (0, 0) =
          ((lineOnes buff (64 * m) k : Int), 8 * k) := by
    intro k
    induction k with
    | zero => exact fun _ => rfl
    | succ k ih =>
      intro hk
      have hline := sum_cpop_line (show 64 * 8 = 512 from rfl) buff k m
      have hcount : Nat.count (fun i => bitAt buff (512 * k + i) = true) (64 * m) ≤ 64 * m := Nat.count_le _
      have hinner := foldl_int32_add (fun wordId => (buff (8 * k + wordId)).cpop.toNat) 0 m (by omega)
      have hones := lineOnes_le buff (64 * m) k
      have hbound : 64 * m * k ≤ 512 * 64 := Nat.mul_le_mul (by omega) (by omega)
      rw [Nat.zero_add, hline, Nat.cast_zero] at hinner
      rw [List.range_succ, List.foldl_append, List.foldl_cons, List.foldl_nil, ih (by omega)]
      simp only
      rw [hinner, int32, Int.bmod_eq_of_le (by omega) (by omega), ← Nat.cast_add, lineOnes, lineOnes, List.range_succ,
        List.map_append, List.sum_append, List.map_singleton, List.sum_singleton, Nat.mul_succ]
  unfold countFilterResult
  simp only [hm, Int.toNat_natCast]
  exact congrArg Prod.fst (hloop n le_rfl)

omit hn in
/-- One line more, by bytes. -/
theorem lineOnes_succ_bytes (k : Nat) : lineOnes buff 128 (k + 1) =
    lineOnes buff 128 k + ((List.range 16).map fun i => (byteOf buff (k * 64 + i)).cpop.toNat).sum := by
  have hline := sum_cpop_line (show 8 * 64 = 512 from rfl) (byteOf buff) k 16
  simp only [bitAt_byteOf] at hline
  rw [Nat.mul_comm k 64, hline, lineOnes, List.range_succ, List.map_append, List.sum_append, List.map_singleton,
    List.sum_singleton]
  rfl

theorem getPartitionCount_eq : getPartitionCount buff n = lineOnes buff 128 n := by
  have hloop : ∀ k ≤ n, (List.range k).foldl (fun count index => (List.range 16).foldl
      (fun count i => int32 (count + (byteOf buff (index * 64 + i)).cpop.toNat)) count) 0 =
        (lineOnes buff 128 k : Int) := by
    intro k
    induction k with
    | zero => exact fun _ => rfl
    | succ k ih =>
      intro hk
      have hones := lineOnes_le buff 128 (k + 1)
      rw [List.range_succ (n := k), List.foldl_append, List.foldl_cons, List.foldl_nil, ih (by omega)]
      rw [lineOnes_succ_bytes] at hones ⊢
      exact foldl_int32_add (fun i => (byteOf buff (k * 64 + i)).cpop.toNat) _ 16 (by omega)
  exact hloop n le_rfl

omit hn in
theorem count_bitString (b : BitVec 8) : (bitString b).count '1' = b.cpop.toNat := by
  have hchars : ∀ m, ((List.range m).map fun k => if b.getLsbD k then '1' else '0').count '1' =
      Nat.count (fun k => b.getLsbD k = true) m := by
    intro m
    induction m with
    | zero => rfl
    | succ m ih =>
      rw [List.range_succ, List.map_append, List.count_append, ih, List.map_singleton, Nat.count_succ]
      cases b.getLsbD m <;> rfl
  rw [bitString, List.map_reverse, List.count_reverse, hchars, toNat_cpop]

omit hn in
/-- The string of a line shows the ones that are added to the count. -/
theorem clResult_eq (k count : Nat) (hmax : count + 128 < 2 ^ 31) : ∃ line : Line,
    clResult buff count k = (line, ((count + line.count '1' : Nat) : Int)) ∧
      line.count '1' = ((List.range 16).map fun i => (byteOf buff (k * 64 + i)).cpop.toNat).sum := by
  have hloop : ∀ m ≤ 16, ∃ line : Line, (List.range m).foldl (fun (r : Line × Int) i =>
      (r.1 ++ bitString (byteOf buff (k * 64 + i)), int32 (r.2 + (byteOf buff (k * 64 + i)).cpop.toNat)))
        ([], (count : Int)) = (line, ((count + line.count '1' : Nat) : Int)) ∧
      line.count '1' = ((List.range m).map fun i => (byteOf buff (k * 64 + i)).cpop.toNat).sum ∧
      line.count '1' ≤ 8 * m := by
    intro m
    induction m with
    | zero => exact fun _ => ⟨[], rfl, rfl, le_rfl⟩
    | succ m ih =>
      intro hm
      obtain ⟨line, hfold, hones, hle⟩ := ih (by omega)
      have hbyte : (byteOf buff (k * 64 + m)).cpop.toNat ≤ 8 := by
        rw [toNat_cpop]
        exact Nat.count_le _
      have hcount : (line ++ bitString (byteOf buff (k * 64 + m))).count '1' =
          line.count '1' + (byteOf buff (k * 64 + m)).cpop.toNat := by
        rw [List.count_append, count_bitString]
      refine ⟨line ++ bitString (byteOf buff (k * 64 + m)), ?_, ?_, by omega⟩
      · rw [List.range_succ, List.foldl_append, List.foldl_cons, List.foldl_nil, hfold, hcount, int32,
          Int.bmod_eq_of_le (by omega) (by omega), ← Nat.add_assoc, ← Nat.cast_add]
      · rw [hcount, List.range_succ, List.map_append, List.sum_append, List.map_singleton, List.sum_singleton, hones]
  obtain ⟨line, hfold, hones, _⟩ := hloop 16 le_rfl
  exact ⟨line, hfold, hones⟩

/-- The count that is returned is that of `getPartitionCount`, and of the ones that are printed. -/
theorem printPartitionResult_eq : (printPartitionResult buff n).2 = lineOnes buff 128 n ∧
    ((printPartitionResult buff n).1.map (List.count '1')).sum = lineOnes buff 128 n := by
  have hloop : ∀ k ≤ n, ∃ lines : List Line, (List.range k).foldl (fun (s : List Line × Int) index =>
      (s.1 ++ [(clResult buff s.2 index).1], (clResult buff s.2 index).2)) ([], 0) =
        (lines, (lineOnes buff 128 k : Int)) ∧ (lines.map (List.count '1')).sum = lineOnes buff 128 k := by
    intro k
    induction k with
    | zero => exact fun _ => ⟨[], rfl, rfl⟩
    | succ k ih =>
      intro hk
      obtain ⟨lines, hfold, hones⟩ := ih (by omega)
      have hbound := lineOnes_le buff 128 k
      obtain ⟨line, hline, hcount⟩ := clResult_eq buff k (lineOnes buff 128 k) (by omega)
      refine ⟨lines ++ [line], ?_, ?_⟩
      · rw [List.range_succ, List.foldl_append, List.foldl_cons, List.foldl_nil, hfold]
        simp only [hline]
        rw [hcount, lineOnes_succ_bytes]
      · rw [List.map_append, List.sum_append, List.map_singleton, List.sum_singleton, hones, hcount,
          lineOnes_succ_bytes]
  obtain ⟨lines, hfold, hones⟩ := hloop n le_rfl
  have heq : printPartitionResult buff n = (lines, (lineOnes buff 128 n : Int)) := hfold
  rw [heq]
  exact ⟨rfl, hones⟩

omit hn in
theorem cpop_halves (x : Word) :
    ((x >>> 32).setWidth 32).cpop.toNat + (x.setWidth 32).cpop.toNat = x.cpop.toNat := by
  have hlow : Nat.count (fun k => (x.setWidth 32).getLsbD k = true) 32 =
      Nat.count (fun k => x.getLsbD k = true) 32 := by
    apply count_congr
    intro k hk
    rw [BitVec.getLsbD_setWidth, decide_eq_true hk, Bool.true_and]
  have hhigh : Nat.count (fun k => ((x >>> 32).setWidth 32).getLsbD k = true) 32 =
      Nat.count (fun k => x.getLsbD (32 + k) = true) 32 := by
    apply count_congr
    intro k hk
    rw [BitVec.getLsbD_setWidth, BitVec.getLsbD_ushiftRight, decide_eq_true hk, Bool.true_and]
  rw [toNat_cpop, toNat_cpop, toNat_cpop, hlow, hhigh, Nat.add_comm]
  exact (Nat.count_add (p := fun k => x.getLsbD k = true) 32 32).symm

/-- All words of the lines. -/
theorem printFilterResults_eq : printFilterResults buff (8 * n) = lineOnes buff 512 n := by
  have hones : ((List.range (8 * n)).map fun i => (buff i).cpop.toNat).sum = lineOnes buff 512 n := by
    rw [sum_cpop, lineOnes, sum_count_blocks (p := fun i k => bitAt buff (512 * i + k) = true) (by decide),
      ← Nat.mul_assoc]
    exact count_congr fun R _ => by rw [Nat.div_add_mod]
  have hbound := lineOnes_le buff 512 n
  have hwords : ((8 : Int) * n).toNat = 8 * n := by omega
  unfold printFilterResults
  simp only [hwords, cpop_halves]
  rw [← hones] at hbound ⊢
  have hfold := foldl_int32_add (fun i => (buff i).cpop.toNat) 0 (8 * n) (by omega)
  rwa [Nat.zero_add, Nat.cast_zero] at hfold

end Counters

/-- The loop counts the words that have a bit of the bit map. -/
theorem bitMapLoop_eq (bitMap : Nat → Word) (t : Nat) : ∀ {w : Nat} {remaining : Int}, (remaining + 63) / 64 = t →
    64 * (w + t) < 2 ^ 31 →
      bitMapLoop bitMap w (Nat.count (fun r => bitAt bitMap r = true) (64 * w)) remaining =
        Nat.count (fun r => bitAt bitMap r = true) (64 * (w + t)) := by
  induction t with
  | zero =>
    intro w remaining hwords _
    unfold bitMapLoop
    rw [if_neg (by omega), Nat.add_zero]
  | succ t ih =>
    intro w remaining hwords hmax
    have hcount := count_bitAt_succ bitMap w
    have hle : Nat.count (fun r => bitAt bitMap r = true) (64 * (w + 1)) ≤ 64 * (w + 1) := Nat.count_le _
    have hnext : int32 (Nat.count (fun r => bitAt bitMap r = true) (64 * w) + (bitMap w).cpop.toNat) =
        (Nat.count (fun r => bitAt bitMap r = true) (64 * (w + 1)) : Nat) := by
      rw [int32, Int.bmod_eq_of_le (by omega) (by omega), hcount]
      push_cast
      rfl
    unfold bitMapLoop
    rw [if_pos (by omega), hnext, ih (by omega) (by omega), Nat.add_right_comm, ← Nat.add_assoc]

theorem testBitMap_eq (bitMap : Nat → Word) {size : Int} {t : Nat} (hwords : (size + 63) / 64 = t)
    (hmax : 64 * t < 2 ^ 31) : testBitMap bitMap size = Nat.count (fun r => bitAt bitMap r = true) (64 * t) := by
  have hloop := bitMapLoop_eq bitMap t (w := 0) hwords (by omega)
  rw [Nat.zero_add, Nat.mul_zero, Nat.count_zero, Nat.cast_zero] at hloop
  exact hloop

/-- What is printed and counted before item `r`. -/
def itemsUpTo (j : JobWrapper) (r : Nat) : List (Nat × Bool) × Int :=
  ((List.range r).map fun item => (item, bitAt j.bitResult item),
    Nat.count (fun item => bitAt j.bitResult item = true) r)

theorem printBitResultByItem_eq {j : JobWrapper} {n : Nat} (hsize : j.bitVectorSize = n) (hmax : 64 * n < 2 ^ 31) :
    printBitResultByItem j = itemsUpTo j (64 * n) := by
  have hword : ∀ w < n, ∀ k ≤ 64, (List.range k).foldl (fun (s : List (Nat × Bool) × Int) id =>
      (s.1 ++ [(s.1.length, (j.bitResult w >>> id).getLsbD 0)],
        int32 (s.2 + ((j.bitResult w >>> id).getLsbD 0).toNat))) (itemsUpTo j (64 * w)) = itemsUpTo j (64 * w + k) := by
    intro w hw k
    induction k with
    | zero => exact fun _ => rfl
    | succ k ih =>
      intro hk
      have hres : (j.bitResult w >>> k).getLsbD 0 = bitAt j.bitResult (64 * w + k) := by
        rw [bitAt_mul_add _ _ hk, BitVec.getLsbD_ushiftRight, Nat.add_zero]
      have hle : Nat.count (fun item => bitAt j.bitResult item = true) (64 * w + k) ≤ 64 * w + k := Nat.count_le _
      have hbit := Bool.toNat_le (bitAt j.bitResult (64 * w + k))
      have hcount : Nat.count (fun item => bitAt j.bitResult item = true) (64 * w + k + 1) =
          Nat.count (fun item => bitAt j.bitResult item = true) (64 * w + k) +
            (bitAt j.bitResult (64 * w + k)).toNat := by
        rw [Nat.count_succ]
        cases bitAt j.bitResult (64 * w + k) <;> rfl
      rw [List.range_succ, List.foldl_append, List.foldl_cons, List.foldl_nil, ih (by omega), hres, ← Nat.add_assoc]
      unfold itemsUpTo
      rw [hcount, List.length_map, List.length_range, List.range_succ, List.map_append, List.map_singleton, int32,
        Int.bmod_eq_of_le (by omega) (by omega), ← Nat.cast_add]
  have hloop : ∀ w ≤ n, (List.range w).foldl (fun (s : List (Nat × Bool) × Int) buffId => (List.range 64).foldl
      (fun s id => (s.1 ++ [(s.1.length, (j.bitResult buffId >>> id).getLsbD 0)],
        int32 (s.2 + ((j.bitResult buffId >>> id).getLsbD 0).toNat))) s) ([], 0) = itemsUpTo j (64 * w) := by
    intro w
    induction w with
    | zero => exact fun _ => rfl
    | succ w ih =>
      intro hw
      rw [List.range_succ (n := w), List.foldl_append, List.foldl_cons, List.foldl_nil, ih (by omega)]
      exact hword w hw 64 le_rfl
  unfold printBitResultByItem
  rw [hsize, Int.toNat_natCast]
  exact hloop n le_rfl

/-! ## Filled buffers -/

/-- Behind the results of a line there are only zeros. -/
theorem lineOnes_eq_of_zeros {buff : Nat → Word} {a b n : Nat} (hab : a ≤ b)
    (hzero : ∀ i < n, ∀ k < b, a ≤ k → bitAt buff (512 * i + k) = false) : lineOnes buff b n = lineOnes buff a n := by
  have hlines : (List.range n).map (fun i => Nat.count (fun k => bitAt buff (512 * i + k) = true) b) =
      (List.range n).map fun i => Nat.count (fun k => bitAt buff (512 * i + k) = true) a := by
    apply List.map_congr_left
    intro i hi
    rw [List.mem_range] at hi
    refine (count_eq_count_iff hab fun k _ => Iff.rfl).mpr ?_
    intro k hk hlt
    rw [hzero i hi k hlt hk]
    decide
  rw [lineOnes, lineOnes, hlines]

/-- A unit sets no bit behind its lanes. -/
theorem getLsbD_scanLine_of_le (u : ScanUnit) (pred : BitVec 8) (cl : ClData) {k : Nat}
    (hk : 8 * u.codesPerWord ≤ k) : (scanLine u.jobType.scanColumn pred cl).getLsbD k = false := by
  match u with
  | .dYear =>
    have hk' : 128 ≤ k := hk
    show (scanLine 0 pred cl).getLsbD k = false
    rw [scanLine_dYear, getLsbD_dYear, if_neg (by omega)]
    exact BitVec.getLsbD_zero
  | .loDiscount =>
    have hk' : 128 ≤ k := hk
    show (scanLine 1 pred cl).getLsbD k = false
    rw [scanLine_loDiscount, getLsbD_loDiscount, if_neg (by omega)]
    exact BitVec.getLsbD_zero
  | .loQuantity =>
    have hk' : 64 ≤ k := hk
    show (scanLine 2 pred cl).getLsbD k = false
    rw [scanLine_loQuantity, getLsbD_loQuantity, if_neg (by omega)]
    exact BitVec.getLsbD_zero

/-- It does not matter how much of the lines is counted. -/
theorem lineOnes_filled {u : ScanUnit} {scan : ScanApi} {readBuffers writeBuffers : Int → Nat → Word} {p : Int}
    (hjob : scan.jobType = u.jobType) (hfilled : FilledBy scan readBuffers writeBuffers p) {b : Nat}
    (hb : 64 * u.resWords ≤ b) (hle : b ≤ 512) :
    lineOnes (writeBuffers p) b scan.totalCls.toNat =
      lineOnes (writeBuffers p) (64 * u.resWords) scan.totalCls.toNat := by
  refine lineOnes_eq_of_zeros hb ?_
  intro i hi k hk hlanes
  have hdiv : (512 * i + k) / 64 = 8 * i + k / 64 := by omega
  have hmod : (512 * i + k) % 64 = k % 64 := by omega
  rw [bitAt, hdiv, hmod, hfilled i (k / 64) hi (by omega), getLsbD_lane, Nat.div_add_mod, hjob,
    getLsbD_scanLine_of_le u _ _ (by rw [← u.resWords_mul]; exact hlanes), Bool.and_false]

/-! ## The slices -/

/-- Where each slice has just the words of its lines, the ones of all slices are those of the buffers. -/
theorem sum_lineOnes {scan : ScanApi} {len m pages : Nat} {writeBuffers : Int → Nat → Word} {j : JobWrapper}
    (h : CopiedAll scan len m writeBuffers pages j) (hm : 0 < m) (hlen : 0 < len)
    (hfills : len = m * scan.totalCls.toNat) :
    ((List.range pages).map fun p : Nat => lineOnes (writeBuffers p) (64 * m) scan.totalCls.toNat).sum =
      Nat.count (fun r => bitAt j.bitResult r = true) (64 * (pages * len)) := by
  have hline : 0 < 64 * m := by omega
  have hpage : 0 < 64 * len := by omega
  have hbuffer : ∀ p : Nat, lineOnes (writeBuffers p) (64 * m) scan.totalCls.toNat = Nat.count (fun R =>
      bitAt (writeBuffers p) (512 * (R / (64 * m)) + R % (64 * m)) = true) (64 * len) := by
    intro p
    rw [lineOnes, sum_count_blocks (p := fun i k => bitAt (writeBuffers p) (512 * i + k) = true) hline, hfills,
      Nat.mul_assoc]
  simp only [hbuffer]
  rw [sum_count_blocks (p := fun (p : Nat) R => bitAt (writeBuffers p) (512 * (R / (64 * m)) + R % (64 * m)) = true)
    hpage, Nat.mul_comm pages, ← Nat.mul_assoc]
  apply count_congr
  intro R hR
  have hp : R / (64 * len) < pages := Nat.div_lt_of_lt_mul hR
  have hr := Nat.mod_lt R hpage
  have hsplit := Nat.div_add_mod R (64 * len)
  generalize R / (64 * len) = p at hp hsplit
  generalize R % (64 * len) = r at hr hsplit
  -- bit `r` of slice `p` is bit `r % 64` of its word `r / 64`
  have hword : R / 64 = p * len + r / 64 := by
    rw [← hsplit, Nat.mul_assoc, Nat.mul_add_div (by decide), Nat.mul_comm len]
  have hbit : R % 64 = r % 64 := by
    rw [← hsplit, Nat.mul_assoc, Nat.mul_add_mod]
  have hlast := Nat.mod_lt r hline
  have hdiv : (512 * (r / (64 * m)) + r % (64 * m)) / 64 = r / 64 / m * (clSize / wordSize) + r / 64 % m := by
    have hcl : clSize / wordSize = 8 := rfl
    rw [Nat.div_div_eq_div_mul, ← Nat.mod_mul_right_div_self, hcl]
    omega
  have hmod : (512 * (r / (64 * m)) + r % (64 * m)) % 64 = r % 64 := by
    rw [← Nat.mod_mul_right_mod r 64 m]
    omega
  rw [bitAt, bitAt, hdiv, hmod, hword, hbit, h.copied p hp (r / 64) (by omega) (by omega)]

/-! ## All counts -/

/-- The counters of `AFU_HANDLER` agree on a buffer, also with the ones that are printed for it. -/
structure CountersAgree (writeBuff : Nat → Word) (totalCls bitEncoding : Int) : Prop where
  bytes : getPartitionCount writeBuff totalCls = countFilterResult writeBuff totalCls bitEncoding
  printed : (printPartitionResult writeBuff totalCls).2 = countFilterResult writeBuff totalCls bitEncoding
  ones : (((printPartitionResult writeBuff totalCls).1.map (List.count '1')).sum : Int) =
    countFilterResult writeBuff totalCls bitEncoding
  halves : printFilterResults writeBuff (8 * totalCls) = countFilterResult writeBuff totalCls bitEncoding

section Agree
variable {u : ScanUnit} {c : Column} {codes : List Nat} (hsize : c.colSize = codes.length)
  (hbits : c.numOfBits = u.bits) {comp : ComparisonType} {lower upper : BitVec 32} {fresh : Nat → Nat → Word}
  {result : Nat → Word} {writeBuffers : Int → Nat → Word}
include hsize hbits

variable (comp lower upper fresh result writeBuffers) in
/-- `countFilterResult` on a buffer of the scan. -/
theorem countFilterResult_scan (p : Int) :
    countFilterResult (writeBuffers p) (u.scan (pagedColumn c codes fresh) comp lower upper result).totalCls
        c.numOfBits =
      lineOnes (writeBuffers p) (64 * u.resWords)
        (u.scan (pagedColumn c codes fresh) comp lower upper result).totalCls.toNat := by
  obtain ⟨n, htotal, hn⟩ : ∃ n : Nat, (u.scan (pagedColumn c codes fresh) comp lower upper result).totalCls = n ∧
    n ≤ 64 := totalCls_scan hsize hbits
  have hwords : ((clSize : Int).tdiv c.numOfBits).tdiv wordSize = u.resWords := by
    rw [hbits]
    cases u <;> decide
  rw [htotal, Int.toNat_natCast, countFilterResult_eq _ hn hwords (u.resWords_le.trans (by decide))]

theorem countersAgree_of_filled {p : Nat}
    (hfilled : FilledBy (u.scan (pagedColumn c codes fresh) comp lower upper result)
      (dataBlock (pagedColumn c codes fresh)) writeBuffers p) :
    CountersAgree (writeBuffers p) (u.scan (pagedColumn c codes fresh) comp lower upper result).totalCls
      c.numOfBits := by
  have hcount := countFilterResult_scan hsize hbits comp lower upper fresh result writeBuffers p
  obtain ⟨n, htotal, hn⟩ : ∃ n : Nat, (u.scan (pagedColumn c codes fresh) comp lower upper result).totalCls = n ∧
    n ≤ 64 := totalCls_scan hsize hbits
  have hle := u.resWords_le
  have hbytes := lineOnes_filled rfl hfilled (b := 128) (by omega) (by decide)
  have hline := lineOnes_filled rfl hfilled (b := 512) (by omega) le_rfl
  rw [← hbytes, htotal, Int.toNat_natCast] at hcount hline
  rw [htotal]
  obtain ⟨hreturned, hshown⟩ := printPartitionResult_eq (writeBuffers p) hn
  refine ⟨?_, ?_, ?_, ?_⟩
  · rw [hcount, getPartitionCount_eq _ hn]
  · rw [hcount, hreturned]
  · rw [hcount, hshown]
  · rw [hcount, printFilterResults_eq _ hn, hline]

/-- After a scan that filled the buffers the counters of `AFU_HANDLER` agree on each of them, and the items of the bit
vector are printed with the count that is reported. Where the slices have just the words of the lines, the counts of all
buffers add up to it, and it is also that of a bit map with as many words. -/
theorem counts_agree (hnil : c.partitions = []) (hfilled : ∀ p : Nat, p < (pagedColumn c codes fresh).numOfPartitions →
      FilledBy (u.scan (pagedColumn c codes fresh) comp lower upper result) (dataBlock (pagedColumn c codes fresh))
        writeBuffers p) :
    let scan := u.scan (pagedColumn c codes fresh) comp lower upper result
    let pages := (pagedColumn c codes fresh).numOfPartitions
    let job := copyLoop scan writeBuffers
    (∀ p : Nat, p < pages → CountersAgree (writeBuffers p) scan.totalCls c.numOfBits) ∧
      (printBitResultByItem job).1 = ((List.range (64 * job.bitVectorSize.toNat)).map fun item =>
        (item, bitAt job.bitResult item)) ∧
      (printBitResultByItem job).2 = job.countBitResults ∧
      (scan.resBuffLen = scan.resWordsPerCl * scan.totalCls →
        ((List.range pages).map fun p : Nat => countFilterResult (writeBuffers p) scan.totalCls c.numOfBits).sum =
            job.countBitResults ∧
          ∀ size : Int, (size + 63) / 64 = pages * scan.resBuffLen →
            testBitMap job.bitResult size = job.countBitResults) := by
  intro scan pages job
  have hlen : scan.resBuffLen = sliceWords u codes.length :=
    resBuffLen_scan (c := pagedColumn c codes fresh) hbits hsize
  have hpages : pages = (c.numOfPagesRequired pageSize).toNat := numOfPartitions_compressColumn hnil fresh _
  have hcopied := copiedAll_scan hsize hbits hnil comp lower upper fresh result writeBuffers
  have hreported : job.countBitResults = Nat.count (fun R => bitAt job.bitResult R = true)
      (countedRows u codes.length (c.numOfPagesRequired pageSize).toNat) :=
    countBitResults_copyLoop hsize hbits hnil fresh result writeBuffers
  have hmax : pages * sliceWords u codes.length ≤ (2 ^ 16 + 1) * 129 := by
    have hle := numOfPagesRequired_le c
    exact Nat.mul_le_mul (by omega) (sliceWords_le u _)
  have hvector : job.bitVectorSize = (pages * sliceWords u codes.length : Nat) := by
    have hframe : job = { scan.toJobWrapper with bitResult := job.bitResult } := hcopied.frame
    rw [hframe]
    show int32 (scan.resBuffLen * (pages : Nat)) = _
    rw [hlen, ← Int.natCast_mul, int32, Nat.mul_comm, Int.bmod_eq_of_le (by omega) (by omega)]
  have hprinted := printBitResultByItem_eq hvector (by omega)
  rw [countedRows_eq, ← hpages] at hreported
  refine ⟨fun p hp => countersAgree_of_filled hsize hbits (hfilled p hp), ?_, ?_, ?_⟩
  · rw [hprinted, hvector]
    rfl
  · rw [hprinted, hreported]
    rfl
  intro hfills
  have hwords : scan.resWordsPerCl = u.resWords := resWordsPerCl_scan (c := pagedColumn c codes fresh) hbits
  obtain ⟨n, htotal, hn⟩ : ∃ n : Nat, scan.totalCls = n ∧ n ≤ 64 := totalCls_scan hsize hbits
  have hslice : sliceWords u codes.length = u.resWords * scan.totalCls.toNat := by
    rw [hlen, hwords, htotal, ← Int.natCast_mul, Int.ofNat_inj] at hfills
    rw [hfills, htotal, Int.toNat_natCast]
  have hsum := sum_lineOnes hcopied u.resWords_pos (sliceWords_pos u _) hslice
  rw [← hpages] at hsum
  constructor
  · have hmap : ((List.range pages).map fun p : Nat =>
        countFilterResult (writeBuffers p) scan.totalCls c.numOfBits) = (List.range pages).map fun p : Nat =>
          (lineOnes (writeBuffers p) (64 * u.resWords) scan.totalCls.toNat : Int) :=
      List.map_congr_left fun p _ => countFilterResult_scan hsize hbits comp lower upper fresh result writeBuffers p
    rw [hmap, hreported, ← hsum, Nat.cast_list_sum, List.map_map]
    rfl
  · intro size hsize'
    rw [hlen, ← Int.natCast_mul] at hsize'
    rw [testBitMap_eq _ hsize' (by omega), hreported]

end Agree

/-- Two quantities: a counter, the report and the bit map, with the zeros behind the codes in all of them. -/
theorem counts_agree_two_rows :
    let column := pagedColumn { Column.new 2 with numOfBits := 8 } [24, 25] fun _ _ => 0
    let scan := ScanUnit.loQuantity.scan column .le 24 (-1) fun _ => 0
    let buffer := writeBuffer scan.jobType.scanColumn scan.predRegister scan.totalCls.toNat (dataBlock column 0)
      fun _ => 0
    getPartitionCount buffer scan.totalCls = (copyLoop scan fun _ => buffer).countBitResults ∧
      testBitMap (copyLoop scan fun _ => buffer).bitResult 2 = (copyLoop scan fun _ => buffer).countBitResults := by
  intro column scan buffer
  have hpages : column.numOfPartitions = 1 := by decide +kernel
  have hfilled : ∀ p : Nat, p < column.numOfPartitions → FilledBy scan (dataBlock column) (fun _ => buffer) p := by
    intro p hp
    rw [hpages] at hp
    obtain rfl : p = 0 := Nat.lt_one_iff.mp hp
    exact fun _ _ hi ht => writeBuffer_line hi ht
  obtain ⟨hbuffers, _, _, hreport⟩ := counts_agree (u := .loQuantity) rfl rfl rfl hfilled
  obtain ⟨hsum, hbitMap⟩ := hreport (by decide +kernel)
  refine ⟨?_, hbitMap 2 (by decide +kernel)⟩
  rw [← hsum, hpages, (hbuffers 0 (by rw [hpages]; decide)).bytes]
  exact (Int.add_zero _).symm

end SdbFpga.Sched
