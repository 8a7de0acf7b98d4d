import SdbFpga.Data.Column
import SdbFpga.Lib.Popcount

/-!
# `JobWrapper`: a job and its bit vector

* `reserveResultBuffer` : one slice of `res_buff_len` words for each partition;
* `copyFPGAWriteBuffer` : gathers the result words of a partition's write buffer into its slice;
* `countBitResults` : counts the ones of all slices;
* `Copied` : the loop invariant, `Copied.store`, `Copied.line` : one word, one cache line more;
* `copied_copyFPGAWriteBuffer` : the whole copy;
* `countBitResults_eq` : the total is the number of ones in the slices.
-/

namespace SdbFpga.Api
open Bits Data

/-- `JOB_TYPE`. -/
inductive JobType
  | dYearScan
  | loDiscScan
  | loQuantityScan
  | cMktsegmentScan
  | loDateJoin
  deriving DecidableEq, Repr

/-- The enumerator's value. -/
def JobType.toNat : JobType → Nat
  | .dYearScan => 0
  | .loDiscScan => 1
  | .loQuantityScan => 2
  | .cMktsegmentScan => 3
  | .loDateJoin => 4

/-- `CL_SIZE`, in bits. -/
def clSize : Nat := 512

/-- `WORD_SIZE`. -/
def wordSize : Nat := 64

/-- `JobWrapper`. -/
structure JobWrapper where
  jobType : JobType
  baseColumn : Column
  bitResult : Nat → Word
  bitVectorSize : Int
  resBuffLen : Int
  numOfPartitions : Int

/-- The constructor; there is no bit vector yet. -/
def JobWrapper.new (jobType : JobType) (inputColumn : Column) : JobWrapper where
  jobType := jobType
  baseColumn := inputColumn
  bitResult := fun _ => 0
  bitVectorSize := 0
  resBuffLen := 0
  numOfPartitions := inputColumn.numOfPartitions

/-- `setNumOfPartitions`. -/
def JobWrapper.setNumOfPartitions (j : JobWrapper) (parts : Int) : JobWrapper := { j with numOfPartitions := parts }

/-- `TotalPartitions`. -/
def JobWrapper.totalPartitions (j : JobWrapper) : Int := j.numOfPartitions

/-- `reserveResultBuffer`; `fresh` is what the new array holds. -/
def JobWrapper.reserveResultBuffer (j : JobWrapper) (fresh : Nat → Word) : JobWrapper :=
  let bitsPerPartition := ((pageSize : Int) * 8).tdiv j.baseColumn.numOfBits
  let totalElements := j.baseColumn.colSize
  let resBuffLen :=
    if totalElements < bitsPerPartition then totalElements.tdiv 64 + 1 else bitsPerPartition.tdiv 64
  { j with
    resBuffLen := resBuffLen
    bitVectorSize := int32 (resBuffLen * j.baseColumn.numOfPartitions)
    bitResult := fresh }

/-- `bit_result[ind] = word`; a store outside the array is ignored. -/
def JobWrapper.store (j : JobWrapper) (ind : Int) (word : Word) : JobWrapper :=
  if 0 ≤ ind ∧ ind < j.bitVectorSize then { j with bitResult := Function.update j.bitResult ind.toNat word } else j

/-- The inner loop of `copyFPGAWriteBuffer`: the first words of one cache line go to `part_offset++`. -/
def JobWrapper.copyLine (writeBuff : Nat → Word) (resWordsPerCl : Nat) (s : JobWrapper × Int) (curCl : Nat) :
    JobWrapper × Int :=
  let clOffset := curCl * (clSize / wordSize)
  (List.range resWordsPerCl).foldl (fun s wordId => (s.1.store s.2 (writeBuff (clOffset + wordId)), s.2 + 1)) s

/-- `res_words_per_cl`. -/
def JobWrapper.resWordsPerCl (j : JobWrapper) : Int := ((clSize : Int).tdiv j.baseColumn.numOfBits).tdiv wordSize

/-- `copyFPGAWriteBuffer(uint64_t*, int, int)`. -/
def JobWrapper.copyFPGAWriteBuffer (j : JobWrapper) (writeBuff : Nat → Word) (partId : Nat) (totalCls : Int) :
    JobWrapper :=
  ((List.range totalCls.toNat).foldl (copyLine writeBuff j.resWordsPerCl.toNat)
    (j, int32 (partId * j.resBuffLen))).1

/-- `countBitResults`, the total that it prints. -/
def JobWrapper.countBitResults (j : JobWrapper) : Int :=
  (List.range j.numOfPartitions.toNat).foldl
    (fun totalCount (partId : Nat) =>
      let partOffset := int32 (partId * j.resBuffLen)
      int32 (totalCount + (List.range j.resBuffLen.toNat).foldl
        (fun partCount (ind : Nat) => int32 (partCount + (j.bitResult (partOffset + ind).toNat).cpop.toNat)) 0)) 0

/-! ## The copy loop -/

/-- The invariant after `n` words: `src` stands in the slice from `off` on as far as the array goes, the other words
and the job are as they were. -/
structure Copied (j : JobWrapper) (src : Nat → Word) (off n : Nat) (s : JobWrapper × Int) : Prop where
  offset : s.2 = (off + n : Nat)
  frame : s.1 = { j with bitResult := s.1.bitResult }
  copied : ∀ i < n, ((off + i : Nat) : Int) < j.bitVectorSize → s.1.bitResult (off + i) = src i
  rest : ∀ i : Nat, i < off ∨ off + n ≤ i ∨ j.bitVectorSize ≤ i → s.1.bitResult i = j.bitResult i

section Copy
variable {j : JobWrapper} {src : Nat → Word} {off n : Nat} {s : JobWrapper × Int}

theorem copied_zero (j : JobWrapper) (src : Nat → Word) (off : Nat) : Copied j src off 0 (j, (off : Int)) := by
  refine ⟨rfl, rfl, ?_, fun _ _ => rfl⟩
  intro i hi
  omega

/-- One word more. -/
theorem Copied.store (h : Copied j src off n s) :
    Copied j src off (n + 1) (s.1.store s.2 (src n), s.2 + 1) := by
  have hsize : s.1.bitVectorSize = j.bitVectorSize := by rw [h.frame]
  have hoff : s.2.toNat = off + n := by rw [h.offset, Int.toNat_natCast]
  have hoffset : s.2 + 1 = ((off + (n + 1) : Nat) : Int) := by
    rw [h.offset]
    omega
  unfold JobWrapper.store
  by_cases hin : 0 ≤ s.2 ∧ s.2 < s.1.bitVectorSize
  · rw [if_pos hin, hoff]
    refine ⟨hoffset, ?_, ?_, ?_⟩
    · exact congrArg (fun w : JobWrapper => { w with bitResult := Function.update s.1.bitResult (off + n) (src n) })
        h.frame
    · intro i hi hlt
      show Function.update s.1.bitResult (off + n) (src n) (off + i) = src i
      rcases Nat.lt_or_eq_of_le (Nat.le_of_lt_succ hi) with hin' | rfl
      · rw [Function.update_of_ne (by omega)]
        exact h.copied i hin' hlt
      · rw [Function.update_self]
    · intro i hi
      show Function.update s.1.bitResult (off + n) (src n) i = j.bitResult i
      rw [h.offset, hsize] at hin
      rw [Function.update_of_ne (by omega)]
      exact h.rest i (by omega)
  · rw [if_neg hin]
    rw [h.offset, hsize] at hin
    refine ⟨hoffset, h.frame, ?_, ?_⟩
    · intro i hi hlt
      exact h.copied i (by omega) hlt
    · intro i hi
      exact h.rest i (by omega)

/-- One cache line more. -/
theorem Copied.line {writeBuff : Nat → Word} {curCl : Nat} (m : Nat) (h : Copied j src off n s)
    (hsrc : ∀ t < m, src (n + t) = writeBuff (curCl * (clSize / wordSize) + t)) :
    Copied j src off (n + m) (JobWrapper.copyLine writeBuff m s curCl) := by
  unfold JobWrapper.copyLine
  induction m with
  | zero => exact h
  | succ m ih =>
    have hm := ih fun t ht => hsrc t (by omega)
    rw [List.range_succ, List.foldl_append, List.foldl_cons, List.foldl_nil, ← hsrc m (by omega)]
    exact hm.store

/-- The outer loop: `m` words of each of `k` lines. -/
theorem copied_lines {writeBuff : Nat → Word} {m : Nat} (hm : 0 < m) (k : Nat) :
    Copied j (fun i => writeBuff (i / m * (clSize / wordSize) + i % m)) off (m * k)
      ((List.range k).foldl (JobWrapper.copyLine writeBuff m) (j, (off : Int))) := by
  induction k with
  | zero => exact copied_zero j _ off
  | succ k ih =>
    rw [List.range_succ, List.foldl_append, List.foldl_cons, List.foldl_nil, Nat.mul_succ]
    apply ih.line m
    intro t ht
    have hdiv : (m * k + t) / m = k := by rw [Nat.mul_add_div hm, Nat.div_eq_of_lt ht, Nat.add_zero]
    have hmod : (m * k + t) % m = t := by rw [Nat.mul_add_mod, Nat.mod_eq_of_lt ht]
    rw [hdiv, hmod]

end Copy

/-- Word `i` of partition `partId`'s slice is word `i % m` of line `i / m` of the write buffer. -/
theorem copied_copyFPGAWriteBuffer {j : JobWrapper} {len m partId : Nat} (writeBuff : Nat → Word) (totalCls : Int)
    (hlen : j.resBuffLen = len) (hm : j.resWordsPerCl = m) (hpos : 0 < m) (hint : partId * len < 2 ^ 31) :
    ∃ s, Copied j (fun i => writeBuff (i / m * (clSize / wordSize) + i % m)) (partId * len) (m * totalCls.toNat) s ∧
      j.copyFPGAWriteBuffer writeBuff partId totalCls = s.1 := by
  have hoff : int32 (partId * j.resBuffLen) = ((partId * len : Nat) : Int) := by
    rw [hlen, int32, ← Int.natCast_mul, Int.bmod_eq_of_le (by omega) (by omega)]
  refine ⟨_, copied_lines hpos totalCls.toNat, ?_⟩
  rw [JobWrapper.copyFPGAWriteBuffer, hoff, hm, Int.toNat_natCast]

/-- Of a line at most the eight words are read. -/
theorem resWordsPerCl_le (j : JobWrapper) : j.resWordsPerCl.toNat ≤ 8 := by
  have hdiv : (clSize : Int).tdiv j.baseColumn.numOfBits ≤ 512 := by
    have := Int.natAbs_tdiv_le_natAbs (clSize : Int) j.baseColumn.numOfBits
    have habs : (clSize : Int).natAbs = 512 := rfl
    omega
  have hwords : ((clSize : Int).tdiv j.baseColumn.numOfBits).tdiv wordSize ≤ 8 := Int.tdiv_le_tdiv (by decide) hdiv
  unfold JobWrapper.resWordsPerCl
  omega

/-- The copy depends on the first `totalCls` lines only. -/
theorem copyFPGAWriteBuffer_congr {j : JobWrapper} {writeBuff writeBuff' : Nat → Word} {totalCls : Int} (partId : Nat)
    (h : ∀ i t, i < totalCls.toNat → t < 8 → writeBuff (8 * i + t) = writeBuff' (8 * i + t)) :
    j.copyFPGAWriteBuffer writeBuff partId totalCls = j.copyFPGAWriteBuffer writeBuff' partId totalCls := by
  unfold JobWrapper.copyFPGAWriteBuffer
  congr 1
  apply List.foldl_ext
  intro s curCl hcl
  unfold JobWrapper.copyLine
  apply List.foldl_ext
  intro s wordId hword
  rw [List.mem_range] at hcl hword
  have hidx : curCl * (clSize / wordSize) + wordId = 8 * curCl + wordId := by
    rw [Nat.mul_comm]
    rfl
  have hle := resWordsPerCl_le j
  rw [hidx, h curCl wordId hcl (by omega)]

/-! ## The count -/

/-- Numbers summed up in an `int`. -/
theorem foldl_int32_add (f : Nat → Nat) (count n : Nat) (hmax : count + ((List.range n).map f).sum < 2 ^ 31) :
    (List.range n).foldl (fun (count : Int) i => int32 (count + f i)) count =
      (count + ((List.range n).map f).sum : Nat) := by
  induction n with
  | zero => simp
  | succ n ih =>
    rw [List.range_succ, List.map_append, List.sum_append, List.map_singleton, List.sum_singleton] at hmax ⊢
    rw [List.foldl_append, List.foldl_cons, List.foldl_nil, ih (by omega), int32,
      Int.bmod_eq_of_le (by omega) (by omega)]
    push_cast
    omega

section Count
variable {j : JobWrapper} {len : Nat}

/-- The loop over one slice. -/
theorem foldl_cpop (mem : Nat → Word) (off n : Nat) (hmax : 64 * n < 2 ^ 31) :
    (Nat.count (fun r => bitAt mem r = true) (64 * off) : Int) + (List.range n).foldl
      (fun partCount (ind : Nat) => int32 (partCount + (mem ((off : Int) + ind).toNat).cpop.toNat)) 0 =
        Nat.count (fun r => bitAt mem r = true) (64 * (off + n)) := by
  induction n with
  | zero => simp
  | succ n ih =>
    have hle : Nat.count (fun r => bitAt mem r = true) (64 * (off + n)) ≤
        Nat.count (fun r => bitAt mem r = true) (64 * off) + 64 * n := by
      rw [Nat.mul_add, Nat.count_add]
      exact Nat.add_le_add_left (Nat.count_le _) _
    have hword : (mem (off + n)).cpop.toNat ≤ 64 := by
      rw [toNat_cpop]
      exact Nat.count_le _
    have hmono : Nat.count (fun r => bitAt mem r = true) (64 * off) ≤
        Nat.count (fun r => bitAt mem r = true) (64 * (off + n)) := Nat.count_monotone _ (by omega)
    have hidx : ((off : Int) + n).toNat = off + n := by omega
    specialize ih (by omega)
    rw [List.range_succ, List.foldl_append, List.foldl_cons, List.foldl_nil, ← Nat.add_assoc, count_bitAt_succ, hidx,
      int32, Int.bmod_eq_of_le (by omega) (by omega)]
    push_cast
    omega

/-- The total is the number of ones in the slices. -/
theorem countBitResults_eq (hlen : j.resBuffLen = len) (hmax : 64 * (j.numOfPartitions.toNat * len) < 2 ^ 31) :
    j.countBitResults =
      Nat.count (fun r => bitAt j.bitResult r = true) (64 * (j.numOfPartitions.toNat * len)) := by
  unfold JobWrapper.countBitResults
  generalize j.numOfPartitions.toNat = n at hmax
  induction n with
  | zero => simp
  | succ n ih =>
    have hsucc : (n + 1) * len = n * len + len := Nat.succ_mul n len
    rw [hsucc] at hmax ⊢
    have hslice := foldl_cpop j.bitResult (n * len) len (by omega)
    have hle : Nat.count (fun r => bitAt j.bitResult r = true) (64 * (n * len + len)) ≤ 64 * (n * len + len) :=
      Nat.count_le _
    have hoff : int32 (n * j.resBuffLen) = ((n * len : Nat) : Int) := by
      rw [hlen, int32, ← Int.natCast_mul, Int.bmod_eq_of_le (by omega) (by omega)]
    rw [List.range_succ, List.foldl_append, List.foldl_cons, List.foldl_nil, ih (by omega)]
    simp only [hoff]
    rw [hlen, Int.toNat_natCast, hslice, int32, Int.bmod_eq_of_le (by omega) (by omega)]

end Count

end SdbFpga.Api
