import SdbFpga.Api.ScanApi

/-!
# `copyFPGAWriteBuffer`: does the copy fit its slice?

The words of a slice are counted by `reserveResultBuffer`, the words that are copied by `total_cls`.

* `JobWrapper.copyStores` : the stores of the copy, `copyFPGAWriteBuffer_eq` : there are no others;
* `mem_copyStores_iff` : the indices, from the offset of the slice on;
* `ResultJob`, `resBuffLen_eq`, `toNat_totalCls` : the two numbers;
* `FillsSlice`, `fillsSlice_iff` : when they agree.
-/

namespace SdbFpga.Api
open Data

/-- The words that `copyFPGAWriteBuffer` reads, in order. -/
def JobWrapper.copiedWords (j : JobWrapper) (writeBuff : Nat → Word) (totalCls : Int) : List Word :=
  (List.range totalCls.toNat).flatMap fun curCl =>
    (List.range j.resWordsPerCl.toNat).map fun wordId => writeBuff (curCl * (clSize / wordSize) + wordId)

/-- The stores `bit_result[part_offset++] = ..`, as index and word. -/
def JobWrapper.copyStores (j : JobWrapper) (writeBuff : Nat → Word) (partId : Nat) (totalCls : Int) :
    List (Int × Word) :=
  (j.copiedWords writeBuff totalCls).zipIdx.map fun word => (int32 (partId * j.resBuffLen) + word.2, word.1)

/-! ## The stores -/

/-- The words of a list are stored one behind the other. -/
theorem foldl_store (words : List Word) : ∀ (j : JobWrapper) (off : Int) (k : Nat),
    (words.foldl (fun s word => (s.1.store s.2 word, s.2 + 1)) (j, off + k)).1 =
      ((words.zipIdx k).map fun word => (off + word.2, word.1)).foldl (fun j s => j.store s.1 s.2) j := by
  induction words with
  | nil => exact fun _ _ _ => rfl
  | cons word words ih =>
    intro j off k
    rw [List.foldl_cons, List.zipIdx_cons, List.map_cons, List.foldl_cons, ← ih]
    simp [Int.add_assoc]

/-- All that the copy does are its stores. -/
theorem copyFPGAWriteBuffer_eq (j : JobWrapper) (writeBuff : Nat → Word) (partId : Nat) (totalCls : Int) :
    j.copyFPGAWriteBuffer writeBuff partId totalCls =
      (j.copyStores writeBuff partId totalCls).foldl (fun j s => j.store s.1 s.2) j := by
  have hline : JobWrapper.copyLine writeBuff j.resWordsPerCl.toNat = fun s curCl =>
      ((List.range j.resWordsPerCl.toNat).map fun wordId => writeBuff (curCl * (clSize / wordSize) + wordId)).foldl
        (fun s word => (s.1.store s.2 word, s.2 + 1)) s := by
    funext s curCl
    rw [List.foldl_map]
    rfl
  rw [JobWrapper.copyFPGAWriteBuffer, hline, ← List.foldl_flatMap, JobWrapper.copyStores, ← foldl_store]
  simp [JobWrapper.copiedWords]

section Stores
variable {j : JobWrapper} (writeBuff : Nat → Word) {totalCls : Int}

theorem length_copiedWords :
    (j.copiedWords writeBuff totalCls).length = j.resWordsPerCl.toNat * totalCls.toNat := by
  unfold JobWrapper.copiedWords
  rw [List.length_flatMap, Nat.mul_comm]
  simp

variable (totalCls) in
/-- The indices of the stores. -/
theorem mem_copyStores_iff {len partId : Nat} (hlen : j.resBuffLen = len) (hint : partId * len < 2 ^ 31) (ind : Int) :
    ind ∈ (j.copyStores writeBuff partId totalCls).map Prod.fst ↔
      partId * len ≤ ind ∧ ind < partId * len + j.resWordsPerCl.toNat * totalCls.toNat := by
  have hoff : int32 (partId * j.resBuffLen) = ((partId * len : Nat) : Int) := by
    rw [hlen, int32, ← Int.natCast_mul, Int.bmod_eq_of_le (by omega) (by omega)]
  have hfst : (j.copyStores writeBuff partId totalCls).map Prod.fst =
      (List.range (j.resWordsPerCl.toNat * totalCls.toNat)).map fun i => ((partId * len + i : Nat) : Int) := by
    rw [← length_copiedWords writeBuff, List.range_eq_range', ← List.zipIdx_map_snd, JobWrapper.copyStores,
      hoff, List.map_map, List.map_map]
    rfl
  rw [hfst, List.mem_map]
  simp only [List.mem_range, ← Int.natCast_mul]
  constructor
  · rintro ⟨i, hi, rfl⟩
    omega
  · rintro ⟨hge, hlt⟩
    exact ⟨(ind - (partId * len : Nat)).toNat, by omega, by omega⟩

end Stores

/-! ## The slice -/

/-- The copy of partition `partId` stores to every word of its slice and to no other word of the bit vector or behind
it. -/
structure FillsSlice (j : JobWrapper) (writeBuff : Nat → Word) (partId : Nat) (totalCls : Int) : Prop where
  fills : ∀ ind, partId * j.resBuffLen ≤ ind → ind < (partId + 1) * j.resBuffLen →
    ind ∈ (j.copyStores writeBuff partId totalCls).map Prod.fst
  stays : ∀ ind ∈ (j.copyStores writeBuff partId totalCls).map Prod.fst,
    partId * j.resBuffLen ≤ ind ∧ ind < (partId + 1) * j.resBuffLen ∧ 0 ≤ ind ∧ ind < j.bitVectorSize

/-- A slice of `len` words is filled by `len` words. -/
theorem fillsSlice_iff_of_len {j : JobWrapper} {writeBuff : Nat → Word} {totalCls : Int} {len partId : Nat}
    (hlen : j.resBuffLen = len) (hpos : 0 < len) (hint : partId * len < 2 ^ 31)
    (hsize : ((partId * len + len : Nat) : Int) ≤ j.bitVectorSize) :
    FillsSlice j writeBuff partId totalCls ↔ j.resWordsPerCl.toNat * totalCls.toNat = len := by
  have hmem := fun ind => mem_copyStores_iff writeBuff totalCls hlen hint ind
  have hnext : ((partId : Int) + 1) * len = ((partId * len + len : Nat) : Int) := by
    push_cast
    rw [Int.add_mul, Int.one_mul]
  have hfirst : (partId : Int) * len = ((partId * len : Nat) : Int) := (Int.natCast_mul _ _).symm
  simp only [hfirst, ← Int.natCast_mul] at hmem
  generalize j.resWordsPerCl.toNat * totalCls.toNat = n at hmem
  constructor
  · rintro ⟨hfills, hstays⟩
    rw [hlen, hfirst, hnext] at hfills hstays
    have hlast := (hmem _).mp (hfills ((partId * len + len : Nat) - 1) (by omega) (by omega))
    by_contra hne
    have hover := hstays ((partId * len + len : Nat) : Int) ((hmem _).mpr ⟨by omega, by omega⟩)
    omega
  · rintro rfl
    refine ⟨?_, ?_⟩
    · intro ind hge hlt
      rw [hlen, hfirst] at hge
      rw [hlen, hnext] at hlt
      exact (hmem ind).mpr ⟨hge, by omega⟩
    · intro ind hind
      obtain ⟨hge, hlt⟩ := (hmem ind).mp hind
      rw [hlen, hfirst, hnext]
      omega

section Job
variable {s : ScanApi} (fresh : Nat → Word)

/-- The words of a slice. -/
theorem resBuffLen_initializeScanOperator (h1 : 1 ≤ s.baseColumn.colSize)
    (hbits : s.baseColumn.numOfBits = 4 ∨ s.baseColumn.numOfBits = 8) :
    s.baseColumn.numOfBits = 4 ∧ (s.initializeScanOperator fresh).resBuffLen =
        (if s.baseColumn.colSize < 8192 then s.baseColumn.colSize / 64 + 1 else 128) ∨
      s.baseColumn.numOfBits = 8 ∧ (s.initializeScanOperator fresh).resBuffLen =
        (if s.baseColumn.colSize < 4096 then s.baseColumn.colSize / 64 + 1 else 64) := by
  have hdiv : s.baseColumn.colSize.tdiv 64 = s.baseColumn.colSize / 64 := Int.tdiv_eq_ediv_of_nonneg (by omega)
  have hlen : (s.initializeScanOperator fresh).resBuffLen =
      if s.baseColumn.colSize < ((pageSize : Int) * 8).tdiv s.baseColumn.numOfBits then s.baseColumn.colSize.tdiv 64 + 1
      else (((pageSize : Int) * 8).tdiv s.baseColumn.numOfBits).tdiv 64 := rfl
  rw [hlen, hdiv]
  rcases hbits with hb | hb
  · rw [hb]
    exact .inl ⟨rfl, rfl⟩
  · rw [hb]
    exact .inr ⟨rfl, rfl⟩

/-- The words that are copied. -/
theorem copied_words (h1 : 1 ≤ s.baseColumn.colSize)
    (hbits : s.baseColumn.numOfBits = 4 ∨ s.baseColumn.numOfBits = 8) :
    s.baseColumn.numOfBits = 4 ∧ (s.resWordsPerCl.toNat * s.totalCls.toNat : Int) =
        2 * min ((s.baseColumn.colSize + 127) / 128) 64 ∨
      s.baseColumn.numOfBits = 8 ∧ (s.resWordsPerCl.toNat * s.totalCls.toNat : Int) =
        min ((s.baseColumn.colSize + 63) / 64) 64 := by
  have htotal : s.totalCls = min (-(-s.baseColumn.colSize / (clSize : Int).tdiv s.baseColumn.numOfBits)) 64 := rfl
  have hwords : s.resWordsPerCl = ((clSize : Int).tdiv s.baseColumn.numOfBits).tdiv wordSize := rfl
  rw [htotal, hwords]
  rcases hbits with hb | hb
  · have hitems : (clSize : Int).tdiv 4 = 128 := rfl
    have hline : (((128 : Int).tdiv wordSize).toNat : Int) = 2 := rfl
    rw [hb, hitems, hline]
    refine .inl ⟨rfl, ?_⟩
    omega
  · have hitems : (clSize : Int).tdiv 8 = 64 := rfl
    have hline : (((64 : Int).tdiv wordSize).toNat : Int) = 1 := rfl
    rw [hb, hitems, hline]
    refine .inr ⟨rfl, ?_⟩
    omega

/-- The copy fills its slice and stays in it exactly if the column is a page long or longer, or the last line that is
scanned is not full and, for 4-bit codes, at least half full. -/
theorem fillsSlice_iff (writeBuff : Nat → Word) {partId : Nat} (h1 : 1 ≤ s.baseColumn.colSize)
    (hbits : s.baseColumn.numOfBits = 4 ∨ s.baseColumn.numOfBits = 8)
    (hpages : (s.baseColumn.numOfPartitions : Int) = s.baseColumn.numOfPagesRequired pageSize)
    (hpart : partId < s.baseColumn.numOfPartitions) :
    FillsSlice (s.initializeScanOperator fresh).toJobWrapper writeBuff partId (s.initializeScanOperator fresh).totalCls ↔
      (s.baseColumn.numOfBits = 4 → s.baseColumn.colSize < 8192 → 64 ≤ s.baseColumn.colSize % 128) ∧
        (s.baseColumn.numOfBits = 8 → s.baseColumn.colSize < 4096 → s.baseColumn.colSize % 64 ≠ 0) := by
  have hcases := resBuffLen_initializeScanOperator fresh h1 hbits
  have hwords := copied_words h1 hbits
  have hmany := numOfPagesRequired_le s.baseColumn
  obtain ⟨len, hlen, hpos, hmax⟩ : ∃ len : Nat, (s.initializeScanOperator fresh).resBuffLen = len ∧ 0 < len ∧
      len ≤ 128 := by
    refine ⟨(s.initializeScanOperator fresh).resBuffLen.toNat, ?_, ?_, ?_⟩ <;>
      rcases hcases with ⟨_, h⟩ | ⟨_, h⟩ <;> rw [h] <;> split <;> omega
  have hmul : partId * len + len ≤ s.baseColumn.numOfPartitions * len := by
    rw [← Nat.succ_mul]
    exact Nat.mul_le_mul_right len hpart
  have hbound : s.baseColumn.numOfPartitions * len ≤ (2 ^ 16 + 1) * 128 := Nat.mul_le_mul (by omega) hmax
  have hsize : (s.initializeScanOperator fresh).bitVectorSize = ((s.baseColumn.numOfPartitions * len : Nat) : Int) := by
    show int32 ((s.initializeScanOperator fresh).resBuffLen * s.baseColumn.numOfPartitions) = _
    rw [hlen, int32, Int.mul_comm, ← Int.natCast_mul, Int.bmod_eq_of_le (by omega) (by omega)]
  rw [fillsSlice_iff_of_len hlen hpos (by omega) (by rw [hsize]; omega)]
  show s.resWordsPerCl.toNat * s.totalCls.toNat = len ↔ _
  rw [hlen] at hcases
  rw [← Int.natCast_inj]
  push_cast
  rcases hcases with ⟨hb, hl⟩ | ⟨hb, hl⟩
  · rcases hwords with ⟨_, hw⟩ | ⟨hb', _⟩
    · rw [hw, hl, hb]
      split <;> omega
    · omega
  · rcases hwords with ⟨hb', _⟩ | ⟨_, hw⟩
    · omega
    · rw [hw, hl, hb]
      split <;> omega

end Job

/-- A scan of `rows` codes of `bits` bits. -/
def smallScan (rows bits : Int) : ScanApi :=
  .new .dYearScan (({ Column.new rows with numOfBits := bits } : Column).initializePageAlignedPartitions fun _ _ => 0)
    .eq 0

/-- The dates of the benchmark. -/
theorem fillsSlice_dates : FillsSlice ((smallScan 2556 4).initializeScanOperator fun _ => 0).toJobWrapper (fun _ => 0) 0
    ((smallScan 2556 4).initializeScanOperator fun _ => 0).totalCls :=
  (fillsSlice_iff _ _ (by decide) (.inl rfl) (by decide) (by decide)).mpr (by decide)

/-- For 129 rows of half a byte a fourth word is stored behind the three of the array, for 128 rows the third word is
never written. -/
theorem slice_missed : ¬ FillsSlice ((smallScan 129 4).initializeScanOperator fun _ => 0).toJobWrapper (fun _ => 0) 0
      ((smallScan 129 4).initializeScanOperator fun _ => 0).totalCls ∧
    ¬ FillsSlice ((smallScan 128 4).initializeScanOperator fun _ => 0).toJobWrapper (fun _ => 0) 0
      ((smallScan 128 4).initializeScanOperator fun _ => 0).totalCls := by
  constructor
  · intro h
    exact absurd (h.stays 3 (by decide)).2.2.2 (by decide)
  · intro h
    exact absurd (h.fills 2 (by decide) (by decide)) (by decide)

end SdbFpga.Api
