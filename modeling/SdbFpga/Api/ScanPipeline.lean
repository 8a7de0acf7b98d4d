import SdbFpga.Api.ScanApi

/-!
# From the codes of a column to its bit vector

The words of a page, the lanes of a unit, the result lines and the words that `copyFPGAWriteBuffer` keeps are four
layouts of the same rows.

* `ScanUnit.scan` : a scan set up for a unit;
* `lane_cacheLine_page` : row `r` of a page is lane `r % (8 * v)` of line `r / (8 * v)`;
* `bitResult_index` : row `r` of partition `p` is bit `r % 64` of word `p * resBuffLen + r / 64`;
* `bitResult_iff` : that bit is set exactly if the row is selected.
-/

namespace SdbFpga.Api
open Bits Text Data Fpga

/-- The scan of `column` on unit `u`. -/
def ScanUnit.scan (u : ScanUnit) (column : Column) (comp : ComparisonType) (lower upper : BitVec 32)
    (result : Nat → Word) : ScanApi :=
  ((ScanApi.new u.jobType column comp lower).setUpperParam upper).initializeScanOperator result

/-- The result words of a line. -/
def ScanUnit.resWords (u : ScanUnit) : Nat := u.codesPerWord / 8

theorem ScanUnit.resWords_pos (u : ScanUnit) : 0 < u.resWords := by
  cases u <;> decide

theorem ScanUnit.resWords_le (u : ScanUnit) : u.resWords ≤ 2 := by
  cases u <;> decide

theorem ScanUnit.resWords_mul (u : ScanUnit) : 64 * u.resWords = 8 * u.codesPerWord := by
  cases u <;> decide

/-! ## A job on a column of the unit's width -/

section Job
variable {u : ScanUnit} {c : Column} {comp : ComparisonType} {lower upper : BitVec 32} {result : Nat → Word}
  (hbits : c.numOfBits = u.bits)
include hbits

theorem resWordsPerCl_scan : (u.scan c comp lower upper result).resWordsPerCl = u.resWords := by
  show ((clSize : Int).tdiv c.numOfBits).tdiv wordSize = _
  rw [hbits]
  cases u <;> decide

/-- The words of a slice. -/
theorem resBuffLen_scan {n : Nat} (hsize : c.colSize = n) :
    (u.scan c comp lower upper result).resBuffLen =
      (if n < 512 * u.codesPerWord then n / 64 + 1 else 8 * u.codesPerWord : Nat) := by
  have hpage : ((pageSize : Int) * 8).tdiv c.numOfBits = (512 * u.codesPerWord : Nat) :=
    partitionSize_of_bits u.bits_pos u.bits_mul_codesPerWord hbits
  show (if c.colSize < ((pageSize : Int) * 8).tdiv c.numOfBits then c.colSize.tdiv 64 + 1
    else (((pageSize : Int) * 8).tdiv c.numOfBits).tdiv 64) = _
  rw [hpage, hsize]
  by_cases hlt : n < 512 * u.codesPerWord
  · rw [if_pos (by omega), if_pos hlt]
    rfl
  · rw [if_neg (by omega), if_neg hlt]
    cases u <;> decide

/-- The lines of a page that hold rows are scanned, and no others. -/
theorem lt_totalCls_scan_iff {n : Nat} (hsize : c.colSize = n) (j : Nat) :
    j < (u.scan c comp lower upper result).totalCls.toNat ↔ j < 64 ∧ 8 * u.codesPerWord * j < n := by
  have hv := u.codesPerWord_pos
  have hitems : (clSize : Int).tdiv c.numOfBits = (8 * u.codesPerWord : Nat) := by
    rw [hbits]
    cases u <;> decide
  have htotal : (u.scan c comp lower upper result).totalCls =
      min (ceilDiv n (8 * u.codesPerWord : Nat)) (pageSize / 64 : Nat) := by
    show min (ceilDiv c.colSize ((clSize : Int).tdiv c.numOfBits)) _ = _
    rw [hitems, hsize]
  have hceil : (j : Int) < ceilDiv n (8 * u.codesPerWord : Nat) ↔ 8 * u.codesPerWord * j < n := by
    have hdiv : -(n : Int) / (8 * u.codesPerWord : Nat) < -j ↔ -(n : Int) < -j * (8 * u.codesPerWord : Nat) :=
      Int.ediv_lt_iff_lt_mul (by omega)
    have hmul : (j : Int) * (8 * u.codesPerWord : Nat) = (8 * u.codesPerWord * j : Nat) := by
      rw [Nat.mul_comm _ j]
      push_cast
      rfl
    rw [Int.neg_mul, hmul] at hdiv
    unfold ceilDiv
    omega
  have hpage : pageSize / 64 = 64 := rfl
  rw [htotal, hpage, ← hceil]
  omega

end Job

/-! ## Rows of a partition -/

theorem ScanUnit.two_pow_bits_le (u : ScanUnit) : 2 ^ u.bits ≤ 2 ^ 31 := by
  cases u <;> decide

/-- A lane of a line is a lane of one of its words. -/
theorem lane_cacheLine_row (u : ScanUnit) (mem : Nat → Word) (r : Nat) :
    lane u.bits (r % (8 * u.codesPerWord)) (cacheLine mem (r / (8 * u.codesPerWord))) =
      lane u.bits (r % u.codesPerWord) (mem (r / u.codesPerWord)) := by
  have hv := u.codesPerWord_pos
  have hlt : r % (8 * u.codesPerWord) < u.codesPerWord * 8 := by
    rw [Nat.mul_comm u.codesPerWord]
    exact Nat.mod_lt r (by omega)
  have hmod : r % (8 * u.codesPerWord) % u.codesPerWord = r % u.codesPerWord :=
    Nat.mod_mul_left_mod r 8 u.codesPerWord
  have hword : 8 * (r / (8 * u.codesPerWord)) + r % (8 * u.codesPerWord) / u.codesPerWord = r / u.codesPerWord := by
    rw [Nat.mul_comm 8 u.codesPerWord, Nat.mod_mul_right_div_self, ← Nat.div_div_eq_div_mul, Nat.div_add_mod]
  rw [lane_cacheLine u.bits_mul_codesPerWord _ _ _ hlt, hmod, hword]

section Partition
variable {u : ScanUnit} {c : Column} {fresh : Nat → Nat → Word} {codes : List Nat} {p : Nat} {q : Partition}
  (hbits : c.numOfBits = u.bits) (hnil : c.partitions = [])
  (hq : ((c.initializePageAlignedPartitions fresh).compressColumn (codes.map decimal)).partitions[p]? = some q)
include hbits hnil hq

/-- Row `r` is lane `r % (8 * v)` of line `r / (8 * v)`. -/
theorem lane_cacheLine_page (hcodes : ∀ x ∈ codes, x < 2 ^ u.bits) {r : Nat} (hr : r < 512 * u.codesPerWord)
    (hrow : p * (512 * u.codesPerWord) + r < codes.length) :
    (lane u.bits (r % (8 * u.codesPerWord)) (cacheLine q.compressed (r / (8 * u.codesPerWord)))).toNat =
      codes[p * (512 * u.codesPerWord) + r] := by
  rw [lane_cacheLine_row, lane_page u.bits_pos u.bits_mul_codesPerWord hbits hnil hq
    (fun x hx => ⟨hcodes x hx, (hcodes x hx).trans_le u.two_pow_bits_le⟩) hr hrow, BitVec.toNat_ofNat,
    Nat.mod_eq_of_lt (hcodes _ (List.getElem_mem _))]

omit hbits in
/-- The slice of a partition is inside the array. -/
theorem lt_bitVectorSize {comp : ComparisonType} {lower upper : BitVec 32} {result : Nat → Word} {len r : Nat}
    (hlen : (u.scan ((c.initializePageAlignedPartitions fresh).compressColumn (codes.map decimal)) comp lower upper
      result).resBuffLen = len) (hmax : len ≤ 129) (hr : r < len) :
    p * len < 2 ^ 31 ∧ ((p * len + r : Nat) : Int) < (u.scan ((c.initializePageAlignedPartitions fresh).compressColumn
      (codes.map decimal)) comp lower upper result).bitVectorSize := by
  have hnum := numOfPartitions_compressColumn hnil fresh (codes.map decimal)
  have hpages : (c.numOfPagesRequired pageSize).toNat ≤ 2 ^ 16 + 1 := by
    have := numOfPagesRequired_le c
    omega
  have hp : p < (c.numOfPagesRequired pageSize).toNat := by
    rw [← hnum]
    exact (List.getElem?_eq_some_iff.mp hq).1
  generalize (c.numOfPagesRequired pageSize).toNat = n at hnum hpages hp
  have hmul : len * n ≤ 129 * (2 ^ 16 + 1) := Nat.mul_le_mul hmax hpages
  have hin : p * len + r < len * n := by
    calc p * len + r < p * len + len := by omega
      _ = (p + 1) * len := (Nat.succ_mul p len).symm
      _ ≤ n * len := Nat.mul_le_mul_right len hp
      _ = len * n := Nat.mul_comm n len
  have hsize : (u.scan ((c.initializePageAlignedPartitions fresh).compressColumn (codes.map decimal)) comp lower
      upper result).bitVectorSize = ((len * n : Nat) : Int) := by
    show int32 ((u.scan _ comp lower upper result).resBuffLen * (((c.initializePageAlignedPartitions fresh).compressColumn
      (codes.map decimal)).numOfPartitions : Nat)) = _
    rw [hlen, hnum, int32, ← Int.natCast_mul, Int.bmod_eq_of_le (by omega) (by omega)]
  rw [hsize]
  omega

end Partition

/-- Bit `r % 64` of word `r / 64` of a slice, traced back to the result line. -/
theorem getLsbD_copied {u : ScanUnit} {scanColumn : BitVec 2} {filterPred : BitVec 8} {totalCls r : Nat}
    {page old : Nat → Word} (hline : r / (8 * u.codesPerWord) < totalCls) :
    (writeBuffer scanColumn filterPred totalCls page old
        (r / 64 / u.resWords * (clSize / wordSize) + r / 64 % u.resWords)).getLsbD (r % 64) =
      (scanLine scanColumn filterPred (cacheLine page (r / (8 * u.codesPerWord)))).getLsbD
        (r % (8 * u.codesPerWord)) := by
  have hj : r / 64 / u.resWords = r / (8 * u.codesPerWord) := by rw [Nat.div_div_eq_div_mul, u.resWords_mul]
  have hk : r / 64 % u.resWords = r % (8 * u.codesPerWord) / 64 := by
    rw [← u.resWords_mul, Nat.mod_mul_right_div_self]
  have hbit : r % (8 * u.codesPerWord) % 64 = r % 64 := by
    rw [← u.resWords_mul]
    exact Nat.mod_mul_right_mod r 64 u.resWords
  have hlt : r % (8 * u.codesPerWord) < 512 := by
    have hle := u.resWords_le
    have := Nat.mod_lt r (y := 8 * u.codesPerWord) (by have := u.codesPerWord_pos; omega)
    have := u.resWords_mul
    omega
  have hidx : r / 64 / u.resWords * (clSize / wordSize) + r / 64 % u.resWords =
      8 * (r / (8 * u.codesPerWord)) + r % (8 * u.codesPerWord) / 64 := by
    rw [hj, hk, Nat.mul_comm]
    rfl
  rw [hidx, ← hbit]
  exact getLsbD_writeBuffer hline hlt

/-- Row `r` of partition `p` is bit `r % 64` of word `p * resBuffLen + r / 64`, which is its bit of the result line. -/
theorem bitResult_index {u : ScanUnit} {c : Column} {fresh : Nat → Nat → Word} {codes : List Nat}
    (hsize : c.colSize = codes.length) (hbits : c.numOfBits = u.bits) (hnil : c.partitions = [])
    {comp : ComparisonType} {lower upper : BitVec 32} {result : Nat → Word} {scan : ScanApi}
    (hscan : u.scan ((c.initializePageAlignedPartitions fresh).compressColumn (codes.map decimal)) comp lower upper
      result = scan) {p r : Nat} {q : Partition}
    (hq : ((c.initializePageAlignedPartitions fresh).compressColumn (codes.map decimal)).partitions[p]? = some q)
    (hr : r < 512 * u.codesPerWord) (hrow : p * (512 * u.codesPerWord) + r < codes.length) (old : Nat → Word) :
    ((scan.scanPartition q old p).bitResult (p * scan.resBuffLen.toNat + r / 64)).getLsbD (r % 64) =
      (scanLine scan.jobType.scanColumn scan.predRegister (cacheLine q.compressed (r / (8 * u.codesPerWord)))).getLsbD
        (r % (8 * u.codesPerWord)) := by
  have hcolbits : ((c.initializePageAlignedPartitions fresh).compressColumn (codes.map decimal)).numOfBits = u.bits :=
    hbits
  have hcolsize : ((c.initializePageAlignedPartitions fresh).compressColumn (codes.map decimal)).colSize =
    codes.length := hsize
  have hv := u.codesPerWord_pos
  have hwords := u.resWords_mul
  have hwordsle := u.resWords_le
  have hdiv : r / (8 * u.codesPerWord) < 64 := by
    apply Nat.div_lt_of_lt_mul
    omega
  have hmul : 8 * u.codesPerWord * (r / (8 * u.codesPerWord)) ≤ r := Nat.mul_div_le r _
  have hline : r / (8 * u.codesPerWord) < scan.totalCls.toNat := by
    rw [← hscan]
    exact (lt_totalCls_scan_iff hcolbits hcolsize _).mpr ⟨hdiv, by omega⟩
  obtain ⟨len, hlen, hmax, hword⟩ : ∃ len : Nat, scan.resBuffLen = len ∧ len ≤ 129 ∧ r / 64 < len := by
    rw [← hscan]
    refine ⟨_, resBuffLen_scan hcolbits hcolsize, ?_, ?_⟩
    · split <;> omega
    · split <;> omega
  obtain ⟨hint, hin⟩ : p * len < 2 ^ 31 ∧ ((p * len + r / 64 : Nat) : Int) < scan.bitVectorSize := by
    rw [← hscan] at hlen ⊢
    exact lt_bitVectorSize hnil hq hlen hmax hword
  have hres : scan.resWordsPerCl = u.resWords := by
    rw [← hscan]
    exact resWordsPerCl_scan hcolbits
  -- the copy loop reaches the word
  have hkept : r / 64 < u.resWords * scan.totalCls.toNat := by
    rw [Nat.div_lt_iff_lt_mul (by decide)]
    have hnext : 8 * u.codesPerWord * (r / (8 * u.codesPerWord) + 1) ≤ 8 * u.codesPerWord * scan.totalCls.toNat :=
      Nat.mul_le_mul_left _ hline
    have hsplit := Nat.lt_mul_div_succ r (b := 8 * u.codesPerWord) (by omega)
    calc r < 8 * u.codesPerWord * scan.totalCls.toNat := hsplit.trans_le hnext
      _ = u.resWords * scan.totalCls.toNat * 64 := by rw [← hwords, Nat.mul_assoc, Nat.mul_comm]
  obtain ⟨s, hcopied, hcopy⟩ := copied_copyFPGAWriteBuffer
    (writeBuffer scan.jobType.scanColumn scan.predRegister scan.totalCls.toNat q.compressed old) scan.totalCls hlen
    hres u.resWords_pos hint
  rw [ScanApi.scanPartition, hcopy, hlen, Int.toNat_natCast, hcopied.copied _ hkept hin]
  exact getLsbD_copied hline

/-- The pipeline, for every row of every partition. -/
theorem bitResult_iff {u : ScanUnit} {c column : Column} {fresh : Nat → Nat → Word} {codes : List Nat}
    (hcodes : ∀ x ∈ codes, x < 2 ^ u.bits) (hsize : c.colSize = codes.length) (hbits : c.numOfBits = u.bits)
    (hnil : c.partitions = [])
    (hcolumn : (c.initializePageAlignedPartitions fresh).compressColumn (codes.map decimal) = column)
    {comp : ComparisonType} {lower upper : BitVec 32} {result : Nat → Word} {scan : ScanApi}
    (hl : lower.toNat < 2 ^ u.bits) (hu : u = .loDiscount → upper.toNat < 2 ^ u.bits)
    (hscan : u.scan column comp lower upper result = scan) {p r : Nat} {q : Partition}
    (hq : column.partitions[p]? = some q) (hr : r < q.partSize.toNat) (hrow : p * q.partSize.toNat + r < codes.length)
    (old : Nat → Word) :
    ((scan.scanPartition q old p).bitResult (p * scan.resBuffLen.toNat + r / 64)).getLsbD (r % 64) = true ↔
      u.Selects lower.toNat upper.toNat codes[p * q.partSize.toNat + r] := by
  subst hcolumn
  have hpart : q.partSize.toNat = 512 * u.codesPerWord := by
    rw [partSize_page u.bits_pos u.bits_mul_codesPerWord hbits hnil hq, Int.toNat_natCast]
  simp only [hpart] at hr hrow ⊢
  have hlanes : 0 < 8 * u.codesPerWord := Nat.mul_pos (by decide) u.codesPerWord_pos
  have hjob : scan.jobType = u.jobType := by
    rw [← hscan]
    rfl
  have hlower : scan.lowerParam = lower := by
    rw [← hscan]
    rfl
  have hupper : scan.upperParam = upper := by
    rw [← hscan]
    rfl
  rw [bitResult_index hsize hbits hnil hscan hq hr hrow,
    scanLine_iff u scan hjob (hlower ▸ hl) (hupper ▸ hu) _ (Nat.mod_lt r hlanes),
    lane_cacheLine_page hbits hnil hq hcodes hr hrow, hlower, hupper]

/-- Two `d_year` rows with the codes 3 and 5, scanned for 3: the first one is selected. -/
theorem bitResult_iff_two_rows :
    let c : Column := { Column.new 2 with numOfBits := 4 }
    let column := (c.initializePageAlignedPartitions fun _ _ => 0).compressColumn ([3, 5].map decimal)
    let scan := ScanUnit.dYear.scan column .eq 3 (-1) fun _ => 0
    ∃ q, column.partitions[0]? = some q ∧
      ((scan.scanPartition q (fun _ => 0) 0).bitResult (0 * scan.resBuffLen.toNat + 0 / 64)).getLsbD (0 % 64) =
        true := by
  intro c column scan
  obtain ⟨q, hq⟩ : ∃ q, column.partitions[0]? = some q := ⟨_, rfl⟩
  have hbits : c.numOfBits = ScanUnit.dYear.bits := rfl
  have hpart : q.partSize.toNat = 512 * 16 := by
    rw [partSize_page ScanUnit.dYear.bits_pos ScanUnit.dYear.bits_mul_codesPerWord hbits rfl hq]
    rfl
  have hrow : 0 * q.partSize.toNat + 0 < [3, 5].length := by
    rw [Nat.zero_mul]
    decide
  have hr : 0 < q.partSize.toNat := by
    rw [hpart]
    decide
  have hcolumn : (c.initializePageAlignedPartitions fun _ _ => 0).compressColumn ([3, 5].map decimal) = column := rfl
  have hscan : ScanUnit.dYear.scan column .eq 3 (-1) (fun _ => 0) = scan := rfl
  refine ⟨q, hq, (bitResult_iff (by decide) rfl hbits rfl hcolumn (by decide) (by decide) hscan hq hr hrow _).mpr ?_⟩
  simp only [Nat.zero_mul]
  rfl

end SdbFpga.Api
