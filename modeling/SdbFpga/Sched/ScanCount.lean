import SdbFpga.Lib.Simd
import SdbFpga.Sched.WorkItems

/-!
# The reported count

`countBitResults` counts the ones of all slices of the bit vector: the bits of the rows, of the lanes behind the last
row and, where the last slice is one word longer than the lines that were scanned, of a word that was never written.

* `CopiedAll`, `copiedAll_copyLoop` : what the slices hold after the last loop of `scanAtATime`;
* `ScanUnit.countedRows` : the bits that are counted, `slot_spec` : which page and lane one of them is;
* `bitAt_copyLoop`, `bitAt_spare` : what the bit says;
* `CountsRows`, `CountsExactly`, `countsRows_iff` : when the count is the number of selected rows.
-/

namespace SdbFpga.Sched
open Bits Text Data Fpga Api

/-- `DataBlock`: the words of partition `p`. -/
def dataBlock (column : Column) (p : Int) : Nat → Word :=
  (column.partitions[p.toNat]?).elim (fun _ => 0) Partition.compressed

theorem dataBlock_eq {column : Column} {p : Nat} {q : Partition} (hq : column.partitions[p]? = some q) :
    dataBlock column p = q.compressed := by
  rw [dataBlock, Int.toNat_natCast, hq]
  rfl

/-- Buffers can be filled. -/
theorem filledBy_writeBuffer (scan : ScanApi) (readBuffers : Int → Nat → Word) (old : Nat → Word) (p : Int) :
    FilledBy scan readBuffers (fun p => writeBuffer scan.jobType.scanColumn scan.predRegister scan.totalCls.toNat
      (readBuffers p) old) p :=
  fun _ _ hi ht => writeBuffer_line hi ht

/-- A filled buffer, as a function of the page. -/
theorem FilledBy.eq_writeBuffer {scan : ScanApi} {readBuffers writeBuffers : Int → Nat → Word} {p : Int}
    (h : FilledBy scan readBuffers writeBuffers p) (old : Nat → Word) {i : Nat} (hi : i / 8 < scan.totalCls.toNat) :
    writeBuffers p i = writeBuffer scan.jobType.scanColumn scan.predRegister scan.totalCls.toNat (readBuffers p) old i := by
  have hword := h (i / 8) (i % 8) hi (Nat.mod_lt i (by decide))
  rw [Nat.div_add_mod] at hword
  rw [hword, writeBuffer, if_pos hi]

/-! ## The slices after the copy -/

/-- After the buffers `0 .. k-1` were copied: a slice holds the result words of its lines, as far as there are, and
behind them what it held before. -/
structure CopiedAll (scan : ScanApi) (len m : Nat) (writeBuffers : Int → Nat → Word) (k : Nat) (j : JobWrapper) :
    Prop where
  frame : j = { scan.toJobWrapper with bitResult := j.bitResult }
  copied : ∀ p < k, ∀ i < len, i < m * scan.totalCls.toNat →
    j.bitResult (p * len + i) = writeBuffers p (i / m * (clSize / wordSize) + i % m)
  rest : ∀ p i, i < len → m * scan.totalCls.toNat ≤ i → j.bitResult (p * len + i) = scan.bitResult (p * len + i)

section Copy
variable {scan : ScanApi} {len m n : Nat} (writeBuffers : Int → Nat → Word) (hlen : scan.resBuffLen = len)
  (hm : scan.resWordsPerCl = m) (hpos : 0 < m)
  (hsize : ∀ p < n, ∀ i < len, ((p * len + i : Nat) : Int) < scan.bitVectorSize) (hint : ∀ p < n, p * len < 2 ^ 31)
include hlen hm hpos hsize hint

theorem copiedAll_foldl (k : Nat) (hk : k ≤ n) : CopiedAll scan len m writeBuffers k ((List.range k).foldl
    (fun job (buffId : Nat) => job.copyFPGAWriteBuffer (writeBuffers buffId) buffId scan.totalCls)
    scan.toJobWrapper) := by
  induction k with
  | zero =>
    refine ⟨rfl, ?_, fun _ _ _ _ => rfl⟩
    intro p hp
    cases hp
  | succ k ih =>
    specialize ih (by omega)
    rw [List.range_succ, List.foldl_append, List.foldl_cons, List.foldl_nil]
    generalize (List.range k).foldl _ scan.toJobWrapper = j at ih
    have hjlen : j.resBuffLen = len := by
      rw [ih.frame]
      exact hlen
    have hjm : j.resWordsPerCl = m := by
      rw [ih.frame]
      exact hm
    have hjsize : j.bitVectorSize = scan.bitVectorSize := by rw [ih.frame]
    obtain ⟨s, hs, hcopy⟩ := copied_copyFPGAWriteBuffer (writeBuffers k) scan.totalCls hjlen hjm hpos (hint k hk)
    rw [hcopy]
    -- the slices before `k` are below the words that are stored now
    have hbefore : ∀ {p i : Nat}, p < k → i < len → p * len + i < k * len := by
      intro p i hp hi
      have hle := Nat.mul_le_mul_right len (Nat.succ_le_of_lt hp)
      rw [Nat.succ_mul] at hle
      omega
    refine ⟨?_, ?_, ?_⟩
    · rw [hs.frame]
      exact congrArg (fun w : JobWrapper => { w with bitResult := s.1.bitResult }) ih.frame
    · intro p hp i hi hline
      rcases Nat.lt_or_eq_of_le (Nat.le_of_lt_succ hp) with hlt | rfl
      · rw [hs.rest _ (.inl (hbefore hlt hi))]
        exact ih.copied p hlt i hi hline
      · exact hs.copied i hline (by rw [hjsize]; exact hsize p hk i hi)
    · intro p i hi hline
      rw [hs.rest _ ?_]
      · exact ih.rest p i hi hline
      · rcases Nat.lt_or_ge p k with hlt | hge
        · exact .inl (hbefore hlt hi)
        · have hle := Nat.mul_le_mul_right len hge
          exact .inr (.inl (by omega))

/-- The whole loop. -/
theorem copiedAll_copyLoop (htotal : scan.totalPartitions = n) :
    CopiedAll scan len m writeBuffers n (copyLoop scan writeBuffers) := by
  unfold copyLoop
  rw [htotal, Int.toNat_natCast]
  exact copiedAll_foldl writeBuffers hlen hm hpos hsize hint n le_rfl

end Copy

/-! ## The bits that are counted -/

/-- The bits of all slices, for a column of `rows` rows in `pages` pages. -/
def countedRows (u : ScanUnit) (rows pages : Nat) : Nat :=
  pages * if rows < 512 * u.codesPerWord then 64 * (rows / 64 + 1) else 512 * u.codesPerWord

/-- The column of the codes, in pages whose memory held `fresh`. -/
def pagedColumn (c : Column) (codes : List Nat) (fresh : Nat → Nat → Word) : Column :=
  (c.initializePageAlignedPartitions fresh).compressColumn (codes.map decimal)

/-- Every page but the last one is full, and the last one holds a row. -/
theorem numOfPagesRequired_spec {u : ScanUnit} {c : Column} {n : Nat} (hsize : c.colSize = n)
    (hbits : c.numOfBits = u.bits) (hpos : 0 < (c.numOfPagesRequired pageSize).toNat) :
    ((c.numOfPagesRequired pageSize).toNat - 1) * (512 * u.codesPerWord) < n := by
  have hnonneg : 0 ≤ c.numOfBits * c.colSize := by
    rw [hbits, hsize, ← Int.natCast_mul]
    exact Int.natCast_nonneg _
  have hlt := numOfPagesRequired_pos hnonneg (by omega)
  have hpage : ((pageSize * 8 : Nat) : Int) = 32768 := rfl
  rw [hbits, hsize, hpage] at hlt
  generalize c.numOfPagesRequired pageSize = pages at hlt hpos
  cases u <;> simp only [ScanUnit.bits, ScanUnit.codesPerWord] at hlt ⊢ <;> omega

/-- In a short column with a page there is a bit behind the rows. -/
theorem lt_countedRows {u : ScanUnit} {rows pages : Nat} (hone : rows < 512 * u.codesPerWord) (hpages : 0 < pages) :
    rows < countedRows u rows pages := by
  have hle : 1 * (64 * (rows / 64 + 1)) ≤ countedRows u rows pages := by
    unfold countedRows
    rw [if_pos hone]
    exact Nat.mul_le_mul_right _ hpages
  omega

/-- The words of a slice. -/
def sliceWords (u : ScanUnit) (rows : Nat) : Nat :=
  if rows < 512 * u.codesPerWord then rows / 64 + 1 else 8 * u.codesPerWord

theorem countedRows_eq (u : ScanUnit) (rows pages : Nat) :
    countedRows u rows pages = 64 * (pages * sliceWords u rows) := by
  unfold countedRows sliceWords
  rw [Nat.mul_left_comm]
  congr 1
  split
  · rfl
  · rw [← Nat.mul_assoc]

theorem sliceWords_le (u : ScanUnit) (rows : Nat) : sliceWords u rows ≤ 129 := by
  have hv := u.codesPerWord_le
  unfold sliceWords
  split <;> omega

theorem sliceWords_pos (u : ScanUnit) (rows : Nat) : 0 < sliceWords u rows := by
  have hv := u.codesPerWord_pos
  unfold sliceWords
  split <;> omega

/-- Bit `R` of the slices belongs to lane `r` of page `p`. -/
theorem slot_spec {u : ScanUnit} {rows pages R : Nat}
    (hpages : 0 < pages → (pages - 1) * (512 * u.codesPerWord) < rows) (hR : R < countedRows u rows pages) :
    ∃ p r, p < pages ∧ r < 512 * u.codesPerWord ∧ p * (512 * u.codesPerWord) + r = R ∧
      p * (512 * u.codesPerWord) < rows ∧ r / 64 < sliceWords u rows ∧ R / 64 = p * sliceWords u rows + r / 64 ∧
      R % 64 = r % 64 := by
  have hpos : 0 < pages := by
    rcases Nat.eq_zero_or_pos pages with rfl | hpos
    · rw [countedRows, Nat.zero_mul] at hR
      cases hR
    · exact hpos
  specialize hpages hpos
  unfold countedRows at hR
  unfold sliceWords
  by_cases hone : rows < 512 * u.codesPerWord
  · -- one page
    rw [if_pos hone] at hR ⊢
    have hpage : pages = 1 := by
      by_contra hne
      have hle : 1 * (512 * u.codesPerWord) ≤ (pages - 1) * (512 * u.codesPerWord) :=
        Nat.mul_le_mul_right _ (by omega)
      omega
    subst hpage
    refine ⟨0, R, Nat.zero_lt_one, ?_, ?_, ?_, ?_, ?_, rfl⟩
    · cases u <;> simp only [ScanUnit.bits, ScanUnit.codesPerWord] at hone ⊢ <;> omega
    all_goals omega
  · rw [if_neg hone] at hR ⊢
    have hv := u.codesPerWord_pos
    have hdiv := Nat.div_add_mod R (512 * u.codesPerWord)
    have hmod := Nat.mod_lt R (y := 512 * u.codesPerWord) (by omega)
    have hlt : R / (512 * u.codesPerWord) < pages := Nat.div_lt_of_lt_mul (by rw [Nat.mul_comm]; exact hR)
    have hle : R / (512 * u.codesPerWord) * (512 * u.codesPerWord) ≤ (pages - 1) * (512 * u.codesPerWord) :=
      Nat.mul_le_mul_right _ (by omega)
    refine ⟨R / (512 * u.codesPerWord), R % (512 * u.codesPerWord), hlt, hmod, ?_, ?_, ?_, ?_, ?_⟩
    · rw [Nat.mul_comm]
      exact hdiv
    · omega
    all_goals
      generalize R / (512 * u.codesPerWord) = p at hdiv
      generalize R % (512 * u.codesPerWord) = r at hdiv hmod
      cases u <;> simp only [ScanUnit.bits, ScanUnit.codesPerWord] at hdiv hmod ⊢ <;> omega

/-! ## What a bit says -/

section Bits
variable {u : ScanUnit} {c : Column} {codes : List Nat} (hsize : c.colSize = codes.length)
  (hbits : c.numOfBits = u.bits) (hnil : c.partitions = []) {comp : ComparisonType} {lower upper : BitVec 32}
  (fresh : Nat → Nat → Word) (result : Nat → Word) (writeBuffers : Int → Nat → Word)
include hsize hbits hnil

variable (comp lower upper) in
theorem copiedAll_scan : CopiedAll (u.scan (pagedColumn c codes fresh) comp lower upper result)
    (sliceWords u codes.length) u.resWords writeBuffers (c.numOfPagesRequired pageSize).toNat
    (copyLoop (u.scan (pagedColumn c codes fresh) comp lower upper result) writeBuffers) := by
  have hlen : (u.scan (pagedColumn c codes fresh) comp lower upper result).resBuffLen = sliceWords u codes.length :=
    resBuffLen_scan (c := pagedColumn c codes fresh) hbits hsize
  have hnum : (pagedColumn c codes fresh).numOfPartitions = (c.numOfPagesRequired pageSize).toNat :=
    numOfPartitions_compressColumn hnil fresh _
  have hslice : ∀ p < (c.numOfPagesRequired pageSize).toNat, ∀ i < sliceWords u codes.length,
      p * sliceWords u codes.length < 2 ^ 31 ∧ ((p * sliceWords u codes.length + i : Nat) : Int) <
        (u.scan (pagedColumn c codes fresh) comp lower upper result).bitVectorSize := by
    intro p hp i hi
    rw [← hnum] at hp
    exact lt_bitVectorSize hnil (List.getElem?_eq_getElem hp) hlen (sliceWords_le u _) hi
  refine copiedAll_copyLoop writeBuffers hlen (resWordsPerCl_scan hbits) u.resWords_pos ?_ ?_ ?_
  · exact fun p hp i hi => (hslice p hp i hi).2
  · exact fun p hp => (hslice p hp 0 (sliceWords_pos u _)).1
  · rw [← hnum]
    rfl

omit hnil in
/-- The line of lane `r` is scanned exactly if it starts before the end of the column. -/
theorem word_copied_iff {r : Nat} (hr : r < 512 * u.codesPerWord) :
    r / 64 < u.resWords * (u.scan (pagedColumn c codes fresh) comp lower upper result).totalCls.toNat ↔
      8 * u.codesPerWord * (r / (8 * u.codesPerWord)) < codes.length := by
  have hline : r / (8 * u.codesPerWord) < 64 := Nat.div_lt_of_lt_mul (by omega)
  have hwords : r / 64 / u.resWords = r / (8 * u.codesPerWord) := by
    rw [Nat.div_div_eq_div_mul, u.resWords_mul]
  have hscanned : r / (8 * u.codesPerWord) <
      (u.scan (pagedColumn c codes fresh) comp lower upper result).totalCls.toNat ↔ _ :=
    lt_totalCls_scan_iff (c := pagedColumn c codes fresh) hbits hsize _
  rw [and_iff_right hline] at hscanned
  rw [← hscanned, ← hwords, Nat.div_lt_iff_lt_mul u.resWords_pos, Nat.mul_comm]

/-- A bit of a line that was scanned judges the code in its lane. -/
theorem bitAt_copyLoop (hl : lower.toNat < 2 ^ u.bits) (hu : u = .loDiscount → upper.toNat < 2 ^ u.bits)
    {p r R : Nat} (hp : p < (c.numOfPagesRequired pageSize).toNat) (hr : r < 512 * u.codesPerWord)
    (hword : r / 64 < sliceWords u codes.length) (hdiv : R / 64 = p * sliceWords u codes.length + r / 64)
    (hmod : R % 64 = r % 64) (hline : 8 * u.codesPerWord * (r / (8 * u.codesPerWord)) < codes.length)
    (hfilled : FilledBy (u.scan (pagedColumn c codes fresh) comp lower upper result)
      (dataBlock (pagedColumn c codes fresh)) writeBuffers p) :
    bitAt (copyLoop (u.scan (pagedColumn c codes fresh) comp lower upper result) writeBuffers).bitResult R = true ↔
      u.Selects lower.toNat upper.toNat
        (lane u.bits (r % u.codesPerWord) (dataBlock (pagedColumn c codes fresh) p (r / u.codesPerWord))).toNat := by
  have hcopied := (copiedAll_scan hsize hbits hnil comp lower upper fresh result writeBuffers).copied p hp (r / 64)
    hword ((word_copied_iff hsize hbits fresh result hr).mpr hline)
  have hscanned : r / (8 * u.codesPerWord) <
      (u.scan (pagedColumn c codes fresh) comp lower upper result).totalCls.toNat :=
    (lt_totalCls_scan_iff (c := pagedColumn c codes fresh) hbits hsize _).mpr
      ⟨Nat.div_lt_of_lt_mul (by omega), hline⟩
  have hlt : r % (8 * u.codesPerWord) < 8 * u.codesPerWord := Nat.mod_lt r (by have := u.codesPerWord_pos; omega)
  have hwords : r / 64 / u.resWords = r / (8 * u.codesPerWord) := by
    rw [Nat.div_div_eq_div_mul, u.resWords_mul]
  have hsource : (r / 64 / u.resWords * (clSize / wordSize) + r / 64 % u.resWords) / 8 <
      (u.scan (pagedColumn c codes fresh) comp lower upper result).totalCls.toNat := by
    have hle := u.resWords_le
    have hmodlt := Nat.mod_lt (r / 64) u.resWords_pos
    have hcl : clSize / wordSize = 8 := rfl
    have hidx : (r / 64 / u.resWords * 8 + r / 64 % u.resWords) / 8 = r / 64 / u.resWords := by omega
    rw [hcl, hidx, hwords]
    exact hscanned
  rw [bitAt, hdiv, hmod, hcopied, hfilled.eq_writeBuffer (writeBuffers p) hsource, getLsbD_copied hscanned,
    scanLine_iff u _ rfl hl hu _ hlt, lane_cacheLine_row]
  exact Iff.rfl

/-- A bit of a word that no line was copied to is what was there. -/
theorem bitAt_spare {p r R : Nat} (hr : r < 512 * u.codesPerWord) (hword : r / 64 < sliceWords u codes.length)
    (hdiv : R / 64 = p * sliceWords u codes.length + r / 64)
    (hline : codes.length ≤ 8 * u.codesPerWord * (r / (8 * u.codesPerWord))) :
    bitAt (copyLoop (u.scan (pagedColumn c codes fresh) comp lower upper result) writeBuffers).bitResult R =
      bitAt result R := by
  have hrest := (copiedAll_scan hsize hbits hnil comp lower upper fresh result writeBuffers).rest p (r / 64) hword (by
      rw [← Nat.not_lt, word_copied_iff hsize hbits fresh result hr, Nat.not_lt]
      exact hline)
  rw [bitAt, hdiv, hrest, bitAt, hdiv]
  rfl

/-- The total is the number of ones among the bits counted. -/
theorem countBitResults_copyLoop :
    (copyLoop (u.scan (pagedColumn c codes fresh) comp lower upper result) writeBuffers).countBitResults =
      Nat.count (fun R => bitAt (copyLoop (u.scan (pagedColumn c codes fresh) comp lower upper result)
        writeBuffers).bitResult R = true) (countedRows u codes.length (c.numOfPagesRequired pageSize).toNat) := by
  have hframe := (copiedAll_scan hsize hbits hnil comp lower upper fresh result writeBuffers).frame
  have hlen : (copyLoop (u.scan (pagedColumn c codes fresh) comp lower upper result) writeBuffers).resBuffLen =
      sliceWords u codes.length := by
    rw [hframe]
    exact resBuffLen_scan (c := pagedColumn c codes fresh) hbits hsize
  have hnum : (copyLoop (u.scan (pagedColumn c codes fresh) comp lower upper result)
      writeBuffers).numOfPartitions.toNat = (c.numOfPagesRequired pageSize).toNat := by
    rw [hframe, ← numOfPartitions_compressColumn hnil fresh (codes.map decimal)]
    rfl
  have hmax : (c.numOfPagesRequired pageSize).toNat * sliceWords u codes.length ≤ (2 ^ 16 + 1) * 129 := by
    have hpages := numOfPagesRequired_le c
    exact Nat.mul_le_mul (by omega) (sliceWords_le u _)
  rw [countBitResults_eq hlen (by rw [hnum]; omega), hnum, countedRows_eq]

end Bits

/-! ## When the count is right -/

/-- Whatever the pages and the bit vector held, the total is the number of rows whose code is selected. -/
def CountsRows (u : ScanUnit) (c : Column) (codes : List Nat) (comp : ComparisonType) (lower upper : BitVec 32) :
    Prop :=
  ∀ (fresh : Nat → Nat → Word) (result : Nat → Word) (writeBuffers : Int → Nat → Word),
    (∀ p : Nat, p < (pagedColumn c codes fresh).numOfPartitions →
      FilledBy (u.scan (pagedColumn c codes fresh) comp lower upper result) (dataBlock (pagedColumn c codes fresh))
        writeBuffers p) →
      (copyLoop (u.scan (pagedColumn c codes fresh) comp lower upper result) writeBuffers).countBitResults =
        (codes.countP fun code => decide (u.Selects lower.toNat upper.toNat code) : Nat)

/-- The conditions for it. -/
structure CountsExactly (u : ScanUnit) (lower upper : Nat) (codes : List Nat) (pages : Nat) : Prop where
  /-- No selected row is behind the pages. -/
  loaded : ∀ r, countedRows u codes.length pages ≤ r → ∀ h : r < codes.length, ¬ u.Selects lower upper codes[r]
  /-- The slice of a short column is not a word longer than its lines. -/
  spare : codes.length < 512 * u.codesPerWord → 0 < pages → ¬ 8 * u.codesPerWord ∣ codes.length
  /-- The zeros behind the last code of the last word are not selected. -/
  word : codes.length < countedRows u codes.length pages → ¬ u.codesPerWord ∣ codes.length → ¬ u.Selects lower upper 0
  /-- Nothing is selected in the words behind it. -/
  page : u.codesPerWord * ((codes.length - 1) / u.codesPerWord + 1) < countedRows u codes.length pages →
    ∀ code < 2 ^ u.bits, ¬ u.Selects lower upper code

/-- Where the last slice is not a word too long every bit is one of a line that was scanned. -/
theorem line_lt {u : ScanUnit} {rows r : Nat} (hr : r < 512 * u.codesPerWord) (hword : r / 64 < sliceWords u rows)
    (hshort : rows < 512 * u.codesPerWord → ¬ 8 * u.codesPerWord ∣ rows) :
    8 * u.codesPerWord * (r / (8 * u.codesPerWord)) < rows := by
  unfold sliceWords at hword
  by_cases hone : rows < 512 * u.codesPerWord
  · specialize hshort hone
    rw [if_pos hone] at hword
    cases u <;> simp only [ScanUnit.bits, ScanUnit.codesPerWord] at hshort ⊢ <;> omega
  · have hle := Nat.mul_div_le r (8 * u.codesPerWord)
    omega

/-- A word of one code. -/
theorem exists_word (u : ScanUnit) (code : Nat) :
    ∃ word : Word, ∀ k < u.codesPerWord, lane u.bits k word = BitVec.ofNat u.bits code :=
  match u with
  | .dYear => ⟨broadcast 4 16 (BitVec.ofNat 4 code), fun _ hk => lane_broadcast _ hk⟩
  | .loDiscount => ⟨broadcast 4 16 (BitVec.ofNat 4 code), fun _ hk => lane_broadcast _ hk⟩
  | .loQuantity => ⟨broadcast 8 8 (BitVec.ofNat 8 code), fun _ hk => lane_broadcast _ hk⟩

section CountsRows
variable {u : ScanUnit} {c : Column} {codes : List Nat} (hsize : c.colSize = codes.length)
  (hbits : c.numOfBits = u.bits) (hnil : c.partitions = []) {comp : ComparisonType} {lower upper : BitVec 32}
  (hl : lower.toNat < 2 ^ u.bits) (hu : u = .loDiscount → upper.toNat < 2 ^ u.bits)
  (hcodes : ∀ x ∈ codes, x < 2 ^ u.bits)
include hsize hbits hnil hl hu hcodes

section Bit
variable {fresh : Nat → Nat → Word} {result : Nat → Word}
  {writeBuffers : Int → Nat → Word} (hfilled : ∀ p : Nat, p < (pagedColumn c codes fresh).numOfPartitions →
    FilledBy (u.scan (pagedColumn c codes fresh) comp lower upper result) (dataBlock (pagedColumn c codes fresh))
      writeBuffers p)
include hfilled

/-- The bit of a row. -/
theorem bitAt_row {R : Nat} (hR : R < countedRows u codes.length (c.numOfPagesRequired pageSize).toNat)
    (hrow : R < codes.length) :
    bitAt (copyLoop (u.scan (pagedColumn c codes fresh) comp lower upper result) writeBuffers).bitResult R = true ↔
      u.Selects lower.toNat upper.toNat codes[R] := by
  obtain ⟨p, r, hp, hr, rfl, _, hword, hdiv, hmod⟩ := slot_spec (numOfPagesRequired_spec hsize hbits) hR
  have hnum : (pagedColumn c codes fresh).numOfPartitions = (c.numOfPagesRequired pageSize).toNat :=
    numOfPartitions_compressColumn hnil fresh _
  rw [← hnum] at hp
  have hq := List.getElem?_eq_getElem hp
  have hle := Nat.mul_div_le r (8 * u.codesPerWord)
  rw [bitAt_copyLoop hsize hbits hnil fresh result writeBuffers hl hu (by omega) hr hword hdiv hmod (by omega)
    (hfilled p hp), dataBlock_eq hq, ← lane_cacheLine_row, lane_cacheLine_page hbits hnil hq hcodes hr hrow]

/-- The bit of a lane behind the last row, in a line that was scanned. -/
theorem bitAt_behind {R : Nat} (hR : R < countedRows u codes.length (c.numOfPagesRequired pageSize).toNat)
    (hrow : codes.length ≤ R) (hshort : codes.length < 512 * u.codesPerWord → ¬ 8 * u.codesPerWord ∣ codes.length) :
    ∃ p i, bitAt (copyLoop (u.scan (pagedColumn c codes fresh) comp lower upper result) writeBuffers).bitResult R =
        true ↔ u.Selects lower.toNat upper.toNat (if R / u.codesPerWord = (codes.length - 1) / u.codesPerWord then 0
          else lane u.bits (R % u.codesPerWord) (fresh p i)).toNat := by
  obtain ⟨p, r, hp, hr, rfl, hpage, hword, hdiv, hmod⟩ := slot_spec (numOfPagesRequired_spec hsize hbits) hR
  have hnum : (pagedColumn c codes fresh).numOfPartitions = (c.numOfPagesRequired pageSize).toNat :=
    numOfPartitions_compressColumn hnil fresh _
  rw [← hnum] at hp
  have hq := List.getElem?_eq_getElem hp
  have hlane : (p * (512 * u.codesPerWord) + r) % u.codesPerWord = r % u.codesPerWord := by
    rw [← Nat.mul_assoc, Nat.mul_comm _ u.codesPerWord, Nat.mul_add_mod]
  refine ⟨p, r / u.codesPerWord, ?_⟩
  rw [bitAt_copyLoop hsize hbits hnil fresh result writeBuffers hl hu (by omega) hr hword hdiv hmod
    (line_lt hr hword hshort) (hfilled p hp), dataBlock_eq hq, lane_page_of_le u.bits_pos u.bits_mul_codesPerWord hbits
    hnil hq (fun x hx => ⟨hcodes x hx, (hcodes x hx).trans_le u.two_pow_bits_le⟩) hr hpage hrow, hlane]

/-- With no more bits than rows nothing selected may be behind the bits. -/
theorem count_iff_of_le (hle : countedRows u codes.length (c.numOfPagesRequired pageSize).toNat ≤ codes.length) :
    (copyLoop (u.scan (pagedColumn c codes fresh) comp lower upper result) writeBuffers).countBitResults =
        (codes.countP fun code => decide (u.Selects lower.toNat upper.toNat code) : Nat) ↔
      ∀ r, countedRows u codes.length (c.numOfPagesRequired pageSize).toNat ≤ r → ∀ h : r < codes.length,
        ¬ u.Selects lower.toNat upper.toNat codes[r] := by
  rw [countBitResults_copyLoop hsize hbits hnil, Int.ofNat_inj, count_eq_countP_iff_missed hle]
  · exact forall₃_congr fun r _ _ => decide_eq_false_iff_not
  · intro r h hr
    rw [Bool.eq_iff_iff, decide_eq_true_iff]
    exact bitAt_row hsize hbits hnil hl hu hcodes hfilled hr h

/-- With more bits than rows no bit behind the rows may be set. -/
theorem count_iff_of_lt (hlt : codes.length < countedRows u codes.length (c.numOfPagesRequired pageSize).toNat) :
    (copyLoop (u.scan (pagedColumn c codes fresh) comp lower upper result) writeBuffers).countBitResults =
        (codes.countP fun code => decide (u.Selects lower.toNat upper.toNat code) : Nat) ↔
      ∀ R, codes.length ≤ R → R < countedRows u codes.length (c.numOfPagesRequired pageSize).toNat →
        bitAt (copyLoop (u.scan (pagedColumn c codes fresh) comp lower upper result) writeBuffers).bitResult R =
          false := by
  rw [countBitResults_copyLoop hsize hbits hnil, Int.ofNat_inj, count_eq_countP_iff_behind hlt.le]
  intro r h
  rw [Bool.eq_iff_iff, decide_eq_true_iff]
  exact bitAt_row hsize hbits hnil hl hu hcodes hfilled (h.trans hlt) h

end Bit

/-- A count that is right for all memories is right whatever is chosen for the pages and the bit vector. -/
theorem CountsRows.behind (h : CountsRows u c codes comp lower upper)
    (hlt : codes.length < countedRows u codes.length (c.numOfPagesRequired pageSize).toNat)
    (fresh : Nat → Nat → Word) (result : Nat → Word) : ∃ writeBuffers,
      (∀ p : Nat, p < (pagedColumn c codes fresh).numOfPartitions →
        FilledBy (u.scan (pagedColumn c codes fresh) comp lower upper result) (dataBlock (pagedColumn c codes fresh))
          writeBuffers p) ∧
      ∀ R, codes.length ≤ R → R < countedRows u codes.length (c.numOfPagesRequired pageSize).toNat →
        bitAt (copyLoop (u.scan (pagedColumn c codes fresh) comp lower upper result) writeBuffers).bitResult R =
          false := by
  have hfilled := fun (p : Nat) (_ : p < (pagedColumn c codes fresh).numOfPartitions) =>
    filledBy_writeBuffer (u.scan (pagedColumn c codes fresh) comp lower upper result)
      (dataBlock (pagedColumn c codes fresh)) (fun _ => 0) p
  exact ⟨_, hfilled, (count_iff_of_lt hsize hbits hnil hl hu hcodes hfilled hlt).mp (h fresh result _ hfilled)⟩

/-- The spare word keeps what the new array held. -/
theorem CountsRows.spare (h : CountsRows u c codes comp lower upper) (hone : codes.length < 512 * u.codesPerWord)
    (hpages : 0 < (c.numOfPagesRequired pageSize).toNat) : ¬ 8 * u.codesPerWord ∣ codes.length := by
  intro hdvd
  have hlt := lt_countedRows hone hpages
  obtain ⟨writeBuffers, _, hbehind⟩ := h.behind hsize hbits hnil hl hu hcodes hlt (fun _ _ => 0)
    fun _ => BitVec.allOnes 64
  have hbit := hbehind codes.length le_rfl hlt
  obtain ⟨p, r, _, hr, hrow, hpage, hword, hdiv, _⟩ := slot_spec (numOfPagesRequired_spec hsize hbits) hlt
  have hfirst : p = 0 := by
    by_contra hne
    have hle : 1 * (512 * u.codesPerWord) ≤ p * (512 * u.codesPerWord) := Nat.mul_le_mul_right _ (by omega)
    omega
  have hr' : r = codes.length := by
    rw [hfirst] at hrow
    omega
  have hline : 8 * u.codesPerWord * (r / (8 * u.codesPerWord)) = codes.length := by
    rw [hr']
    exact Nat.mul_div_cancel' hdvd
  rw [bitAt_spare hsize hbits hnil _ _ writeBuffers hr hword hdiv hline.ge, bitAt, BitVec.getLsbD_allOnes] at hbit
  have hmod := Nat.mod_lt codes.length (show 0 < 64 by decide)
  rw [decide_eq_true hmod] at hbit
  cases hbit

theorem countsExactly_of_countsRows (h : CountsRows u c codes comp lower upper) :
    CountsExactly u lower.toNat upper.toNat codes (c.numOfPagesRequired pageSize).toNat := by
  have hv := u.codesPerWord_pos
  have hpages : ∀ {R : Nat}, R < countedRows u codes.length (c.numOfPagesRequired pageSize).toNat →
      0 < (c.numOfPagesRequired pageSize).toNat := by
    intro R hR
    obtain ⟨_, _, hp, _⟩ := slot_spec (numOfPagesRequired_spec hsize hbits) hR
    omega
  refine ⟨?_, h.spare hsize hbits hnil hl hu hcodes, ?_, ?_⟩
  · intro r hr hrow
    have hfilled := fun (p : Nat) (_ : p < (pagedColumn c codes fun _ _ => 0).numOfPartitions) =>
      filledBy_writeBuffer (u.scan (pagedColumn c codes fun _ _ => 0) comp lower upper fun _ => 0)
        (dataBlock (pagedColumn c codes fun _ _ => 0)) (fun _ => 0) p
    exact (count_iff_of_le hsize hbits hnil hl hu hcodes hfilled (by omega)).mp (h _ _ _ hfilled) r hr hrow
  · intro hlt hdvd hzero
    obtain ⟨writeBuffers, hfilled, hbehind⟩ := h.behind hsize hbits hnil hl hu hcodes hlt (fun _ _ => 0) fun _ => 0
    obtain ⟨p, i, hbit⟩ := bitAt_behind hsize hbits hnil hl hu hcodes hfilled hlt le_rfl
      fun _ hline => hdvd (Nat.dvd_trans (Nat.dvd_mul_left _ _) hline)
    have hword : codes.length / u.codesPerWord = (codes.length - 1) / u.codesPerWord := by
      have hpos : 0 < codes.length := Nat.pos_of_ne_zero fun hnone => hdvd (hnone ▸ Nat.dvd_zero _)
      obtain ⟨n, hn⟩ := Nat.exists_eq_succ_of_ne_zero hpos.ne'
      rw [hn] at hdvd ⊢
      exact Nat.succ_div_of_not_dvd hdvd
    rw [hbehind _ le_rfl hlt, if_pos hword] at hbit
    exact absurd (hbit.mpr hzero) (by decide)
  · intro hlt code hcode hselected
    have hdiv := Nat.div_add_mod (codes.length - 1) u.codesPerWord
    have hmod := Nat.mod_lt (codes.length - 1) hv
    have hnext : u.codesPerWord * ((codes.length - 1) / u.codesPerWord + 1) =
        u.codesPerWord * ((codes.length - 1) / u.codesPerWord) + u.codesPerWord := Nat.mul_succ _ _
    have hrow : codes.length ≤ u.codesPerWord * ((codes.length - 1) / u.codesPerWord + 1) := by omega
    obtain ⟨word, hword⟩ := exists_word u code
    obtain ⟨writeBuffers, hfilled, hbehind⟩ := h.behind hsize hbits hnil hl hu hcodes (hrow.trans_lt hlt)
      (fun _ _ => word) fun _ => 0
    obtain ⟨p, i, hbit⟩ := bitAt_behind hsize hbits hnil hl hu hcodes hfilled hlt hrow
      fun hone => h.spare hsize hbits hnil hl hu hcodes hone (hpages hlt)
    rw [hbehind _ hrow hlt, Nat.mul_div_cancel_left _ hv, if_neg (by omega), hword _ (Nat.mod_lt _ hv),
      BitVec.toNat_ofNat, Nat.mod_eq_of_lt hcode] at hbit
    exact absurd (hbit.mpr hselected) (by decide)

theorem countsRows_of_countsExactly
    (h : CountsExactly u lower.toNat upper.toNat codes (c.numOfPagesRequired pageSize).toNat) :
    CountsRows u c codes comp lower upper := by
  intro fresh result writeBuffers hfilled
  rcases Nat.lt_or_ge codes.length (countedRows u codes.length (c.numOfPagesRequired pageSize).toNat) with hlt | hge
  · rw [count_iff_of_lt hsize hbits hnil hl hu hcodes hfilled hlt]
    intro R hrow hR
    obtain ⟨_, _, hpages, _, _, hrows, _⟩ := slot_spec (numOfPagesRequired_spec hsize hbits) hR
    obtain ⟨p, i, hbit⟩ := bitAt_behind hsize hbits hnil hl hu hcodes hfilled hR hrow
      fun hone => h.spare hone (by omega)
    rw [← Bool.not_eq_true, hbit]
    have hv := u.codesPerWord_pos
    have hle : (codes.length - 1) / u.codesPerWord ≤ R / u.codesPerWord := Nat.div_le_div_right (by omega)
    split
    · next hword =>
      refine h.word hlt ?_
      intro hdvd
      obtain ⟨k, hk⟩ := hdvd
      have hkpos : 0 < k := by
        rcases Nat.eq_zero_or_pos k with rfl | hpos
        · rw [Nat.mul_zero] at hk
          omega
        · exact hpos
      have hlast : (codes.length - 1) / u.codesPerWord < k := Nat.div_lt_of_lt_mul (by omega)
      have hfirst : k ≤ R / u.codesPerWord := (Nat.le_div_iff_mul_le hv).mpr (by rw [Nat.mul_comm]; omega)
      omega
    · next hword =>
      refine h.page ?_ _ (BitVec.isLt _)
      have hnext : (codes.length - 1) / u.codesPerWord + 1 ≤ R / u.codesPerWord := by omega
      have hmul := (Nat.le_div_iff_mul_le hv).mp hnext
      rw [Nat.mul_comm]
      omega
  · rw [count_iff_of_le hsize hbits hnil hl hu hcodes hfilled hge]
    exact h.loaded

/-- The reported count is the number of selected rows, whatever fresh memory holds, exactly under these conditions. -/
theorem countsRows_iff : CountsRows u c codes comp lower upper ↔
    CountsExactly u lower.toNat upper.toNat codes (c.numOfPagesRequired pageSize).toNat :=
  ⟨countsExactly_of_countsRows hsize hbits hnil hl hu hcodes,
    countsRows_of_countsExactly hsize hbits hnil hl hu hcodes⟩

end CountsRows

/-- One full page of quantities. -/
theorem countsRows_iff_full_page : CountsRows .loQuantity { Column.new 4096 with numOfBits := 8 }
    (List.replicate 4096 24) .le 24 (-1) := by
  have hlen : (List.replicate 4096 24).length = 4096 := List.length_replicate
  refine (countsRows_iff (by rw [hlen]; rfl) rfl rfl (by decide) (by decide) ?_).mpr ?_
  · intro x hx
    rw [List.eq_of_mem_replicate hx]
    decide
  · have hslots : countedRows .loQuantity (List.replicate 4096 24).length
        (({ Column.new 4096 with numOfBits := 8 } : Column).numOfPagesRequired pageSize).toNat = 4096 := by
      rw [hlen]
      decide
    refine ⟨?_, ?_, ?_, ?_⟩
    · intro r hr h
      omega
    · intro hone
      exact absurd hone (by rw [hlen]; decide)
    · intro hlt
      omega
    · intro hlt
      rw [hslots, hlen] at hlt
      exact absurd hlt (by decide)

/-- One row: the zeros behind its code are counted as well. -/
theorem padding_counted : ¬ CountsRows .loQuantity { Column.new 1 with numOfBits := 8 } [0] .le 0 (-1) := by
  intro h
  have hexact := countsExactly_of_countsRows rfl rfl rfl (by decide) (by decide) (by decide) h
  exact hexact.word (by decide) (by decide) (by decide)

end SdbFpga.Sched
