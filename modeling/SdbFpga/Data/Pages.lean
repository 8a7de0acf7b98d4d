import SdbFpga.Data.Column

/-!
# Pages: the partition of a row

`NumOfPagesRequired` turns bits into bytes by one truncating division and bytes into pages by another, in `int`.

* `FitsInt` : no wrapping, `numOfPagesRequired_eq` : the pages of a product that fits;
* `Partition.HasRow`, `hasRow_pagePartition` : the rows of a page;
* `Column.PagesCover`, `pagesCover_iff` : when every row has exactly one page.
-/

namespace SdbFpga.Data

/-- The value is an `int`. -/
def FitsInt (x : Int) : Prop := -2 ^ 31 ≤ x ∧ x < 2 ^ 31

theorem FitsInt.int32_eq {x : Int} (h : FitsInt x) : int32 x = x := by
  unfold FitsInt at h
  exact Int.bmod_eq_of_le (by omega) (by omega)

/-- `row` is one of the rows `start .. end - 1`. -/
def Partition.HasRow (p : Partition) (row : Nat) : Prop := p.start.toNat ≤ row ∧ row < p.stop.toNat

/-- No product or sum on the way to the partitions overflows, and the partitions, none of which is superfluous, hold
every row of the column exactly once. -/
structure Column.PagesCover (c : Column) : Prop where
  product : FitsInt (c.numOfBits * c.colSize)
  bounds : ∀ partId : Nat, partId < c.numOfPartitions →
    FitsInt (partId * c.partitionSize) ∧ FitsInt (partId * c.partitionSize + c.partitionSize)
  needed : 0 < c.colSize → (c.numOfPartitions - 1) * c.partitionSize < c.colSize
  enough : 0 < c.colSize → c.colSize ≤ c.numOfPartitions * c.partitionSize
  one : ∀ row : Nat, row < c.colSize → ∃! i : Nat, ∃ p : Partition, c.partitions[i]? = some p ∧ p.HasRow row

section Pages
variable {c : Column}

/-- The pages of a product that does not overflow. -/
theorem numOfPagesRequired_eq (h0 : 0 ≤ c.numOfBits * c.colSize) (hfits : FitsInt (c.numOfBits * c.colSize)) :
    c.numOfPagesRequired pageSize = (c.numOfBits * c.colSize / 8 + 4095) / 4096 := by
  have hpage : ((pageSize : Nat) : Int) = 4096 := rfl
  unfold Column.numOfPagesRequired
  simp only
  rw [hfits.int32_eq, hpage]
  generalize c.numOfBits * c.colSize = bits at h0
  rw [Int.tdiv_eq_ediv_of_nonneg h0, Int.tdiv_eq_ediv_of_nonneg (by omega), Int.tmod_eq_emod_of_nonneg (by omega)]
  split <;> omega

/-- The rows of page `partId`. -/
theorem hasRow_pagePartition {fresh : Nat → Nat → Word} {partId : Nat} (hpos : 0 ≤ c.partitionSize)
    (hstart : FitsInt (partId * c.partitionSize)) (hstop : FitsInt (partId * c.partitionSize + c.partitionSize))
    (row : Nat) : (c.pagePartition fresh partId).HasRow row ↔
      partId * c.partitionSize ≤ row ∧ row < partId * c.partitionSize + c.partitionSize := by
  have h0 : 0 ≤ partId * c.partitionSize := Int.mul_nonneg (Int.natCast_nonneg _) hpos
  have htoNat : ∀ x : Int, 0 ≤ x → FitsInt x → ((BitVec.ofInt 32 x).toNat : Int) = x := by
    intro x hx hfits
    unfold FitsInt at hfits
    rw [BitVec.toNat_ofInt, Int.toNat_of_nonneg (Int.emod_nonneg _ (by decide)), Int.emod_eq_of_lt hx (by omega)]
  show (BitVec.ofInt 32 (int32 (partId * c.partitionSize))).toNat ≤ row ∧
    row < (BitVec.ofInt 32 (int32 (int32 (partId * c.partitionSize) + c.partitionSize))).toNat ↔ _
  rw [hstart.int32_eq, hstop.int32_eq, ← Int.ofNat_le, ← Int.ofNat_lt, htoNat _ h0 hstart,
    htoNat _ (by omega) hstop]

/-- The widths that divide a page into equal parts. -/
theorem partitionSize_cases (hbits : c.numOfBits ∈ [4, 8, 16, 32]) :
    c.numOfBits = 4 ∧ c.partitionSize = 8192 ∨ c.numOfBits = 8 ∧ c.partitionSize = 4096 ∨
      c.numOfBits = 16 ∧ c.partitionSize = 2048 ∨ c.numOfBits = 32 ∧ c.partitionSize = 1024 := by
  unfold Column.partitionSize
  simp only [List.mem_cons, List.not_mem_nil, or_false] at hbits
  rcases hbits with h | h | h | h <;> rw [h] <;> decide

theorem getElem?_pages (hnil : c.partitions = []) (fresh : Nat → Nat → Word) (i : Nat) (p : Partition) :
    (c.initializePageAlignedPartitions fresh).partitions[i]? = some p ↔
      i < (c.numOfPagesRequired pageSize).toNat ∧ c.pagePartition fresh i = p := by
  have hparts : (c.initializePageAlignedPartitions fresh).partitions =
      (List.range (c.numOfPagesRequired pageSize).toNat).map (c.pagePartition fresh) := by
    rw [Column.initializePageAlignedPartitions, hnil]
    rfl
  rw [hparts, List.getElem?_eq_some_iff]
  constructor
  · rintro ⟨hi, he⟩
    rw [List.getElem_map, List.getElem_range] at he
    rw [List.length_map, List.length_range] at hi
    exact ⟨hi, he⟩
  · rintro ⟨hi, he⟩
    refine ⟨by simpa using hi, ?_⟩
    rw [List.getElem_map, List.getElem_range, he]

theorem numOfPartitions_pages (hnil : c.partitions = []) (fresh : Nat → Nat → Word) :
    (c.initializePageAlignedPartitions fresh).numOfPartitions = (c.numOfPagesRequired pageSize).toNat := by
  unfold Column.numOfPartitions Column.initializePageAlignedPartitions
  rw [hnil]
  simp

/-- A number of bits that is an `int` needs pages that are all started and hold all rows, and whose bounds are `int`. -/
theorem pages_bounds (hbits : c.numOfBits ∈ [4, 8, 16, 32]) (h0 : 0 ≤ c.colSize)
    (hlt : c.numOfBits * c.colSize < 2 ^ 31) (hmod : ¬ (c.numOfBits = 4 ∧ c.colSize % 8192 = 1)) {m : Nat}
    (hm : (m : Int) = (c.numOfBits * c.colSize / 8 + 4095) / 4096) :
    (0 < c.colSize → (m - 1) * c.partitionSize < c.colSize) ∧ c.colSize ≤ m * c.partitionSize ∧
      ∀ partId : Nat, partId < m →
        FitsInt (partId * c.partitionSize) ∧ FitsInt (partId * c.partitionSize + c.partitionSize) := by
  unfold FitsInt
  rcases partitionSize_cases hbits with ⟨hb, hs⟩ | ⟨hb, hs⟩ | ⟨hb, hs⟩ | ⟨hb, hs⟩
  all_goals
    rw [hb] at hm hlt hmod
    rw [hs]
    refine ⟨?_, ?_, ?_⟩ <;> omega

variable (hnil : c.partitions = []) (fresh : Nat → Nat → Word) (hbits : c.numOfBits ∈ [4, 8, 16, 32])
include hnil hbits

/-- Pages whose rows are bounded as they should be hold each row once. -/
theorem existsUnique_page {m : Nat} (hm : (c.numOfPagesRequired pageSize).toNat = m)
    (hbounds : ∀ partId : Nat, partId < m →
      FitsInt (partId * c.partitionSize) ∧ FitsInt (partId * c.partitionSize + c.partitionSize))
    (henough : c.colSize ≤ m * c.partitionSize) (row : Nat) (hrow : row < c.colSize) :
    ∃! i : Nat, ∃ p : Partition, (c.initializePageAlignedPartitions fresh).partitions[i]? = some p ∧ p.HasRow row := by
  have hpos : 0 < c.partitionSize := by
    have := partitionSize_cases hbits
    omega
  have hdiv := Int.mul_ediv_add_emod row c.partitionSize
  have hmod := Int.emod_lt_of_pos (row : Int) hpos
  have hmod0 := Int.emod_nonneg (row : Int) hpos.ne'
  obtain ⟨i, hi⟩ : ∃ i : Nat, (row : Int) / c.partitionSize = i :=
    Int.eq_ofNat_of_zero_le (Int.ediv_nonneg (Int.natCast_nonneg _) hpos.le)
  have him : i < m := by
    have hlt : (row : Int) / c.partitionSize < m := Int.ediv_lt_of_lt_mul hpos (hrow.trans_le henough)
    omega
  rw [hi, Int.mul_comm] at hdiv
  have hmem : ∀ k : Nat,
      (∃ p : Partition, (c.initializePageAlignedPartitions fresh).partitions[k]? = some p ∧ p.HasRow row) ↔
      k < m ∧ k * c.partitionSize ≤ row ∧ row < k * c.partitionSize + c.partitionSize := by
    intro k
    constructor
    · rintro ⟨p, hp, hp'⟩
      rw [getElem?_pages hnil, hm] at hp
      obtain ⟨hk, rfl⟩ := hp
      exact ⟨hk, (hasRow_pagePartition hpos.le (hbounds k hk).1 (hbounds k hk).2 row).mp hp'⟩
    · rintro ⟨hk, hrows⟩
      refine ⟨c.pagePartition fresh k, ?_, ?_⟩
      · rw [getElem?_pages hnil, hm]
        exact ⟨hk, rfl⟩
      · exact (hasRow_pagePartition hpos.le (hbounds k hk).1 (hbounds k hk).2 row).mpr hrows
  refine ⟨i, (hmem i).mpr ⟨him, by omega, by omega⟩, ?_⟩
  intro k hk
  obtain ⟨_, hk1, hk2⟩ := (hmem k).mp hk
  have hle : (k : Int) ≤ row / c.partitionSize := (Int.le_ediv_iff_mul_le hpos).mpr hk1
  have hlt : (row : Int) / c.partitionSize < k + 1 := by
    apply Int.ediv_lt_of_lt_mul hpos
    rw [Int.add_mul, Int.one_mul]
    exact hk2
  omega

/-- The rows have their pages exactly if the number of bits is an `int` and, for codes of half a byte, the rows are not
one more than a number of pages holds. -/
theorem pagesCover_iff (h0 : 0 ≤ c.colSize) : (c.initializePageAlignedPartitions fresh).PagesCover ↔
    c.numOfBits * c.colSize < 2 ^ 31 ∧ ¬ (c.numOfBits = 4 ∧ c.colSize % 8192 = 1) := by
  have hcases := partitionSize_cases hbits
  have hprod0 : 0 ≤ c.numOfBits * c.colSize := Int.mul_nonneg (by omega) h0
  have hnum := numOfPartitions_pages hnil fresh
  have hparts : ((c.initializePageAlignedPartitions fresh).numOfPartitions : Int) =
      (c.numOfPagesRequired pageSize).toNat := congrArg _ hnum
  constructor
  · intro h
    have hfits : FitsInt (c.numOfBits * c.colSize) := h.product
    have hpages := numOfPagesRequired_eq hprod0 hfits
    have henough : 0 < c.colSize → c.colSize ≤ (c.numOfPagesRequired pageSize).toNat * c.partitionSize := by
      rw [← hparts]
      exact h.enough
    refine ⟨hfits.2, ?_⟩
    rintro ⟨hb, hmod⟩
    rw [hpages, hb] at henough
    rcases hcases with ⟨_, hs⟩ | ⟨hb', _⟩ | ⟨hb', _⟩ | ⟨hb', _⟩
    · rw [hs] at henough
      omega
    all_goals omega
  · rintro ⟨hlt, hmod⟩
    have hfits : FitsInt (c.numOfBits * c.colSize) := ⟨by omega, hlt⟩
    have hpages := numOfPagesRequired_eq hprod0 hfits
    obtain ⟨m, hm⟩ : ∃ m, (c.numOfPagesRequired pageSize).toNat = m := ⟨_, rfl⟩
    have hmpages : (m : Int) = (c.numOfBits * c.colSize / 8 + 4095) / 4096 := by omega
    obtain ⟨hneeded, henough, hbounds⟩ := pages_bounds hbits h0 hlt hmod hmpages
    refine ⟨hfits, ?_, ?_, ?_, ?_⟩
    · rw [hnum, hm]
      exact hbounds
    · rw [hparts, hm]
      exact hneeded
    · rw [hparts, hm]
      exact fun _ => henough
    · exact existsUnique_page hnil fresh hbits hm hbounds henough

end Pages

/-- The dates of the benchmark. -/
theorem pagesCover_dates :
    (({ Column.new 2556 with numOfBits := 16 } : Column).initializePageAlignedPartitions fun _ _ => 0).PagesCover :=
  (pagesCover_iff rfl _ (by decide) (by decide)).mpr (by decide)

/-- A row of half a byte has no page, and the bits of 600 million 16-bit codes are no `int`. -/
theorem rows_without_page :
    ¬ (({ Column.new 1 with numOfBits := 4 } : Column).initializePageAlignedPartitions fun _ _ => 0).PagesCover ∧
      ¬ (({ Column.new 600000000 with numOfBits := 16 } : Column).initializePageAlignedPartitions
        fun _ _ => 0).PagesCover := by
  constructor
  · intro h
    have henough := h.enough (by decide)
    rw [numOfPartitions_pages rfl] at henough
    exact absurd henough (by decide)
  · intro h
    exact absurd h.product.2 (by decide)

end SdbFpga.Data
