import SdbFpga.Api.ScanApi
import SdbFpga.Data.Dictionary

/-!
# The scans of a query and their constants

`createColumnScan` looks the constants of the query up in the column's dictionary; a constant that is not there is
entered with code 0, the code of the smallest value.

* `yearScan`, `quantityScan`, `discountScan`, `createColumnScan`; `createColumnScan_column_iff` : when they leave the
  column alone;
* `yearScan_sound_iff` and so on : when the scan with an absent constant selects the right rows;
* `AbsentSound`, `not_absentSound` : the column is never left as it was.
-/

namespace SdbFpga.Sched
open Data Api

/-- `COLUMN_NAME`. -/
inductive ColumnName
  | loDiscount
  | loQuantity
  | loOrderdate
  | dYear
  deriving DecidableEq, Repr

/-- The enumerator's value. -/
def ColumnName.toInt : ColumnName → Int
  | .loDiscount => 0
  | .loQuantity => 1
  | .loOrderdate => 2
  | .dYear => 3

/-- The `D_YEAR` branch of `createColumnScan`: one year. -/
def yearScan (scanColumn : Column) (year : Line) (fresh : Nat → Word) : ScanApi × Column :=
  let dPred := scanColumn.compressValue year
  ((ScanApi.new .dYearScan dPred.2 .eq dPred.1).initializeScanOperator fresh, dPred.2)

/-- The `LO_QUANTITY` branch: an upper bound. -/
def quantityScan (scanColumn : Column) (quantity : Line) (fresh : Nat → Word) : ScanApi × Column :=
  let loQtyPred := scanColumn.compressValue quantity
  ((ScanApi.new .loQuantityScan loQtyPred.2 .le loQtyPred.1).initializeScanOperator fresh, loQtyPred.2)

/-- The `LO_DISCOUNT` branch: a range. -/
def discountScan (scanColumn : Column) (lower upper : Line) (fresh : Nat → Word) : ScanApi × Column :=
  let loDiscPred1 := scanColumn.compressValue lower
  let loDiscPred2 := loDiscPred1.2.compressValue upper
  (((ScanApi.new .loDiscScan loDiscPred2.2 .geLe loDiscPred1.1).setUpperParam loDiscPred2.1).initializeScanOperator
    fresh, loDiscPred2.2)

/-- `createColumnScan`; no scan is made of `lo_orderdate`. -/
def createColumnScan (colName : ColumnName) (scanColumn : Column) (fresh : Nat → Word) : Option ScanApi × Column :=
  match colName with
  | .loDiscount => (some (discountScan scanColumn "1".toList "3".toList fresh).1,
      (discountScan scanColumn "1".toList "3".toList fresh).2)
  | .loQuantity => (some (quantityScan scanColumn "24".toList fresh).1,
      (quantityScan scanColumn "24".toList fresh).2)
  | .dYear => (some (yearScan scanColumn "1993".toList fresh).1, (yearScan scanColumn "1993".toList fresh).2)
  | .loOrderdate => (none, scanColumn)

/-- The constants of the query for a column. -/
def ColumnName.constants : ColumnName → List Line
  | .loDiscount => ["1".toList, "3".toList]
  | .loQuantity => ["24".toList]
  | .dYear => ["1993".toList]
  | .loOrderdate => []

/-- The scan selects rows with code `code`, by the comparison of its unit. -/
def SelectsCode (u : ScanUnit) (s : ScanApi) (code : Nat) : Prop :=
  u.Selects s.lowerParam.toNat s.upperParam.toNat code

section Constants
variable {d : DataType} {base file : List Line} {c : Column} (hd : d ≠ .double) (h : Loaded d base file c)
include hd h

/-- A lookup leaves the column as it was exactly if the constant occurs in it. -/
theorem compressValue_eq_self_iff (v : Line) : (c.compressValue v).2 = c ↔ v ∈ base := by
  by_cases hv : v ∈ base
  · rw [h.compressValue_of_mem hd hv]
    exact iff_of_true rfl hv
  · rw [h.compressValue_of_not_mem hd hv]
    refine iff_of_false ?_ hv
    intro heq
    exact absurd (congrArg (fun c => c.dictionary.length) heq) (by simp)

/-- And so does setting up the scan of a column, with all of its constants. -/
theorem createColumnScan_column_iff (colName : ColumnName) (fresh : Nat → Word) :
    (createColumnScan colName c fresh).2 = c ↔ ∀ v ∈ colName.constants, v ∈ base := by
  match colName with
  | .loDiscount =>
    show ((c.compressValue "1".toList).2.compressValue "3".toList).2 = c ↔ _
    simp only [ColumnName.constants, List.forall_mem_cons, List.not_mem_nil, false_implies, implies_true, and_true]
    by_cases hone : "1".toList ∈ base
    · rw [(compressValue_eq_self_iff hd h _).mpr hone, compressValue_eq_self_iff hd h]
      exact (and_iff_right hone).symm
    · refine iff_of_false ?_ fun hboth => hone hboth.1
      rw [h.compressValue_of_not_mem hd hone]
      intro heq
      have hgrown : ∀ (c' : Column) (v : Line), c'.dictionary.length ≤ (c'.compressValue v).2.dictionary.length := by
        intro c' v
        unfold Column.compressValue
        split <;> simp
      have hle := hgrown { c with dictionary := c.dictionary ++ [("1".toList, 0)] } "3".toList
      rw [heq, List.length_append] at hle
      exact absurd hle (by simp)
  | .loQuantity =>
    show (c.compressValue "24".toList).2 = c ↔ ∀ v ∈ ["24".toList], v ∈ base
    rw [compressValue_eq_self_iff hd h, List.forall_mem_singleton]
  | .dYear =>
    show (c.compressValue "1993".toList).2 = c ↔ ∀ v ∈ ["1993".toList], v ∈ base
    rw [compressValue_eq_self_iff hd h, List.forall_mem_singleton]
  | .loOrderdate => simp [ColumnName.constants, createColumnScan]

end Constants

/-! ## Constants that are not in the column -/

/-- What a query expects of a constant `v` without a row. -/
structure AbsentSound (d : DataType) (base : List Line) (c : Column) (v : Line) : Prop where
  eq : ∀ fresh, ∀ x ∈ base, ¬ SelectsCode .dYear (yearScan c v fresh).1 (d.code base x).toNat
  le : ∀ fresh, ∀ x ∈ base,
    (SelectsCode .loQuantity (quantityScan c v fresh).1 (d.code base x).toNat ↔ d.cmp x v = .lt)
  lower : ∀ fresh w, ∀ x ∈ base, (SelectsCode .loDiscount (discountScan c v w fresh).1 (d.code base x).toNat ↔
    (d.cmp v x).isLE = true ∧ (d.cmp x w).isLE = true)
  upper : ∀ fresh w, ∀ x ∈ base, (SelectsCode .loDiscount (discountScan c w v fresh).1 (d.code base x).toNat ↔
    (d.cmp w x).isLE = true ∧ (d.cmp x v).isLE = true)
  dictionary : (c.compressValue v).2.dictionary = c.dictionary
  decodingTable : (c.compressValue v).2.decodingTable = c.decodingTable

section Absent
variable {d : DataType} {base file : List Line} {c : Column} {v : Line} (hd : d ≠ .double)
  (h : Loaded d base file c) (hv : ∀ x ∈ base, d.cmp x v ≠ .eq)
include hd hv

theorem not_mem_of_absent : v ∉ base := by
  intro hmem
  apply hv v hmem
  match d with
  | .int => exact Std.ReflOrd.compare_self
  | .string => exact Std.ReflOrd.compare_self

include h

/-- The lookup leaves an entry behind. -/
theorem not_absentSound : ¬ AbsentSound d base c v := by
  intro hs
  have hdict := hs.dictionary
  rw [h.compressValue_of_not_mem hd (not_mem_of_absent hd hv)] at hdict
  exact absurd (congrArg List.length hdict) (by simp)

/-! The code 0 that the scans are given. -/

theorem lowerParam_yearScan (fresh : Nat → Word) : (yearScan c v fresh).1.lowerParam = 0 := by
  show (c.compressValue v).1 = 0
  rw [h.compressValue_of_not_mem hd (not_mem_of_absent hd hv)]

theorem lowerParam_quantityScan (fresh : Nat → Word) : (quantityScan c v fresh).1.lowerParam = 0 := by
  show (c.compressValue v).1 = 0
  rw [h.compressValue_of_not_mem hd (not_mem_of_absent hd hv)]

theorem params_discountScan {w : Line} (hw : w ∈ base) (fresh : Nat → Word) :
    (discountScan c v w fresh).1.lowerParam = 0 ∧
      (discountScan c v w fresh).1.upperParam = d.code base w ∧
      (discountScan c w v fresh).1.lowerParam = d.code base w ∧
      (discountScan c w v fresh).1.upperParam = 0 := by
  have hnot := not_mem_of_absent hd hv
  have hlookup : ({ c with dictionary := c.dictionary ++ [(v, 0)] } : Column).dictionary.lookup w =
      some (d.code base w) := by
    rw [List.lookup_append, h.lookup_dictionary hd, if_pos hw]
    rfl
  refine ⟨?_, ?_, ?_, ?_⟩
  · show (c.compressValue v).1 = 0
    rw [h.compressValue_of_not_mem hd hnot]
  · show ((c.compressValue v).2.compressValue w).1 = _
    rw [h.compressValue_of_not_mem hd hnot, Column.compressValue, hlookup]
  · show (c.compressValue w).1 = _
    rw [h.compressValue_of_mem hd hw]
  · show ((c.compressValue w).2.compressValue v).1 = 0
    rw [h.compressValue_of_mem hd hw, h.compressValue_of_not_mem hd hnot]

/-- The scan for one year selects the rows of the smallest value, so it selects none only where there are no rows. -/
theorem yearScan_sound_iff : (∀ fresh, ∀ x ∈ base,
    ¬ SelectsCode .dYear (yearScan c v fresh).1 (d.code base x).toNat) ↔ base = [] := by
  constructor
  · intro hall
    by_contra hne
    obtain ⟨x, hx, hzero⟩ := exists_rank_eq_zero hd hne
    apply hall (fun _ => 0) x hx
    show (d.code base x).toNat = (yearScan c v _).1.lowerParam.toNat
    rw [lowerParam_yearScan hd h hv, DataType.code, hzero]
    rfl
  · rintro rfl _ x hx
    cases hx

variable (hn : d = .string → d.distinctValues base ≤ 2 ^ 32)
include hn

/-- The scan for an upper bound is right exactly if the rows below it are the rows of the smallest value. -/
theorem quantityScan_sound_iff : (∀ fresh, ∀ x ∈ base,
    (SelectsCode .loQuantity (quantityScan c v fresh).1 (d.code base x).toNat ↔ d.cmp x v = .lt)) ↔
      ∀ x ∈ base, (d.rank base x = 0 ↔ d.cmp x v = .lt) := by
  have hselect : ∀ fresh, ∀ x ∈ base, (SelectsCode .loQuantity (quantityScan c v fresh).1 (d.code base x).toNat ↔
      d.rank base x = 0) := by
    intro fresh x hx
    show (d.code base x).toNat ≤ (quantityScan c v fresh).1.lowerParam.toNat ↔ _
    rw [lowerParam_quantityScan hd h hv, toNat_code hd hn hx]
    exact Nat.le_zero
  constructor
  · intro hall x hx
    exact (hselect (fun _ => 0) x hx).symm.trans (hall _ x hx)
  · intro hall fresh x hx
    exact (hselect fresh x hx).trans (hall x hx)

/-- As a lower bound an absent constant is no bound. -/
theorem discountScan_lower_sound_iff {w : Line} (hw : w ∈ base) : (∀ fresh, ∀ x ∈ base,
    (SelectsCode .loDiscount (discountScan c v w fresh).1 (d.code base x).toNat ↔
      (d.cmp v x).isLE = true ∧ (d.cmp x w).isLE = true)) ↔
      ∀ x ∈ base, (d.cmp x w).isLE = true → (d.cmp v x).isLE = true := by
  have hselect : ∀ fresh, ∀ x ∈ base, (SelectsCode .loDiscount (discountScan c v w fresh).1 (d.code base x).toNat ↔
      (d.cmp x w).isLE = true) := by
    intro fresh x hx
    obtain ⟨hl, hu, _⟩ := params_discountScan hd h hv hw fresh
    show (discountScan c v w fresh).1.lowerParam.toNat ≤ (d.code base x).toNat ∧
      (d.code base x).toNat ≤ (discountScan c v w fresh).1.upperParam.toNat ↔ _
    rw [hl, hu, toNat_code hd hn hx, toNat_code hd hn hw, ← rank_le_rank_iff hd hx hw]
    exact and_iff_right (Nat.zero_le _)
  constructor
  · intro hall x hx hle
    exact ((hall (fun _ => 0) x hx).mp ((hselect _ x hx).mpr hle)).1
  · intro hall fresh x hx
    rw [hselect fresh x hx]
    exact ⟨fun hle => ⟨hall x hx hle, hle⟩, fun hle => hle.2⟩

/-- As an upper bound it leaves the rows of the smallest value at most. -/
theorem discountScan_upper_sound_iff {w : Line} (hw : w ∈ base) : (∀ fresh, ∀ x ∈ base,
    (SelectsCode .loDiscount (discountScan c w v fresh).1 (d.code base x).toNat ↔
      (d.cmp w x).isLE = true ∧ (d.cmp x v).isLE = true)) ↔
      ∀ x ∈ base, (d.cmp w x).isLE = true → (d.rank base x = 0 ↔ (d.cmp x v).isLE = true) := by
  have hselect : ∀ fresh, ∀ x ∈ base, (SelectsCode .loDiscount (discountScan c w v fresh).1 (d.code base x).toNat ↔
      (d.cmp w x).isLE = true ∧ d.rank base x = 0) := by
    intro fresh x hx
    obtain ⟨_, _, hl, hu⟩ := params_discountScan hd h hv hw fresh
    show (discountScan c w v fresh).1.lowerParam.toNat ≤ (d.code base x).toNat ∧
      (d.code base x).toNat ≤ (discountScan c w v fresh).1.upperParam.toNat ↔ _
    rw [hl, hu, toNat_code hd hn hx, toNat_code hd hn hw, ← rank_le_rank_iff hd hw hx]
    exact and_congr_right fun _ => Nat.le_zero
  constructor
  · intro hall x hx hle
    have hiff := (hselect (fun _ => 0) x hx).symm.trans (hall _ x hx)
    rwa [and_congr_right_iff, imp_iff_right hle] at hiff
  · intro hall fresh x hx
    rw [hselect fresh x hx]
    exact and_congr_right (hall x hx)

end Absent

/-- Two years, neither of them 1993. -/
theorem not_absentSound_1993 : ∃ file c, Loaded .int ["1994".toList, "1995".toList] file c ∧
    ¬ AbsentSound .int ["1994".toList, "1995".toList] c "1993".toList := by
  obtain ⟨file, c, h⟩ := exists_loaded (d := .int) ["1994".toList, "1995".toList]
  exact ⟨file, c, h, not_absentSound (by decide) h (by decide)⟩

/-- The scan for 1993 selects the row of 1994. -/
theorem absent_year_selected : ∃ file c, Loaded .int ["1994".toList, "1995".toList] file c ∧
    SelectsCode .dYear (yearScan c "1993".toList fun _ => 0).1
      (DataType.int.code ["1994".toList, "1995".toList] "1994".toList).toNat ∧
    ¬ AbsentSound .int ["1994".toList, "1995".toList] c "1993".toList := by
  obtain ⟨file, c, h⟩ := exists_loaded (d := .int) ["1994".toList, "1995".toList]
  have hselected : SelectsCode .dYear (yearScan c "1993".toList fun _ => 0).1
      (DataType.int.code ["1994".toList, "1995".toList] "1994".toList).toNat := by
    show _ = (yearScan c "1993".toList _).1.lowerParam.toNat
    rw [lowerParam_yearScan (by decide) h (by decide)]
    decide
  exact ⟨file, c, h, hselected, fun hs => hs.eq _ _ List.mem_cons_self hselected⟩

end SdbFpga.Sched
