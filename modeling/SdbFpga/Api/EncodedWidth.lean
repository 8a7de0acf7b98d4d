import SdbFpga.Api.ScanApi
import SdbFpga.Data.Dictionary

/-!
# The width of a compressed column against the 4-bit units

`writeMetaData` never writes a width below 8 bits, while `d_year` and `lo_discount` read 4-bit lanes.

* `initializeColumn_small` : up to 16 distinct values are packed in bytes;
* `nibble_page` : lane `k` of line `j` is one half of a byte;
* `LanesReadCodes` : every lane of a row holds its code;
* `lanes_of_page` : in one page this is so exactly if all rows but the first have code 0;
* `lanesReadCodes_iff` : the same for a whole column, in terms of `base.dat`.
-/

namespace SdbFpga.Api
open Bits Text Data Fpga

/-- Lane `k` of cache line `j` is the code in `compressed.dat` of row `128 * j + k` of the page. -/
def LanesReadCodes (column : Column) (file : List Line) : Prop :=
  ∀ p q, column.partitions[p]? = some q → ∀ j k, k < 128 → 128 * j + k < q.partSize.toNat →
    ∀ h : p * q.partSize.toNat + (128 * j + k) < file.length,
      ((lane 4 k (cacheLine q.compressed j)).toNat : Int) = atoi file[p * q.partSize.toNat + (128 * j + k)]

/-! ## The width -/

/-- The lines of `meta.dat` for up to 16 distinct values. -/
def smallMetaData (d : DataType) (base : List Line) : List Line :=
  ["distinct_values".toList ++ ':' :: ' ' :: showInt (d.distinctValues base - 1),
    "bit_encoding".toList ++ ':' :: ' ' :: ['7'], "data_type".toList ++ ':' :: ' ' :: showInt d.toNat]

section Small
variable {d : DataType} {base : List Line} {comp : Compressor} (hmin : 2 ≤ d.distinctValues base)
  (hmax : d.distinctValues base ≤ 16) (hparse : (Compressor.new d).parseColumn (some base) = (comp, true))
include hmin hmax hparse

theorem writeMetaData_small : comp.writeMetaData = some ({ comp with bitSize := 7 }, smallMetaData d base) := by
  obtain ⟨_, htype, hkeys⟩ := parseColumn_spec (by omega) hparse
  obtain ⟨b, hraw, hseven⟩ := rawBitSize_eq (d := comp.distinctKeys) (by omega)
  have hbucket : bucket b = 7 := hseven.mpr (by omega)
  rw [writeMetaData_eq, hraw, Option.map_some, hbucket, htype, hkeys]
  rfl

/-- Such a column is packed in bytes. -/
theorem initializeColumn_small (file : List Line) (c : Column)
    (order : List (Line × BitVec 32) → List (Line × BitVec 32)) :
    ∃ comp' metaFile c', comp.writeMetaData = some (comp', metaFile) ∧
      c.initializeColumn metaFile base file order = some c' ∧ c'.numOfBits = 8 ∧ c'.colSize = c.colSize ∧
      c'.partitions = c.partitions := by
  have hlabel : ':' ∉ "bit_encoding".toList := by decide
  have hbits : afterColon ((smallMetaData d base).getD 1 []) = some ['7'] := afterColon_append hlabel
  have hseven : int32 (atoi ['7'] + 1) = 8 := by decide
  obtain ⟨c', hinit⟩ := exists_initializeColumn (writeMetaData_small hmin hmax hparse) c base file order
  obtain ⟨hnum, hrest⟩ := initializeColumn_numOfBits hinit hbits
  exact ⟨_, _, c', writeMetaData_small hmin hmax hparse, hinit, hnum.trans hseven, hrest⟩

end Small

/-! ## Half bytes -/

section Page
variable {c : Column} {fresh : Nat → Nat → Word} {codes : List Nat} {p : Nat} {q : Partition}
  (hbits : c.numOfBits = (8 : Nat)) (hnil : c.partitions = [])
  (hq : ((c.initializePageAlignedPartitions fresh).compressColumn (codes.map decimal)).partitions[p]? = some q)
include hbits hnil hq

/-- Lane `k` of line `j` is a half of the byte of row `(128 * j + k) / 2`. -/
theorem nibble_page (hcodes : ∀ x ∈ codes, x < 16) {j k : Nat} (hk : k < 128) (hr : 128 * j + k < 4096)
    (hrow : p * 4096 + (128 * j + k) / 2 < codes.length) :
    (lane 4 k (cacheLine q.compressed j)).toNat =
      if k % 2 = 0 then codes[p * 4096 + (128 * j + k) / 2] else 0 := by
  have hhalf : (128 * j + k) / 2 < 512 * 8 := by omega
  have hcode := hcodes _ (List.getElem_mem hrow)
  have hbyte : lane 8 ((128 * j + k) / 2 % 8) (q.compressed ((128 * j + k) / 2 / 8)) =
      BitVec.ofNat 8 codes[p * 4096 + (128 * j + k) / 2] :=
    lane_page (by decide) (by decide) hbits hnil hq
      (fun x hx => ⟨(hcodes x hx).trans (by decide), (hcodes x hx).trans (by decide)⟩) hhalf hrow
  generalize codes[p * 4096 + (128 * j + k) / 2] = code at hcode hbyte
  have hword : 8 * j + k / 16 = (128 * j + k) / 2 / 8 := by omega
  have hnib : k % 16 = 2 * ((128 * j + k) / 2 % 8) + k % 2 := by omega
  rw [lane_cacheLine (w := 4) (v := 16) (by decide) _ _ _ hk, hword, hnib,
    ← lane_lane (w := 4) (v := 2) (Nat.mod_lt k (by decide)), hbyte, lane, BitVec.extractLsb'_toNat,
    BitVec.toNat_ofNat, Nat.shiftRight_eq_div_pow]
  rcases Nat.mod_two_eq_zero_or_one k with heven | hodd
  · rw [heven, if_pos rfl]
    omega
  · rw [hodd, if_neg (by decide)]
    omega

/-- In one page: a lane after the first is right only if the row's code is 0. -/
theorem lanes_of_page (hcodes : ∀ x ∈ codes, x < 16) :
    (∀ j k, k < 128 → 128 * j + k < 4096 → ∀ h : p * 4096 + (128 * j + k) < codes.length,
        (lane 4 k (cacheLine q.compressed j)).toNat = codes[p * 4096 + (128 * j + k)]) ↔
      ∀ r, 0 < r → r < 4096 → ∀ h : p * 4096 + r < codes.length, codes[p * 4096 + r] = 0 := by
  constructor
  · intro hall r
    induction r using Nat.strong_induction_on with
    | _ r ih =>
      intro hpos hr hrow
      -- row `r` is read as row `r / 2` or as nothing
      have hsplit : 128 * (r / 128) + r % 128 = r := Nat.div_add_mod r 128
      have hread := hall (r / 128) (r % 128) (Nat.mod_lt r (by decide)) (by omega) (by omega)
      rw [nibble_page hbits hnil hq hcodes (Nat.mod_lt r (by decide)) (by omega) (by omega)] at hread
      simp only [hsplit] at hread
      rw [← hread]
      split
      · exact ih (r / 2) (by omega) (by omega) (by omega) (by omega)
      · rfl
  · intro hzero j k hk hr hrow
    rw [nibble_page hbits hnil hq hcodes hk hr (by omega)]
    rcases Nat.eq_zero_or_pos (128 * j + k) with h0 | hpos
    · have hk0 : k = 0 := by omega
      subst hk0
      have hj0 : j = 0 := by omega
      subst hj0
      rfl
    · rw [hzero _ hpos hr hrow]
      split
      · exact hzero _ (by omega) (by omega) (by omega)
      · rfl

end Page

/-! ## A whole column -/

theorem lanesReadCodes_codes {c : Column} {fresh : Nat → Nat → Word} {codes : List Nat}
    (hbits : c.numOfBits = (8 : Nat)) (hnil : c.partitions = []) (hcodes : ∀ x ∈ codes, x < 16) :
    LanesReadCodes ((c.initializePageAlignedPartitions fresh).compressColumn (codes.map decimal)) (codes.map decimal) ↔
      ∀ p < ((c.initializePageAlignedPartitions fresh).compressColumn (codes.map decimal)).numOfPartitions,
        ∀ r, 0 < r → r < 4096 → ∀ h : p * 4096 + r < codes.length, codes[p * 4096 + r] = 0 := by
  have hread : ∀ i (h : i < (codes.map decimal).length) (h' : i < codes.length),
      atoi (codes.map decimal)[i] = codes[i] := by
    intro i h h'
    have := hcodes _ (List.getElem_mem h')
    rw [List.getElem_map]
    exact atoi_decimal _ (by omega)
  have hpage : ∀ (p : Nat) (q : Partition), ((c.initializePageAlignedPartitions fresh).compressColumn
      (codes.map decimal)).partitions[p]? = some q → q.partSize.toNat = 4096 := by
    intro p q hq
    rw [partSize_page (v := 8) (by decide) (by decide) hbits hnil hq]
    rfl
  constructor
  · intro hall p hp
    have hq := List.getElem?_eq_getElem hp
    rw [← lanes_of_page hbits hnil hq hcodes]
    intro j k hk hr h
    have hsize := hpage p _ hq
    have hlane := hall p _ hq j k hk (by omega) (by rw [hsize, List.length_map]; exact h)
    simp only [hsize] at hlane
    rw [hread _ _ h] at hlane
    exact_mod_cast hlane
  · intro hzero p q hq j k hk hr h
    have hsize := hpage p q hq
    simp only [hsize] at hr h ⊢
    have h' : p * 4096 + (128 * j + k) < codes.length := by
      rw [List.length_map] at h
      exact h
    have hlane := (lanes_of_page hbits hnil hq hcodes).mpr (hzero p (List.getElem?_eq_some_iff.mp hq).1) j k hk hr h'
    rw [hread _ h h', hlane]

/-- A 4-bit unit sees the codes of a column with 2 to 16 values exactly if no row but the first one of a page holds
anything but the smallest value. -/
theorem lanesReadCodes_iff {d : DataType} {base metaFile file : List Line} {comp comp' : Compressor}
    {c column : Column} {order : List (Line × BitVec 32) → List (Line × BitVec 32)} {fresh : Nat → Nat → Word}
    (hmin : 2 ≤ d.distinctValues base) (hmax : d.distinctValues base ≤ 16)
    (hparse : (Compressor.new d).parseColumn (some base) = (comp, true))
    (hfile : comp.writeCompressedValues base = file) (hmeta : comp.writeMetaData = some (comp', metaFile))
    (hinit : (Column.new base.length).initializeColumn metaFile base file order = some c)
    (hcolumn : (c.initializePageAlignedPartitions fresh).compressColumn file = column) :
    LanesReadCodes column file ↔
      ∀ p < column.numOfPartitions, ∀ r, 0 < r → r < 4096 → ∀ h : p * 4096 + r < base.length,
        d.IsSmallest base base[p * 4096 + r] := by
  have hpos : 0 < d.distinctValues base := by omega
  have hlen := length_codes hpos
  obtain ⟨_, _, c', hmeta', hinit', hbits, _, hparts⟩ := initializeColumn_small hmin hmax hparse
    file (Column.new base.length) order
  rw [hmeta, Option.some.injEq, Prod.mk.injEq] at hmeta'
  rw [← hmeta'.2, hinit, Option.some.injEq] at hinit'
  subst hinit'
  have hcodes : ∀ x ∈ d.codes base, x < 16 := fun x hx => (lt_of_mem_codes hpos hx).trans_le hmax
  have hcompressed := (parseColumn_spec hpos hparse).1
  rw [hfile] at hcompressed
  subst hcompressed hcolumn
  rw [lanesReadCodes_codes hbits hparts hcodes]
  apply forall₂_congr
  intro p _
  apply forall₃_congr
  intro r _ _
  constructor
  · intro h hrow
    exact (codes_eq_zero_iff hpos (hmax.trans (by decide)) (by omega) hrow).mp (h (by omega))
  · intro h hrow
    exact (codes_eq_zero_iff hpos (hmax.trans (by decide)) hrow (by omega)).mpr (h (by omega))

/-- Two rows, the later year first: the claimed lanes are read. -/
theorem lanesReadCodes_iff_two_years : ∃ comp comp' metaFile c,
    (Compressor.new .int).parseColumn (some ["1993".toList, "1992".toList]) = (comp, true) ∧
      comp.writeMetaData = some (comp', metaFile) ∧
      (Column.new 2).initializeColumn metaFile ["1993".toList, "1992".toList]
        (comp.writeCompressedValues ["1993".toList, "1992".toList]) id = some c ∧
      LanesReadCodes ((c.initializePageAlignedPartitions fun _ _ => 0).compressColumn
          (comp.writeCompressedValues ["1993".toList, "1992".toList]))
        (comp.writeCompressedValues ["1993".toList, "1992".toList]) := by
  have hmin : 2 ≤ DataType.int.distinctValues ["1993".toList, "1992".toList] := by decide
  have hmax : DataType.int.distinctValues ["1993".toList, "1992".toList] ≤ 16 := by decide
  obtain ⟨comp, hparse⟩ := exists_parseColumn .int ["1993".toList, "1992".toList]
  obtain ⟨comp', metaFile, c, hmeta, hinit, _⟩ := initializeColumn_small hmin hmax hparse
    (comp.writeCompressedValues ["1993".toList, "1992".toList]) (Column.new 2) id
  refine ⟨comp, comp', metaFile, c, hparse, hmeta, hinit,
    (lanesReadCodes_iff hmin hmax hparse rfl hmeta hinit rfl).mpr ?_⟩
  intro p _ r hr _ h
  have hp : p = 0 := by
    simp only [List.length_cons, List.length_nil] at h
    omega
  have hr1 : r = 1 := by
    simp only [List.length_cons, List.length_nil] at h
    omega
  subst hp hr1
  show DataType.int.IsSmallest ["1993".toList, "1992".toList] "1992".toList
  decide

/-- Two rows in order of time: lane 1 of line 0 does not hold the second row's code. -/
theorem second_row_misread : ∃ comp comp' metaFile c,
    2 ≤ DataType.int.distinctValues ["1992".toList, "1993".toList] ∧
      DataType.int.distinctValues ["1992".toList, "1993".toList] ≤ 16 ∧
      (Compressor.new .int).parseColumn (some ["1992".toList, "1993".toList]) = (comp, true) ∧
      comp.writeMetaData = some (comp', metaFile) ∧
      (Column.new 2).initializeColumn metaFile ["1992".toList, "1993".toList]
        (comp.writeCompressedValues ["1992".toList, "1993".toList]) id = some c ∧
      ¬ LanesReadCodes ((c.initializePageAlignedPartitions fun _ _ => 0).compressColumn
          (comp.writeCompressedValues ["1992".toList, "1993".toList]))
        (comp.writeCompressedValues ["1992".toList, "1993".toList]) := by
  have hmin : 2 ≤ DataType.int.distinctValues ["1992".toList, "1993".toList] := by decide
  have hmax : DataType.int.distinctValues ["1992".toList, "1993".toList] ≤ 16 := by decide
  obtain ⟨comp, hparse⟩ := exists_parseColumn .int ["1992".toList, "1993".toList]
  obtain ⟨comp', metaFile, c, hmeta, hinit, hbits, hsize, hparts⟩ := initializeColumn_small hmin hmax hparse
    (comp.writeCompressedValues ["1992".toList, "1993".toList]) (Column.new 2) id
  refine ⟨comp, comp', metaFile, c, hmin, hmax, hparse, hmeta, hinit, ?_⟩
  have hpos := hmin.trans_lt' Nat.zero_lt_two
  have hlen := length_codes hpos
  have hpages : (c.numOfPagesRequired pageSize).toNat = 1 := by
    unfold Column.numOfPagesRequired
    rw [hbits, hsize]
    decide
  rw [(parseColumn_spec hpos hparse).1, lanesReadCodes_codes hbits hparts
    fun x hx => (lt_of_mem_codes hpos hx).trans_le hmax]
  intro h
  have hone : 0 * 4096 + 1 < (DataType.int.codes ["1992".toList, "1993".toList]).length := by
    rw [hlen]
    decide
  have hzero := h 0 (by rw [numOfPartitions_compressColumn hparts, hpages]; decide) 1 (by decide) (by decide) hone
  have hsmall := (codes_eq_zero_iff hpos (hmax.trans (by decide)) hone (by decide)).mp hzero
  revert hsmall
  decide

end SdbFpga.Api
