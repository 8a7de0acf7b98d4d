import SdbFpga.Api.ScanApi
import SdbFpga.Data.Dictionary
import SdbFpga.Lib.Simd

/-!
# `simdScan8`: the scan on a CPU core

A core compares the eight bytes of a word with signed instructions, the unit of the FPGA compares them unsigned.

* `ScanApi.scanByte`, `ScanApi.simdScan8`; `getLsbD_scanByte` : what a bit of a result byte means;
* `scanByte_eq_iff` : the bit is the one of `lo_quantity` exactly if code and predicate have the same top bit;
* `SimdAgrees`, `simdAgrees_iff` : the two scans agree on a column of bytes with up to 128 values, and on no other.
-/

namespace SdbFpga.Api
open Bits Text Data Fpga

/-- What `simdScan8` leaves: the bytes it stores from the address `bitVector` on, and the count it returns. -/
structure SimdScan where
  bitVector : Word
  bytes : List (BitVec 8)
  count : Int
  deriving DecidableEq, Repr

/-- `~((uint8_t) _mm_movemask_pi8(_mm_cmpgt_pi8(data_vec, converted_pred1)))`. -/
def ScanApi.scanByte (s : ScanApi) (dataVec : Word) : BitVec 8 :=
  ~~~movemask 8 8 (cmpgt 8 8 dataVec (broadcast 8 8 (s.lowerParam.setWidth 8)))

/-- `simdScan8`, on the words of `DataBlock(curPart)`; `bit_vector` is what stands in `bit_result[res_offset]`. -/
def ScanApi.simdScan8 (s : ScanApi) (compressedData : Nat → Word) (curPart : Int) : SimdScan :=
  let resOffset := int32 (curPart * s.resBuffLen)
  let bytes := (List.range (s.resBuffLen * 8).toNat).map fun wordId => s.scanByte (compressedData wordId)
  { bitVector := s.bitResult resOffset.toNat
    bytes := bytes
    count := bytes.foldl (fun count b => int32 (count + b.cpop.toNat)) 0 }

/-- A bit is the signed comparison of a byte of the word. -/
theorem getLsbD_scanByte (s : ScanApi) (dataVec : Word) {j : Nat} (hj : j < 8) :
    (s.scanByte dataVec).getLsbD j = !(s.lowerParam.setWidth 8).slt (lane 8 j dataVec) := by
  rw [ScanApi.scanByte, getLsbD_not_movemask_cmpgt (by decide) _ _ hj, lane_broadcast _ hj]

/-- Bit `8 * i + j` of the unit is the unsigned comparison of byte `j` of word `i` of the line. -/
theorem getLsbD_loQuantity_word (predicate : BitVec 8) (cl : ClData) (u : FilterUnit) {i j : Nat} (hi : i < 8)
    (hj : j < 8) : (loQuantity false true predicate cl u).bitResult.getLsbD (8 * i + j) =
      !predicate.ult (lane 8 j (lane 64 i cl)) := by
  have hlane : lane 8 j (lane 64 i cl) = lane 8 (8 * i + j) cl := lane_lane (w := 8) (v := 8) hj cl
  rw [getLsbD_loQuantity, if_pos (by omega), hlane, BitVec.ult, ← decide_not]
  exact decide_eq_decide.mpr Nat.not_lt.symm

/-- The two comparisons of a code agree exactly where its top bit is the predicate's. -/
theorem scanByte_eq_iff (s : ScanApi) {dataVec : Word} {cl : ClData} {i j : Nat} (hi : i < 8) (hj : j < 8)
    (hcl : lane 64 i cl = dataVec) (u : FilterUnit) :
    (s.scanByte dataVec).getLsbD j =
        (loQuantity false true (s.lowerParam.setWidth 8) cl u).bitResult.getLsbD (8 * i + j) ↔
      (s.lowerParam.setWidth 8).msb = (lane 8 j dataVec).msb := by
  rw [getLsbD_scanByte s dataVec hj, getLsbD_loQuantity_word _ cl u hi hj, hcl, Bool.not_inj_iff]
  exact slt_eq_ult_iff _ _

/-! ## Whole columns -/

/-- For every code of the dictionary as predicate and every word of eight codes of the column, wherever it stands in
a cache line, a core computes the bits that `lo_quantity` computes. -/
def SimdAgrees (c : Column) (file : List Line) : Prop :=
  ∀ s : ScanApi, s.jobType = .loQuantityScan → (∃ v, c.dictionary.lookup v = some s.lowerParam) →
    ∀ dataVec : Word, (∀ j < 8, ∃ l ∈ file, ((lane 8 j dataVec).toNat : Int) = atoi l) →
      ∀ (cl : ClData) (i : Nat) (u : FilterUnit), i < 8 → lane 64 i cl = dataVec → ∀ j < 8,
        (s.scanByte dataVec).getLsbD j =
          (loQuantity false true s.predRegister cl u).bitResult.getLsbD (8 * i + j)

theorem predRegister_loQuantity {s : ScanApi} (hjob : s.jobType = .loQuantityScan) :
    s.predRegister = s.lowerParam.setWidth 8 := by
  rw [ScanApi.predRegister, ScanApi.filterPred, if_neg (by rw [hjob]; decide), ScanApi.filterPredicate,
    BitVec.setWidth_setWidth_of_le _ (by decide)]

section Agree
variable {d : DataType} {base file : List Line} {c : Column} (hd : d ≠ .double) (h : Loaded d base file c)
  (hmax : d.distinctValues base ≤ 129)
include hd h hmax

/-- The codes of such a column, in the dictionary and in the file. -/
theorem mem_codes_iff (x : Nat) : (∃ l ∈ file, (x : Int) = atoi l) ↔ ∃ v ∈ base, x = d.rank base v := by
  have hcode : ∀ v ∈ base, atoi (decimal (d.code base v).toNat) = d.rank base v := by
    intro v hv
    have hlt := rank_lt_distinctValues hd hv
    rw [toNat_code hd (fun _ => by omega) hv, atoi_decimal _ (by omega)]
  rw [h.file_eq hd]
  constructor
  · rintro ⟨l, hl, hx⟩
    obtain ⟨v, hv, rfl⟩ := List.mem_map.mp hl
    rw [hcode v hv] at hx
    exact ⟨v, hv, by omega⟩
  · rintro ⟨v, hv, rfl⟩
    exact ⟨_, List.mem_map_of_mem hv, (hcode v hv).symm⟩

/-- Up to 128 values: no code has its top bit set. -/
theorem simdAgrees_of_le (h128 : d.distinctValues base ≤ 128) : SimdAgrees c file := by
  intro s hjob hpred dataVec hdata cl i u hi hcl j hj
  have hcode : (lane 8 j dataVec).msb = false := by
    obtain ⟨v, hv, hrank⟩ := (mem_codes_iff hd h hmax _).mp (hdata j hj)
    have hlt := rank_lt_distinctValues hd hv
    exact (msb_eq_false_iff_toNat_lt (w := 7) _).mpr (by omega)
  have hparam : (s.lowerParam.setWidth 8).msb = false := by
    obtain ⟨v, hlookup⟩ := hpred
    rw [h.lookup_dictionary hd] at hlookup
    split at hlookup
    · next hv =>
      have hlt := rank_lt_distinctValues hd hv
      have hrank := toNat_code (d := d) hd (fun _ => by omega) hv
      rw [Option.some.inj hlookup] at hrank
      have hnat : (s.lowerParam.setWidth 8).toNat = s.lowerParam.toNat := toNat_setWidth_of_lt (by omega)
      exact (msb_eq_false_iff_toNat_lt (w := 7) _).mpr (by omega)
    · cases hlookup
  rw [predRegister_loQuantity hjob]
  exact (scanByte_eq_iff s hi hj hcl u).mpr (hparam.trans hcode.symm)

/-- With 129 values code 128 is negative for a core: it is below every predicate. -/
theorem not_simdAgrees (h128 : 128 < d.distinctValues base) : ¬ SimdAgrees c file := by
  intro hagree
  have hpos : 0 < d.distinctValues base := by omega
  obtain ⟨x, hx, hzero⟩ := exists_rank_eq hd hpos
  obtain ⟨y, hy, hlast⟩ := exists_rank_eq hd h128
  have hlane : ∀ j < 8, lane 8 j (broadcast 8 8 (128#8)) = 128#8 := fun j hj => lane_broadcast _ hj
  have hline : lane 64 0 ((broadcast 8 8 (128#8)).setWidth 512 : ClData) = broadcast 8 8 (128#8) := by
    rw [lane_setWidth (by decide), lane_zero, BitVec.setWidth_eq]
  have hlookup : c.dictionary.lookup x = some 0 := by
    rw [h.lookup_dictionary hd, if_pos hx, DataType.code, hzero]
    rfl
  have hbit := hagree (ScanApi.new .loQuantityScan c .le 0) rfl ⟨x, hlookup⟩ (broadcast 8 8 (128#8))
    (fun j hj => (mem_codes_iff hd h hmax _).mpr ⟨y, hy, by rw [hlane j hj, hlast]; rfl⟩) _ 0 ⟨0, false⟩ (by decide)
    hline 0 (by decide)
  rw [predRegister_loQuantity rfl] at hbit
  have htop := (scanByte_eq_iff _ (by decide) (by decide) hline ⟨0, false⟩).mp hbit
  have hparam : (BitVec.setWidth 8 (0#32)).msb = false := by decide
  rw [hlane 0 (by decide)] at htop
  exact absurd (hparam.symm.trans htop) (by decide)

end Agree

/-- What `writeMetaData` chose 8 bits for has between 2 and 129 values. -/
theorem distinctValues_of_bitSize {d : DataType} {base metaFile : List Line} {comp comp' : Compressor}
    (hparse : (Compressor.new d).parseColumn (some base) = (comp, true))
    (hmeta : comp.writeMetaData = some (comp', metaFile)) (hbits : comp'.bitSize = 7) :
    d ≠ .double ∧ d.distinctValues base ≤ 129 := by
  have hkeys : 1 ≤ comp.distinctKeys := by
    by_contra hlt
    have hnone : rawBitSize comp.distinctKeys = none := by
      unfold rawBitSize
      rw [if_neg (by omega), ceilLog2, if_neg (by omega)]
      rfl
    rw [Compressor.writeMetaData, hnone] at hmeta
    cases hmeta
  obtain ⟨b, hraw, hseven⟩ := rawBitSize_eq hkeys
  rw [Compressor.writeMetaData, hraw, Option.map_some, Option.some.injEq, Prod.mk.injEq] at hmeta
  have hmax : comp.distinctKeys ≤ 128 := hseven.mp (by rw [← hbits, ← hmeta.1])
  cases d with
  | int =>
    cases hparse
    have hcount : (countKeys ∅ (-1) (base.map atoi)).2 ≤ 128 := hmax
    rw [countKeys_empty] at hcount
    refine ⟨by decide, ?_⟩
    show (base.map atoi).dedup.length ≤ 129
    omega
  | string =>
    cases hparse
    have hcount : (countKeys ∅ (-1) base).2 ≤ 128 := hmax
    rw [countKeys_empty] at hcount
    refine ⟨by decide, ?_⟩
    show base.dedup.length ≤ 129
    omega
  | double =>
    cases hparse
    exact absurd hkeys (by decide)

/-- On a column for which the compressor chooses 8 bits the two scans agree exactly if it has no more than 128
values. -/
theorem simdAgrees_iff {d : DataType} {base metaFile file : List Line} {comp comp' : Compressor} {colSize : Int}
    {c : Column} {order : List (Line × BitVec 32) → List (Line × BitVec 32)}
    (hparse : (Compressor.new d).parseColumn (some base) = (comp, true))
    (hmeta : comp.writeMetaData = some (comp', metaFile)) (hbits : comp'.bitSize = 7)
    (hfile : comp.writeCompressedValues base = file)
    (hinit : (Column.new colSize).initializeColumn metaFile base file order = some c) :
    SimdAgrees c file ↔ d.distinctValues base ≤ 128 := by
  obtain ⟨hd, hmax⟩ := distinctValues_of_bitSize hparse hmeta hbits
  have hloaded : Loaded d base file c := ⟨⟨comp, hparse, hfile⟩, colSize, metaFile, order, hinit⟩
  constructor
  · intro hagree
    by_contra hlt
    exact not_simdAgrees hd hloaded hmax (by omega) hagree
  · exact simdAgrees_of_le hd hloaded hmax

/-- A column with few values has a file of metadata with 8 bits. -/
theorem exists_bitSize {d : DataType} {base : List Line} {comp : Compressor} (hmin : 2 ≤ d.distinctValues base)
    (hmax : d.distinctValues base ≤ 129) (hparse : (Compressor.new d).parseColumn (some base) = (comp, true)) :
    ∃ comp' metaFile c, comp.writeMetaData = some (comp', metaFile) ∧ comp'.bitSize = 7 ∧
      (Column.new base.length).initializeColumn metaFile base (comp.writeCompressedValues base) id = some c := by
  obtain ⟨_, _, hkeys⟩ := parseColumn_spec (by omega) hparse
  obtain ⟨b, hraw, hseven⟩ := rawBitSize_eq (d := comp.distinctKeys) (by omega)
  have hbucket : bucket b = 7 := hseven.mpr (by omega)
  obtain ⟨metaFile, hmeta⟩ : ∃ metaFile, comp.writeMetaData = some ({ comp with bitSize := bucket b }, metaFile) := by
    rw [Compressor.writeMetaData, hraw]
    exact ⟨_, rfl⟩
  obtain ⟨c, hinit⟩ := exists_initializeColumn hmeta (Column.new base.length) base (comp.writeCompressedValues base) id
  exact ⟨_, metaFile, c, hmeta, hbucket, hinit⟩

/-- Two quantities. -/
theorem simdAgrees_iff_two : ∃ comp c, (Compressor.new .int).parseColumn (some ["24".toList, "25".toList]) =
    (comp, true) ∧ SimdAgrees c (comp.writeCompressedValues ["24".toList, "25".toList]) := by
  obtain ⟨comp, hparse⟩ := exists_parseColumn .int ["24".toList, "25".toList]
  obtain ⟨comp', metaFile, c, hmeta, hbits, hinit⟩ := exists_bitSize (by decide) (by decide) hparse
  exact ⟨comp, c, hparse, (simdAgrees_iff hparse hmeta hbits rfl hinit).mpr (by decide)⟩

/-- The quantities 0 to 128: the scans for the smallest one differ in the rows of the largest. -/
theorem largest_quantity_selected : ∃ comp comp' metaFile c,
    (Compressor.new .int).parseColumn (some ((List.range 129).map decimal)) = (comp, true) ∧
      comp.writeMetaData = some (comp', metaFile) ∧ comp'.bitSize = 7 ∧
      (Column.new ((List.range 129).map decimal).length).initializeColumn metaFile ((List.range 129).map decimal)
        (comp.writeCompressedValues ((List.range 129).map decimal)) id = some c ∧
      ¬ SimdAgrees c (comp.writeCompressedValues ((List.range 129).map decimal)) := by
  have hvalues : DataType.int.distinctValues ((List.range 129).map decimal) = 129 := by
    have hread : ((List.range 129).map decimal).map atoi = (List.range 129).map fun n : Nat => (n : Int) := by
      rw [List.map_map]
      apply List.map_congr_left
      intro n hn
      rw [List.mem_range] at hn
      exact atoi_decimal n (by omega)
    have hnodup : ((List.range 129).map fun n : Nat => (n : Int)).Nodup :=
      List.nodup_range.map fun _ _ he => Int.ofNat.inj he
    show (((List.range 129).map decimal).map atoi).dedup.length = 129
    rw [hread, hnodup.dedup, List.length_map, List.length_range]
  obtain ⟨comp, hparse⟩ := exists_parseColumn .int ((List.range 129).map decimal)
  obtain ⟨comp', metaFile, c, hmeta, hbits, hinit⟩ := exists_bitSize (by omega) (by omega) hparse
  exact ⟨comp, comp', metaFile, c, hparse, hmeta, hbits, hinit,
    not_simdAgrees (by decide) ⟨⟨comp, hparse, rfl⟩, _, metaFile, id, hinit⟩ (by omega) (by omega)⟩

end SdbFpga.Api
