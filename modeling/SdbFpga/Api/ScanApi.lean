import SdbFpga.Api.JobWrapper
import SdbFpga.Fpga.ScanAfu

/-!
# `ScanApi`: a scan and its predicate

* `ScanApi.filterPredicate`, `rangePredicate`, `filterPred` : the predicate the host sends to the FPGA;
* `ScanApi.totalCls` : the cache lines of a page that are scanned;
* `ScanUnit` : what the three units are for, `scanLine_iff` : bit `k` of a result line judges lane `k`;
* `writeBuffer` : the result lines of a page in memory, `ScanApi.scanPartition`.
-/

namespace SdbFpga.Api
open Bits Data Fpga

/-- `comparison_type`. -/
inductive ComparisonType
  | eq
  | ne
  | ge
  | lt
  | le
  | gt
  | geLe
  deriving DecidableEq, Repr

/-- `ScanApi`. -/
structure ScanApi extends JobWrapper where
  comparisonOp : ComparisonType
  lowerParam : BitVec 32
  upperParam : BitVec 32

/-- The constructor. -/
def ScanApi.new (scanJob : JobType) (column : Column) (comp : ComparisonType) (param1 : BitVec 32) : ScanApi :=
  { JobWrapper.new scanJob column with
    comparisonOp := comp
    lowerParam := param1
    upperParam := -1 }

/-- `setNumOfPartitions`, inherited. -/
def ScanApi.setNumOfPartitions (s : ScanApi) (parts : Int) : ScanApi :=
  { s with toJobWrapper := s.toJobWrapper.setNumOfPartitions parts }

/-- `setUpperParam`. -/
def ScanApi.setUpperParam (s : ScanApi) (param : BitVec 32) : ScanApi := { s with upperParam := param }

/-- `initializeScanOperator`. -/
def ScanApi.initializeScanOperator (s : ScanApi) (fresh : Nat → Word) : ScanApi :=
  { s with toJobWrapper := s.reserveResultBuffer fresh }

/-- `FilterPredicate`. -/
def ScanApi.filterPredicate (s : ScanApi) : BitVec 32 := s.lowerParam

/-- `RangePredicate`. -/
def ScanApi.rangePredicate (s : ScanApi) : BitVec 32 := s.upperParam <<< 4 ||| s.lowerParam

/-- `filter_pred` of `scanAtATime`. -/
def ScanApi.filterPred (s : ScanApi) : BitVec 32 :=
  if s.jobType = .loDiscScan then s.rangePredicate else s.filterPredicate

/-- `(int) ceil((double) a / (double) b)`, exact for an `int` `a` and a small `b`. -/
def ceilDiv (a b : Int) : Int := -(-a / b)

/-- `total_cls` of `scanAtATime`. -/
def ScanApi.totalCls (s : ScanApi) : Int :=
  let itemsPerRead := (clSize : Int).tdiv s.baseColumn.numOfBits
  min (ceilDiv s.baseColumn.colSize itemsPerRead) (pageSize / 64 : Nat)

/-! ## The units -/

/-- A scan unit of the FPGA. -/
inductive ScanUnit
  | dYear
  | loDiscount
  | loQuantity
  deriving DecidableEq, Repr

/-- The job that selects the unit. -/
def ScanUnit.jobType : ScanUnit → JobType
  | .dYear => .dYearScan
  | .loDiscount => .loDiscScan
  | .loQuantity => .loQuantityScan

/-- The width of the codes it reads. -/
def ScanUnit.bits : ScanUnit → Nat
  | .dYear => 4
  | .loDiscount => 4
  | .loQuantity => 8

/-- The codes it reads in one word. -/
def ScanUnit.codesPerWord (u : ScanUnit) : Nat := 64 / u.bits

/-- The rows it selects. -/
def ScanUnit.Selects (u : ScanUnit) (lower upper code : Nat) : Prop :=
  match u with
  | .dYear => code = lower
  | .loDiscount => lower ≤ code ∧ code ≤ upper
  | .loQuantity => code ≤ lower

instance (u : ScanUnit) (lower upper code : Nat) : Decidable (u.Selects lower upper code) :=
  match u with
  | .dYear => inferInstanceAs (Decidable (code = lower))
  | .loDiscount => inferInstanceAs (Decidable (lower ≤ code ∧ code ≤ upper))
  | .loQuantity => inferInstanceAs (Decidable (code ≤ lower))

theorem ScanUnit.bits_pos (u : ScanUnit) : 0 < u.bits := by
  cases u <;> decide

theorem ScanUnit.codesPerWord_pos (u : ScanUnit) : 0 < u.codesPerWord := by
  cases u <;> decide

theorem ScanUnit.codesPerWord_le (u : ScanUnit) : u.codesPerWord ≤ 16 := by
  cases u <;> decide

theorem ScanUnit.bits_mul_codesPerWord (u : ScanUnit) : u.bits * u.codesPerWord = 64 := by
  cases u <;> decide

/-- `scan_column`, from CSR 2. -/
def JobType.scanColumn (t : JobType) : BitVec 2 := BitVec.ofNat 2 t.toNat

/-- `filter_pred` of the AFU, from CSR 1. -/
def ScanApi.predRegister (s : ScanApi) : BitVec 8 := (s.filterPred.setWidth 64).setWidth 8

/-! The fields of the predicate register. -/

theorem lane_zero_range {lower upper : BitVec 32} :
    lane 4 0 (((upper <<< 4 ||| lower).setWidth 64).setWidth 8) = lower.setWidth 4 := by
  rw [lane_setWidth (by decide), lane_setWidth (by decide), BitVec.or_comm,
    lane_or_shift_old (w := 4) (m := 1) (by decide), lane_zero]

theorem lane_one_range {lower upper : BitVec 32} (hl : lower.toNat < 2 ^ 4) :
    lane 4 1 (((upper <<< 4 ||| lower).setWidth 64).setWidth 8) = upper.setWidth 4 := by
  rw [lane_setWidth (by decide), lane_setWidth (by decide), BitVec.or_comm,
    lane_or_shift (w := 4) (m := 1) (below_of_toNat_lt hl) (by decide)]

theorem lane_zero_filter (lower : BitVec 32) : lane 4 0 ((lower.setWidth 64).setWidth 8) = lower.setWidth 4 := by
  rw [lane_setWidth (by decide), lane_setWidth (by decide), lane_zero]

theorem toNat_setWidth_of_lt {n w : Nat} {x : BitVec n} (h : x.toNat < 2 ^ w) : (x.setWidth w).toNat = x.toNat := by
  rw [BitVec.toNat_setWidth, Nat.mod_eq_of_lt h]

/-- Bit `k` of a result line judges the code in lane `k`. -/
theorem scanLine_iff (u : ScanUnit) (s : ScanApi) (hjob : s.jobType = u.jobType) (hl : s.lowerParam.toNat < 2 ^ u.bits)
    (hu : u = .loDiscount → s.upperParam.toNat < 2 ^ u.bits) (cl : ClData) {k : Nat} (hk : k < 8 * u.codesPerWord) :
    (scanLine s.jobType.scanColumn s.predRegister cl).getLsbD k = true ↔
      u.Selects s.lowerParam.toNat s.upperParam.toNat (lane u.bits k cl).toNat := by
  rw [ScanApi.predRegister, ScanApi.filterPred, hjob]
  match u with
  | .dYear =>
    have hpred : (BitVec.extractLsb' 0 4 ((s.lowerParam.setWidth 64).setWidth 8)).toNat = s.lowerParam.toNat :=
      (congrArg BitVec.toNat (lane_zero_filter s.lowerParam)).trans (toNat_setWidth_of_lt hl)
    show (scanLine 0 ((s.lowerParam.setWidth 64).setWidth 8) cl).getLsbD k = true ↔ _ = _
    rw [scanLine_dYear, getLsbD_dYear, if_pos (show k < 128 from hk), beq_iff_eq, hpred]
    exact Iff.rfl
  | .loDiscount =>
    have hlower : (BitVec.extractLsb' 0 4 ((s.rangePredicate.setWidth 64).setWidth 8)).toNat = s.lowerParam.toNat :=
      (congrArg BitVec.toNat lane_zero_range).trans (toNat_setWidth_of_lt hl)
    have hupper : (BitVec.extractLsb' 4 4 ((s.rangePredicate.setWidth 64).setWidth 8)).toNat = s.upperParam.toNat :=
      (congrArg BitVec.toNat (lane_one_range hl)).trans (toNat_setWidth_of_lt (hu rfl))
    show (scanLine 1 ((s.rangePredicate.setWidth 64).setWidth 8) cl).getLsbD k = true ↔ _ ∧ _
    rw [scanLine_loDiscount, getLsbD_loDiscount, if_pos (show k < 128 from hk), Bool.and_eq_true,
      decide_eq_true_eq, decide_eq_true_eq, hlower, hupper]
    exact Iff.rfl
  | .loQuantity =>
    have hpred : ((s.lowerParam.setWidth 64).setWidth 8).toNat = s.lowerParam.toNat := by
      have hl8 : s.lowerParam.toNat < 2 ^ 8 := hl
      have h64 : (s.lowerParam.setWidth 64).toNat = s.lowerParam.toNat := by
        apply toNat_setWidth_of_lt
        omega
      rw [toNat_setWidth_of_lt (h64.trans_lt hl8), h64]
    show (scanLine 2 ((s.lowerParam.setWidth 64).setWidth 8) cl).getLsbD k = true ↔ _ ≤ _
    rw [scanLine_loQuantity, getLsbD_loQuantity, if_pos (show k < 64 from hk), decide_eq_true_eq, hpred]
    exact Iff.rfl

/-! ## Pages and write buffers -/

/-- Cache line `j` of a buffer of words. -/
def cacheLine (mem : Nat → Word) (j : Nat) : ClData := concat 64 8 fun i => mem (8 * j + i)

/-- A write buffer after the first `totalCls` lines of a page were scanned into it. -/
def writeBuffer (scanColumn : BitVec 2) (filterPred : BitVec 8) (totalCls : Nat) (page old : Nat → Word) (i : Nat) :
    Word :=
  if i / 8 < totalCls then lane 64 (i % 8) (scanLine scanColumn filterPred (cacheLine page (i / 8))) else old i

/-- Partition `p`, whose page is `q`, is scanned and its write buffer copied. -/
def ScanApi.scanPartition (s : ScanApi) (q : Partition) (old : Nat → Word) (p : Nat) : JobWrapper :=
  s.copyFPGAWriteBuffer (writeBuffer s.jobType.scanColumn s.predRegister s.totalCls.toNat q.compressed old) p
    s.totalCls

/-- A lane of a cache line, where `v` lanes make a word. -/
theorem lane_cacheLine {w v : Nat} (hv : w * v = 64) (mem : Nat → Word) (j k : Nat) (hk : k < v * 8) :
    lane w k (cacheLine mem j) = lane w (k % v) (mem (8 * j + k / v)) := lane_concat hv _ 8 k hk

/-- Word `t` of line `j` in a write buffer. -/
theorem writeBuffer_line {scanColumn : BitVec 2} {filterPred : BitVec 8} {totalCls : Nat} {page old : Nat → Word}
    {j t : Nat} (hj : j < totalCls) (ht : t < 8) :
    writeBuffer scanColumn filterPred totalCls page old (8 * j + t) =
      lane 64 t (scanLine scanColumn filterPred (cacheLine page j)) := by
  have hdiv : (8 * j + t) / 8 = j := by omega
  have hmod : (8 * j + t) % 8 = t := by omega
  rw [writeBuffer, hdiv, hmod, if_pos hj]

/-- Bit `k` of line `j` in a write buffer. -/
theorem getLsbD_writeBuffer {scanColumn : BitVec 2} {filterPred : BitVec 8} {totalCls : Nat} {page old : Nat → Word}
    {j k : Nat} (hj : j < totalCls) (hk : k < 512) :
    (writeBuffer scanColumn filterPred totalCls page old (8 * j + k / 64)).getLsbD (k % 64) =
      (scanLine scanColumn filterPred (cacheLine page j)).getLsbD k := by
  have hlt : k % 64 < 64 := Nat.mod_lt k (by decide)
  rw [writeBuffer_line hj (by omega), getLsbD_lane, decide_eq_true hlt, Bool.true_and, Nat.div_add_mod]

end SdbFpga.Api
