import SdbFpga.Fpga.ScanAfu
import SdbFpga.Fpga.SliceUnits

/-!
# `scan_afu` of `data_parallelism`: registers and one clock edge

The unit filters a line in eight slices: each `p16` is enabled once all slices below it are done.

* `p16Net` : how the eight units are connected, `p16Net_eq` : the connections are regular;
* `DpScanAfu` : the registers, `DpScanAfu.step` : one clock edge;
* `getLsbD_clProcessed`, `enabled_iff`, `getLsbD_bitResult` : the wires that the units drive;
* `Chain` : the slices below `j` hold the results for a line, the others are cleared; `Chain.step_processing`.
-/

namespace SdbFpga.Fpga
open Bits

/-! ## The connections of the slices -/

/-- A `p16`: `rsp_data[clHi:clLo]` comes in, `bit_result[bitHi:bitLo]` and `cl_processed[done]` go out; with
`en := some (hi, ones)` it waits for `cl_processed[hi:0] == ones`. -/
structure P16Net where
  en : Option (Nat × Nat)
  clHi : Nat
  clLo : Nat
  bitHi : Nat
  bitLo : Nat
  done : Nat
  deriving DecidableEq, Repr

def p16Net : Fin 8 → P16Net
  | 0 => ⟨none, 63, 0, 15, 0, 0⟩
  | 1 => ⟨some (0, 0b1), 127, 64, 31, 16, 1⟩
  | 2 => ⟨some (1, 0b11), 191, 128, 47, 32, 2⟩
  | 3 => ⟨some (2, 0b111), 255, 192, 63, 48, 3⟩
  | 4 => ⟨some (3, 0b1111), 319, 256, 79, 64, 4⟩
  | 5 => ⟨some (4, 0b11111), 383, 320, 95, 80, 5⟩
  | 6 => ⟨some (5, 0b111111), 447, 384, 111, 96, 6⟩
  | 7 => ⟨some (6, 0b1111111), 511, 448, 127, 112, 7⟩

theorem p16Net_eq : ∀ i : Fin 8, p16Net i =
    ⟨if i.val = 0 then none else some (i - 1, 2 ^ i.val - 1), 64 * i + (64 - 1), 64 * i, 16 * i + (16 - 1), 16 * i, i⟩ := by
  decide

/-! ## Registers and wires -/

/-- The input wires of one cycle. -/
structure DpWires where
  reset : Bool
  wrCsrs : Fin 8 → WrCsr
  c0TxAlmFull : Bool
  c1TxAlmFull : Bool
  readRsp : Option ClData
  writeRsp : Bool

/-- Nothing happens. -/
def DpWires.quiet : DpWires where
  reset := false
  wrCsrs := fun _ => ⟨0, false⟩
  c0TxAlmFull := false
  c1TxAlmFull := false
  readRsp := none
  writeRsp := false

/-- `CSR[k]` is written. -/
def DpWires.csr (k : Fin 8) (v : MmioData) : DpWires := { DpWires.quiet with wrCsrs := fun j => ⟨v, j = k⟩ }

/-- A line arrives. -/
def DpWires.respond (cl : ClData) : DpWires := { DpWires.quiet with readRsp := some cl }

/-- The registers; `units` are the output registers of the eight `p16`, `bitResultHigh` is `bit_result[511:128]`. -/
structure DpScanAfu where
  newPartitionReady : Bool
  readBuffAddress : ClAddr
  writeBuffAddress : ClAddr
  totalCls : BitVec 7
  filterPred : BitVec 4
  state : TState
  clReqAllowed : Bool
  clReqIssued : Bool
  clReceived : Bool
  partitionProcessed : Bool
  writeProcessed : Bool
  totalClsProcessed : BitVec 6
  rspData : ClData
  units : Fin 8 → SliceUnit 16
  bitResultHigh : BitVec 384
  c0Valid : Bool
  c0Address : ClAddr
  c1Valid : Bool
  c1Data : ClData
  c1Hdr : WriteHdr
  writeIssued : Bool

namespace DpScanAfu

/-- All registers zero. -/
def zero : DpScanAfu where
  newPartitionReady := false
  readBuffAddress := 0
  writeBuffAddress := 0
  totalCls := 0
  filterPred := 0
  state := .waiting
  clReqAllowed := false
  clReqIssued := false
  clReceived := false
  partitionProcessed := false
  writeProcessed := false
  totalClsProcessed := 0
  rspData := 0
  units := fun _ => .cleared 16
  bitResultHigh := 0
  c0Valid := false
  c0Address := 0
  c1Valid := false
  c1Data := 0
  c1Hdr := ⟨0, 0⟩
  writeIssued := false

/-- `cl_processed` -/
def clProcessed (s : DpScanAfu) : BitVec 8 :=
  setBits 0 ((List.finRange 8).map fun i => ((p16Net i).done, (s.units i).processingDone))

/-- `bit_result` -/
def bitResult (s : DpScanAfu) : ClData :=
  (List.finRange 8).foldl
    (fun r i => setSlice r (p16Net i).bitLo ((s.units i).bitResult.setWidth ((p16Net i).bitHi - (p16Net i).bitLo + 1)))
    (s.bitResultHigh.setWidth 512 <<< 128)

/-- `cl_processed == 8'b11111111` -/
def allProcessed (s : DpScanAfu) : Bool := s.clProcessed == 0b11111111#8

/-- The condition of unit `i` on `cl_processed`. -/
def enabled (s : DpScanAfu) (i : Fin 8) : Bool :=
  match (p16Net i).en with
  | none => true
  | some (hi, ones) => (s.clProcessed.extractLsb hi 0).toNat == ones

/-- `read_req_hdr.address` -/
def readReqAddress (s : DpScanAfu) : ClAddr := s.readBuffAddress + s.totalClsProcessed.setWidth 42

/-- `write_hdr` -/
def writeHdr (s : DpScanAfu) : WriteHdr where
  mdata := s.totalClsProcessed.setWidth 16
  address := s.writeBuffAddress + s.totalClsProcessed.setWidth 42

/-- `cpu_rd_csrs` -/
def cpuRdCsrs (s : DpScanAfu) (k : Fin 8) : MmioData :=
  if k = 0 then s.totalClsProcessed.setWidth 64
  else if k = 1 then (BitVec.ofBool s.partitionProcessed).setWidth 64
  else if k = 2 then (BitVec.ofBool s.writeProcessed).setWidth 64
  else 0

/-! ## The clocked blocks -/

/-- The CSR-fed parameter registers. -/
def csrRegs (s : DpScanAfu) (w : DpWires) : DpScanAfu :=
  { s with
    newPartitionReady := (w.wrCsrs 4).en
    readBuffAddress := if (w.wrCsrs 4).en then csrClAddr (w.wrCsrs 4).data else s.readBuffAddress
    writeBuffAddress := if (w.wrCsrs 5).en then csrClAddr (w.wrCsrs 5).data else s.writeBuffAddress
    totalCls := if (w.wrCsrs 0).en then (w.wrCsrs 0).data.setWidth 7 else s.totalCls
    filterPred := if (w.wrCsrs 1).en then (w.wrCsrs 1).data.setWidth 4 else s.filterPred }

/-- The state machine. -/
def nextState (s : DpScanAfu) (w : DpWires) : TState :=
  if w.reset then .waiting
  else match s.state with
    | .waiting => if s.newPartitionReady then .idle else .waiting
    | .idle => if s.clReqAllowed then .req else if s.partitionProcessed then .waiting else .idle
    | .req => if s.clReqIssued then .rsp else .req
    | .rsp => if s.clReceived then .processing else .rsp
    | .processing => if s.allProcessed then .idle else .processing

/-- `(total_cls_processed + 1)` in the comparisons, at 32 bits. -/
def nextCount (s : DpScanAfu) : BitVec 32 := s.totalClsProcessed.setWidth 32 + 1

/-- Main AFU logic. The comparisons are at 32 bits, the counter keeps 6. -/
def mainLogic (s : DpScanAfu) (w : DpWires) : DpScanAfu :=
  if w.reset then { s with clReqAllowed := true, totalClsProcessed := 0, partitionProcessed := false }
  else if s.newPartitionReady then
    { s with clReqAllowed := true, totalClsProcessed := 0, partitionProcessed := false }
  else if s.state = .processing ∧ s.allProcessed = true then
    { s with
      clReqAllowed := decide (s.nextCount < s.totalCls.setWidth 32)
      partitionProcessed := s.nextCount == s.totalCls.setWidth 32
      totalClsProcessed := s.totalClsProcessed + 1 }
  else if s.state = .waiting then { s with totalClsProcessed := 0 }
  else if s.state = .waiting ∧ s.newPartitionReady = true then { s with partitionProcessed := false }
  else s

/-- Read request. -/
def readRequest (s : DpScanAfu) (w : DpWires) : DpScanAfu :=
  if w.reset then { s with c0Valid := false }
  else if s.state = .req then
    { s with
      c0Valid := !w.c0TxAlmFull && !s.clReqIssued
      c0Address := s.readReqAddress
      clReqIssued := !w.c0TxAlmFull && !s.clReqIssued }
  else if s.state = .rsp then { s with clReqIssued := false }
  else s

/-- Read response; not gated by `reset`. -/
def readResponse (s : DpScanAfu) (w : DpWires) : DpScanAfu :=
  if s.state = .rsp then { s with clReceived := w.readRsp.isSome, rspData := w.readRsp.getD s.rspData }
  else if s.state = .processing then { s with clReceived := false }
  else s

/-- The eight `p16`: `reset` in `STATE_IDLE`, each enabled in `STATE_PROCESSING` by the ones below it. -/
def clockUnits (s : DpScanAfu) (i : Fin 8) : SliceUnit 16 :=
  p16 (s.state = .idle) (decide (s.state = .processing) && s.enabled i) s.filterPred
    ((s.rspData.extractLsb (p16Net i).clHi (p16Net i).clLo).setWidth 64) (s.units i)

/-- Control logic for memory writes. -/
def memoryWrite (s : DpScanAfu) (w : DpWires) : DpScanAfu :=
  let post := decide (s.state = .processing) && s.allProcessed && !w.c1TxAlmFull
  if w.reset then { s with c1Valid := false, bitResultHigh := 0 }
  else { s with c1Valid := post, c1Data := s.bitResult, c1Hdr := s.writeHdr, writeIssued := !post }

/-- `write_processed` -/
def writeAck (s : DpScanAfu) (w : DpWires) : Bool :=
  if w.reset then false
  else if s.partitionProcessed && w.writeRsp then true
  else if s.state = .idle ∧ s.clProcessed = 0 then false
  else s.writeProcessed

/-- One clock edge: every register is taken from the block that drives it. -/
def step (s : DpScanAfu) (w : DpWires) : DpScanAfu where
  newPartitionReady := (s.csrRegs w).newPartitionReady
  readBuffAddress := (s.csrRegs w).readBuffAddress
  writeBuffAddress := (s.csrRegs w).writeBuffAddress
  totalCls := (s.csrRegs w).totalCls
  filterPred := (s.csrRegs w).filterPred
  state := s.nextState w
  clReqAllowed := (s.mainLogic w).clReqAllowed
  clReqIssued := (s.readRequest w).clReqIssued
  clReceived := (s.readResponse w).clReceived
  partitionProcessed := (s.mainLogic w).partitionProcessed
  writeProcessed := s.writeAck w
  totalClsProcessed := (s.mainLogic w).totalClsProcessed
  rspData := (s.readResponse w).rspData
  units := s.clockUnits
  bitResultHigh := (s.memoryWrite w).bitResultHigh
  c0Valid := (s.readRequest w).c0Valid
  c0Address := (s.readRequest w).c0Address
  c1Valid := (s.memoryWrite w).c1Valid
  c1Data := (s.memoryWrite w).c1Data
  c1Hdr := (s.memoryWrite w).c1Hdr
  writeIssued := (s.memoryWrite w).writeIssued

end DpScanAfu

/-! ## What the slices drive -/

section Nets
variable (s : DpScanAfu)

theorem getLsbD_clProcessed (i : Fin 8) : s.clProcessed.getLsbD i = (s.units i).processingDone := by
  have hrange : (List.finRange 8).map (fun i => ((p16Net i).done, (s.units i).processingDone)) =
      (List.range 8).map fun k => (k, (s.units (Fin.ofNat 8 k)).processingDone) := by
    rw [← List.map_coe_finRange_eq_range, List.map_map]
    refine List.map_congr_left fun i _ => ?_
    rw [p16Net_eq]
    simp
  rw [DpScanAfu.clProcessed, hrange, getLsbD_setBits_range _ _ 8 (by decide), if_pos i.isLt]
  simp

theorem clProcessed_eq_iff (v : BitVec 8) :
    s.clProcessed = v ↔ ∀ i : Fin 8, (s.units i).processingDone = v.getLsbD i := by
  constructor
  · rintro rfl i
    exact (getLsbD_clProcessed s i).symm
  · intro h
    apply BitVec.eq_of_getLsbD_eq
    intro k hk
    exact (getLsbD_clProcessed s ⟨k, hk⟩).trans (h ⟨k, hk⟩)

theorem allProcessed_iff : s.allProcessed = true ↔ ∀ i, (s.units i).processingDone = true := by
  have hones : ∀ i : Fin 8, (0b11111111#8).getLsbD i = true := by decide
  unfold DpScanAfu.allProcessed
  rw [beq_iff_eq, clProcessed_eq_iff]
  simp only [hones]

/-- A unit is enabled once all units below it are done. -/
theorem enabled_iff (i : Fin 8) : s.enabled i = true ↔ ∀ k < i, (s.units k).processingDone = true := by
  unfold DpScanAfu.enabled
  rw [p16Net_eq]
  by_cases hi : i.val = 0
  · have hnone : ∀ k, ¬ k < i := by
      intro k hk
      have hlt : k.val < i.val := hk
      omega
    simp [hi, hnone]
  · have hones := toNat_extractLsb_ones s.clProcessed (i.val - 1)
    rw [Nat.sub_add_cancel (by omega)] at hones
    simp only [if_neg hi, beq_iff_eq, hones]
    constructor
    · intro h k hk
      have hlt : k.val < i.val := hk
      rw [← getLsbD_clProcessed]
      exact h k (by omega)
    · intro h k hk
      have hlt := i.isLt
      exact (getLsbD_clProcessed s ⟨k, by omega⟩).trans (h ⟨k, by omega⟩ (show k < i.val by omega))

/-- What comes into unit `i` is slice `i` of the line. -/
theorem slice_in (i : Fin 8) (cl : ClData) :
    (cl.extractLsb (p16Net i).clHi (p16Net i).clLo).setWidth 64 = lane 64 i cl := by
  rw [p16Net_eq]
  apply BitVec.eq_of_toNat_eq
  rw [BitVec.toNat_setWidth, toNat_extractLsb_lane 64 i cl (by decide), Nat.mod_eq_of_lt (lane 64 i cl).isLt]

/-- Unit `i` drives slice `i` of the result. -/
theorem getLsbD_bitResult {l : Nat} (hl : l < 512) : s.bitResult.getLsbD l =
    if h : l < 128 then (s.units ⟨l / 16, by omega⟩).bitResult.getLsbD (l % 16)
    else s.bitResultHigh.getLsbD (l - 128) := by
  have hwidth : ∀ (r : ClData) (lo m : Nat) (c : BitVec 16), m = 16 → setSlice r lo (c.setWidth m) = setSlice r lo c := by
    rintro r lo _ c rfl
    rw [BitVec.setWidth_eq]
  have hslice : (fun (r : ClData) (i : Fin 8) => setSlice r (p16Net i).bitLo
      ((s.units i).bitResult.setWidth ((p16Net i).bitHi - (p16Net i).bitLo + 1))) =
        fun (r : ClData) (i : Fin 8) => setSlice r (16 * i.val) (s.units (Fin.ofNat 8 i.val)).bitResult := by
    funext r i
    rw [p16Net_eq, hwidth r _ _ _ (by simp only; omega)]
    simp
  have hrange : s.bitResult = (List.range 8).foldl
      (fun r k => setSlice r (16 * k) (s.units (Fin.ofNat 8 k)).bitResult) (s.bitResultHigh.setWidth 512 <<< 128) := by
    rw [DpScanAfu.bitResult, hslice, ← List.map_coe_finRange_eq_range, List.foldl_map]
  rw [hrange, getLsbD_foldl_setSlice _ _ _ hl]
  by_cases hlow : l < 128
  · have hunit : Fin.ofNat 8 (l / 16) = ⟨l / 16, by omega⟩ := Fin.ext (Nat.mod_eq_of_lt (show l / 16 < 8 by omega))
    rw [if_pos hlow, dif_pos hlow, hunit]
  · rw [if_neg hlow, dif_neg hlow, BitVec.getLsbD_shiftLeft, BitVec.getLsbD_setWidth]
    simp [hl, hlow, show l - 128 < 512 by omega]

end Nets

/-! ## The chain of slices -/

/-- The units below `j` have filtered their slices of `cl`, the others are as `STATE_IDLE` leaves them. -/
def DpScanAfu.Chain (s : DpScanAfu) (predicate : BitVec 4) (cl : ClData) (j : Nat) : Prop :=
  ∀ i : Fin 8, s.units i =
    if i.val < j then p16 false true predicate (lane 64 i cl) (SliceUnit.cleared 16) else SliceUnit.cleared 16

section Chain
variable {s : DpScanAfu} {w : DpWires} {predicate : BitVec 4} {cl : ClData} {j : Nat}

theorem DpScanAfu.Chain.done (h : s.Chain predicate cl j) (i : Fin 8) :
    (s.units i).processingDone = decide (i.val < j) := by
  rw [h i]
  by_cases hi : i.val < j
  · rw [if_pos hi, decide_eq_true hi]
    rfl
  · rw [if_neg hi, decide_eq_false hi]
    rfl

theorem DpScanAfu.Chain.allProcessed (h : s.Chain predicate cl j) : s.allProcessed = decide (8 ≤ j) := by
  rw [Bool.eq_iff_iff, allProcessed_iff, decide_eq_true_iff]
  simp only [h.done, decide_eq_true_iff]
  constructor
  · intro hall
    exact hall 7
  · intro hj i
    omega

/-- Nothing is left of a line when the chain is empty. -/
theorem DpScanAfu.Chain.of_zero (h : s.Chain predicate cl 0) (predicate' : BitVec 4) (cl' : ClData) :
    s.Chain predicate' cl' 0 := by
  intro i
  simpa using h i

theorem DpScanAfu.Chain.congr {s' : DpScanAfu} (h : s.Chain predicate cl j) (hu : s'.units = s.units) :
    s'.Chain predicate cl j := by
  intro i
  rw [hu]
  exact h i

variable (w) in
theorem chain_step_idle (hs : s.state = .idle) : (s.step w).Chain predicate cl 0 := by
  intro i
  simp [DpScanAfu.step, DpScanAfu.clockUnits, p16, SliceUnit.clock, SliceUnit.cleared, hs]

/-- Outside `STATE_IDLE` and `STATE_PROCESSING` the units hold their outputs. -/
theorem units_step_hold (hidle : s.state ≠ .idle) (hproc : s.state ≠ .processing) : (s.step w).units = s.units := by
  funext i
  simp [DpScanAfu.step, DpScanAfu.clockUnits, p16, SliceUnit.clock, hidle, hproc]

variable (w) in
/-- A cycle of `STATE_PROCESSING`: the slices that are done are filtered again, and one more is. -/
theorem DpScanAfu.Chain.step_processing (h : s.Chain predicate cl j) (hs : s.state = .processing) :
    (s.step w).Chain s.filterPred s.rspData (j + 1) := by
  intro i
  have hen : s.enabled i = decide (i.val ≤ j) := by
    rw [Bool.eq_iff_iff, enabled_iff, decide_eq_true_iff]
    simp only [h.done, decide_eq_true_iff]
    constructor
    · intro hall
      by_contra hlt
      exact absurd (hall ⟨j, by omega⟩ (show j < i.val by omega)) (Nat.lt_irrefl j)
    · intro hle k hk
      exact Nat.lt_of_lt_of_le hk hle
  show s.clockUnits i = _
  unfold DpScanAfu.clockUnits
  rw [hs, hen, slice_in]
  by_cases hi : i.val ≤ j
  · rw [if_pos (Nat.lt_succ_of_le hi), decide_eq_true hi]
    exact clock_eq_cleared s.filterPred (by decide) _ _
  · rw [if_neg (by omega), decide_eq_false hi, h i, if_neg (by omega)]
    rfl

/-- Once all slices are done, the low half of `bit_result` is the whole line filtered. -/
theorem DpScanAfu.Chain.bitResult (h : s.Chain predicate cl j) (hj : 8 ≤ j) (u : SliceUnit 128) :
    s.bitResult.extractLsb' 0 128 = (filterUnit false true predicate cl u).bitResult := by
  apply BitVec.eq_of_getLsbD_eq
  intro l hl
  have hunit := h ⟨l / 16, by omega⟩
  rw [if_pos (show l / 16 < j by omega)] at hunit
  have hlane := getLsbD_slice predicate (m := 16) (by decide) cl (SliceUnit.cleared 16) (i := l / 16)
    (Nat.mod_lt l (by decide)) (Nat.div_add_mod l 16)
  rw [BitVec.getLsbD_extractLsb', decide_eq_true hl, Bool.true_and, Nat.zero_add, getLsbD_bitResult s (by omega),
    dif_pos hl, getLsbD_filterUnit predicate cl u hl, hunit]
  exact hlane

end Chain

end SdbFpga.Fpga
