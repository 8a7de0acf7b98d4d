import SdbFpga.Fpga.FilterUnits

/-!
# `scan_afu`: registers and one clock edge

Each `always_ff` block of the source is a function from the registers before the edge and the wires of the cycle to
the registers it drives; `ScanAfu.step` takes every register from its block, so all right-hand sides read the old
values (nonblocking assignment). Wires of the `always_comb` blocks are functions of the registers.

* `Wires` : the inputs of one cycle; `ScanAfu` : the registers, outputs included;
* `ScanAfu.step` : one clock edge; `ScanAfu.cpuRdCsrs` : the CSRs the host reads;
* `scanLine` : the result line, `scanLine_dYear` and so on: it is the selected unit's alone;
* `step_waiting`, `step_idle`, ... : the edge in each state, while active and not in reset.
-/

namespace SdbFpga.Fpga

/-! ## Widths of the platform (CCI-P) -/

/-- `t_ccip_clAddr`: address of a 64-byte line. -/
abbrev ClAddr := BitVec 42

/-- `t_ccip_mmioData`. -/
abbrev MmioData := BitVec 64

/-- `byteAddrToClAddr`: the argument is a 48-bit byte address, the line address its bits `[47:6]`. -/
def byteAddrToClAddr (addr : BitVec 48) : ClAddr := addr.extractLsb' 6 42

/-- A CSR value passed to `byteAddrToClAddr`, truncated to its argument. -/
def csrClAddr (data : MmioData) : ClAddr := byteAddrToClAddr (data.setWidth 48)

/-- There are eight CSRs. -/
instance neZero_csrs : NeZero 8 := ⟨by decide⟩

/-- `cpu_wr_csrs[i]`: `en` is high for the one cycle in which a write arrives. -/
structure WrCsr where
  data : MmioData
  en : Bool
  deriving DecidableEq, Repr

/-- The input wires of one cycle. `readRsp` is `cp2af_sRx.c0` read through `cci_c0Rx_isReadRsp`, `writeRsp` is
`cci_c1Rx_isWriteRsp(cp2af_sRx.c1)`. -/
structure Wires where
  reset : Bool
  isActive : Bool
  wrCsrs : Fin 8 → WrCsr
  c0TxAlmFull : Bool
  c1TxAlmFull : Bool
  readRsp : Option ClData
  writeRsp : Bool

/-- `t_state`. -/
inductive TState
  | waiting
  | idle
  | req
  | rsp
  | processing
  deriving DecidableEq, Repr

/-- The fields of `t_ccip_c1_ReqMemHdr` that vary. -/
structure WriteHdr where
  mdata : BitVec 16
  address : ClAddr
  deriving DecidableEq, Repr

/-- The three units of the scan. -/
structure FilterUnits where
  dYear : FilterUnit
  loDiscount : FilterUnit
  loQuantity : FilterUnit
  deriving DecidableEq, Repr

/-- The registers of `scan_afu`; `c0` and `c1` are the registered outputs `af2cp_sTx.c0` and `.c1`. -/
structure ScanAfu where
  newPartitionReady : Bool
  readBuffAddress : ClAddr
  writeBuffAddress : ClAddr
  totalCls : BitVec 7
  filterPred : BitVec 8
  scanColumn : BitVec 2
  state : TState
  clReqAllowed : Bool
  clReqIssued : Bool
  clReceived : Bool
  partitionProcessed : Bool
  writeProcessed : Bool
  totalClsProcessed : BitVec 32
  rspData : ClData
  units : FilterUnits
  c0Valid : Bool
  c0Address : ClAddr
  c1Valid : Bool
  c1Data : ClData
  c1Hdr : WriteHdr
  writeIssued : Bool
  deriving DecidableEq, Repr

/-! ## Wires derived from the registers -/

/-- `cl_processed != 0`: one of the `processing_done` outputs is high. -/
def FilterUnits.clProcessed (u : FilterUnits) : Bool :=
  u.dYear.processingDone || u.loDiscount.processingDone || u.loQuantity.processingDone

/-- `bit_result_1 | bit_result_2 | bit_result_3`. -/
def FilterUnits.bitResult (u : FilterUnits) : ClData :=
  u.dYear.bitResult ||| u.loDiscount.bitResult ||| u.loQuantity.bitResult

/-- `read_req_hdr.address`. -/
def ScanAfu.readReqAddress (s : ScanAfu) : ClAddr := s.readBuffAddress + s.totalClsProcessed.setWidth 42

/-- `write_hdr`. -/
def ScanAfu.writeHdr (s : ScanAfu) : WriteHdr where
  mdata := s.totalClsProcessed.setWidth 16
  address := s.writeBuffAddress + s.totalClsProcessed.setWidth 42

/-- `cpu_rd_csrs`: index 1 exports `partition_processed`, index 5 the join unit's flag, the rest read as zero. -/
def ScanAfu.cpuRdCsrs (s : ScanAfu) (joinPartitionProcessed : Bool) (k : Fin 8) : MmioData :=
  if k = 1 then (BitVec.ofBool s.partitionProcessed).setWidth 64
  else if k = 5 then (BitVec.ofBool joinPartitionProcessed).setWidth 64
  else 0

/-! ## The clocked blocks -/

/-- The CSR-fed parameter registers (five blocks). -/
def ScanAfu.csrRegs (s : ScanAfu) (w : Wires) : ScanAfu :=
  { s with
    newPartitionReady := if w.isActive then (w.wrCsrs 4).en else s.newPartitionReady
    readBuffAddress := if w.isActive && (w.wrCsrs 4).en then csrClAddr (w.wrCsrs 4).data else s.readBuffAddress
    writeBuffAddress := if (w.wrCsrs 5).en && w.isActive then csrClAddr (w.wrCsrs 5).data else s.writeBuffAddress
    totalCls := if (w.wrCsrs 0).en && w.isActive then (w.wrCsrs 0).data.setWidth 7 else s.totalCls
    filterPred := if (w.wrCsrs 1).en && w.isActive then (w.wrCsrs 1).data.setWidth 8 else s.filterPred
    scanColumn := if (w.wrCsrs 2).en && w.isActive then (w.wrCsrs 2).data.setWidth 2 else s.scanColumn }

/-- The state machine. -/
def ScanAfu.nextState (s : ScanAfu) (w : Wires) : TState :=
  if w.reset then .waiting
  else match s.state with
    | .waiting => if s.newPartitionReady then .idle else .waiting
    | .idle => if s.clReqAllowed then .req else if s.partitionProcessed then .waiting else .idle
    | .req => if s.clReqIssued then .rsp else .req
    | .rsp => if s.clReceived then .processing else .rsp
    | .processing => if s.units.clProcessed then .idle else .processing

/-- Main AFU logic. The comparisons are at 32 bits, `total_cls` extended with zeros. -/
def ScanAfu.mainLogic (s : ScanAfu) (w : Wires) : ScanAfu :=
  if w.reset then { s with clReqAllowed := true, totalClsProcessed := 0, partitionProcessed := false }
  else if s.newPartitionReady then
    { s with clReqAllowed := true, totalClsProcessed := 0, partitionProcessed := false }
  else if s.state = .processing ∧ s.units.clProcessed = true then
    { s with
      clReqAllowed := decide (s.totalClsProcessed + 1 < s.totalCls.setWidth 32)
      partitionProcessed := s.totalClsProcessed + 1 == s.totalCls.setWidth 32
      totalClsProcessed := s.totalClsProcessed + 1 }
  else if s.state = .waiting ∧ s.newPartitionReady = true then { s with partitionProcessed := false }
  else if s.state = .waiting then { s with totalClsProcessed := 0 }
  else s

/-- Read request. -/
def ScanAfu.readRequest (s : ScanAfu) (w : Wires) : ScanAfu :=
  if w.reset then { s with c0Valid := false }
  else if s.state = .req then
    { s with
      c0Valid := !w.c0TxAlmFull && !s.clReqIssued
      c0Address := s.readReqAddress
      clReqIssued := !w.c0TxAlmFull && !s.clReqIssued }
  else if s.state = .rsp then { s with clReqIssued := false }
  else s

/-- Read response; not gated by `reset`. -/
def ScanAfu.readResponse (s : ScanAfu) (w : Wires) : ScanAfu :=
  if s.state = .rsp then { s with clReceived := w.readRsp.isSome, rspData := w.readRsp.getD s.rspData }
  else if s.state = .processing then { s with clReceived := false }
  else s

/-- The three filter units: `reset` in `STATE_IDLE`, the selected one enabled in `STATE_PROCESSING`. -/
def FilterUnits.clock (u : FilterUnits) (state : TState) (scanColumn : BitVec 2) (filterPred : BitVec 8)
    (rspData : ClData) : FilterUnits where
  dYear := Fpga.dYear (state = .idle) (state = .processing ∧ scanColumn = 0) (filterPred.extractLsb' 0 4)
    rspData u.dYear
  loDiscount := Fpga.loDiscount (state = .idle) (state = .processing ∧ scanColumn = 1)
    (filterPred.extractLsb' 0 4) (filterPred.extractLsb' 4 4) rspData u.loDiscount
  loQuantity := Fpga.loQuantity (state = .idle) (state = .processing ∧ scanColumn = 2) filterPred
    rspData u.loQuantity

/-- Control logic for memory writes. -/
def ScanAfu.memoryWrite (s : ScanAfu) (w : Wires) : ScanAfu :=
  let post := decide (s.state = .processing) && s.units.clProcessed && !w.c1TxAlmFull
  if w.reset then { s with c1Valid := false }
  else { s with c1Valid := post, c1Data := s.units.bitResult, c1Hdr := s.writeHdr, writeIssued := !post }

/-- `write_processed`. -/
def ScanAfu.writeAck (s : ScanAfu) (w : Wires) : Bool :=
  if w.reset || s.newPartitionReady then false
  else if s.partitionProcessed && w.writeRsp then true
  else if s.state = .idle ∧ s.units.clProcessed = false then false
  else s.writeProcessed

/-- One clock edge: every register is taken from the block that drives it. -/
def ScanAfu.step (s : ScanAfu) (w : Wires) : ScanAfu where
  newPartitionReady := (s.csrRegs w).newPartitionReady
  readBuffAddress := (s.csrRegs w).readBuffAddress
  writeBuffAddress := (s.csrRegs w).writeBuffAddress
  totalCls := (s.csrRegs w).totalCls
  filterPred := (s.csrRegs w).filterPred
  scanColumn := (s.csrRegs w).scanColumn
  state := s.nextState w
  clReqAllowed := (s.mainLogic w).clReqAllowed
  clReqIssued := (s.readRequest w).clReqIssued
  clReceived := (s.readResponse w).clReceived
  partitionProcessed := (s.mainLogic w).partitionProcessed
  writeProcessed := s.writeAck w
  totalClsProcessed := (s.mainLogic w).totalClsProcessed
  rspData := (s.readResponse w).rspData
  units := s.units.clock s.state s.scanColumn s.filterPred s.rspData
  c0Valid := (s.readRequest w).c0Valid
  c0Address := (s.readRequest w).c0Address
  c1Valid := (s.memoryWrite w).c1Valid
  c1Data := (s.memoryWrite w).c1Data
  c1Hdr := (s.memoryWrite w).c1Hdr
  writeIssued := (s.memoryWrite w).writeIssued

/-! ## The filter units over one line -/

/-- The units as `STATE_IDLE` leaves them. -/
def FilterUnits.cleared : FilterUnits := ⟨⟨0, false⟩, ⟨0, false⟩, ⟨0, false⟩⟩

/-- The units after one enabled edge on a line, from the cleared ones. -/
def FilterUnits.filtered (scanColumn : BitVec 2) (filterPred : BitVec 8) (cl : ClData) : FilterUnits :=
  FilterUnits.cleared.clock .processing scanColumn filterPred cl

/-- The result line for cache line `cl`: what the selected unit computes. -/
def scanLine (scanColumn : BitVec 2) (filterPred : BitVec 8) (cl : ClData) : ClData :=
  (FilterUnits.filtered scanColumn filterPred cl).bitResult

theorem clock_idle (u : FilterUnits) (c : BitVec 2) (p : BitVec 8) (cl : ClData) :
    u.clock .idle c p cl = FilterUnits.cleared := rfl

/-- Outside `STATE_IDLE` and `STATE_PROCESSING` the units hold their outputs. -/
theorem clock_other (u : FilterUnits) (st : TState) (c : BitVec 2) (p : BitVec 8) (cl : ClData)
    (h1 : st ≠ .idle) (h2 : st ≠ .processing) : u.clock st c p cl = u := by
  simp [FilterUnits.clock, dYear, loDiscount, loQuantity, FilterUnit.clock, h1, h2]

/-! The units that are not selected leave their cleared bits. -/

theorem scanLine_dYear (p : BitVec 8) (cl : ClData) :
    scanLine 0 p cl = (dYear false true (p.extractLsb' 0 4) cl ⟨0, false⟩).bitResult := by
  show (dYear false true _ cl _).bitResult ||| 0#512 ||| 0#512 = _
  rw [BitVec.or_zero, BitVec.or_zero]
  rfl

theorem scanLine_loDiscount (p : BitVec 8) (cl : ClData) :
    scanLine 1 p cl = (loDiscount false true (p.extractLsb' 0 4) (p.extractLsb' 4 4) cl ⟨0, false⟩).bitResult := by
  show 0#512 ||| (loDiscount false true _ _ cl _).bitResult ||| 0#512 = _
  rw [BitVec.zero_or, BitVec.or_zero]
  rfl

theorem scanLine_loQuantity (p : BitVec 8) (cl : ClData) :
    scanLine 2 p cl = (loQuantity false true p cl ⟨0, false⟩).bitResult := by
  show 0#512 ||| 0#512 ||| (loQuantity false true _ cl _).bitResult = _
  rw [BitVec.or_zero, BitVec.zero_or]
  rfl

theorem clProcessed_cleared : FilterUnits.cleared.clProcessed = false := rfl

theorem clProcessed_filtered (c : BitVec 2) (p : BitVec 8) (cl : ClData) (hc : c.toNat ≤ 2) :
    (FilterUnits.filtered c p cl).clProcessed = true := by
  have h : c = 0 ∨ c = 1 ∨ c = 2 := by
    rcases c with ⟨⟨v, hv⟩⟩
    simp only [BitVec.toNat] at hc
    match v, hc with
    | 0, _ => exact .inl rfl
    | 1, _ => exact .inr (.inl rfl)
    | 2, _ => exact .inr (.inr rfl)
  rcases h with rfl | rfl | rfl <;> rfl

/-! ## One edge in each state

The unit is active and not in reset; outside `STATE_WAITING` no announcement is pending. -/

section Edge
variable {s : ScanAfu} {w : Wires} (hr : w.reset = false)
include hr

theorem step_waiting (hs : s.state = .waiting) :
    s.step w = { s.csrRegs w with
      state := if s.newPartitionReady then .idle else .waiting
      clReqAllowed := s.newPartitionReady || s.clReqAllowed
      partitionProcessed := !s.newPartitionReady && s.partitionProcessed
      totalClsProcessed := 0
      writeProcessed := s.writeAck w
      c1Valid := false
      c1Data := s.units.bitResult
      c1Hdr := s.writeHdr
      writeIssued := true } := by
  cases hn : s.newPartitionReady <;>
    simp [ScanAfu.step, ScanAfu.csrRegs, ScanAfu.nextState, ScanAfu.mainLogic, ScanAfu.readRequest,
      ScanAfu.readResponse, ScanAfu.memoryWrite, clock_other, hr, hs, hn]

variable (hn : s.newPartitionReady = false)
include hn

theorem step_idle (hs : s.state = .idle) :
    s.step w = { s.csrRegs w with
      state := if s.clReqAllowed then .req else if s.partitionProcessed then .waiting else .idle
      writeProcessed := s.writeAck w
      units := FilterUnits.cleared
      c1Valid := false
      c1Data := s.units.bitResult
      c1Hdr := s.writeHdr
      writeIssued := true } := by
  simp [ScanAfu.step, ScanAfu.csrRegs, ScanAfu.nextState, ScanAfu.mainLogic, ScanAfu.readRequest,
    ScanAfu.readResponse, ScanAfu.memoryWrite, clock_idle, hr, hs, hn]

theorem step_req (hs : s.state = .req) :
    s.step w = { s.csrRegs w with
      state := if s.clReqIssued then .rsp else .req
      clReqIssued := !w.c0TxAlmFull && !s.clReqIssued
      writeProcessed := s.writeAck w
      c0Valid := !w.c0TxAlmFull && !s.clReqIssued
      c0Address := s.readReqAddress
      c1Valid := false
      c1Data := s.units.bitResult
      c1Hdr := s.writeHdr
      writeIssued := true } := by
  simp [ScanAfu.step, ScanAfu.csrRegs, ScanAfu.nextState, ScanAfu.mainLogic, ScanAfu.readRequest,
    ScanAfu.readResponse, ScanAfu.memoryWrite, clock_other, hr, hs, hn]

theorem step_rsp (hs : s.state = .rsp) :
    s.step w = { s.csrRegs w with
      state := if s.clReceived then .processing else .rsp
      clReqIssued := false
      clReceived := w.readRsp.isSome
      writeProcessed := s.writeAck w
      rspData := w.readRsp.getD s.rspData
      c1Valid := false
      c1Data := s.units.bitResult
      c1Hdr := s.writeHdr
      writeIssued := true } := by
  simp [ScanAfu.step, ScanAfu.csrRegs, ScanAfu.nextState, ScanAfu.mainLogic, ScanAfu.readRequest,
    ScanAfu.readResponse, ScanAfu.memoryWrite, clock_other, hr, hs, hn]

/-- First cycle of `STATE_PROCESSING`: the selected unit takes the line. -/
theorem step_processing_filter (hs : s.state = .processing) (hu : s.units = FilterUnits.cleared) :
    s.step w = { s.csrRegs w with
      clReceived := false
      writeProcessed := s.writeAck w
      units := FilterUnits.filtered s.scanColumn s.filterPred s.rspData
      c1Valid := false
      c1Data := FilterUnits.cleared.bitResult
      c1Hdr := s.writeHdr
      writeIssued := true } := by
  simp [ScanAfu.step, ScanAfu.csrRegs, ScanAfu.nextState, ScanAfu.mainLogic, ScanAfu.readRequest,
    ScanAfu.readResponse, ScanAfu.memoryWrite, FilterUnits.filtered, clProcessed_cleared, hr, hs, hn, hu]

/-- Last cycle of `STATE_PROCESSING`: the result line is posted unless the channel is almost full. -/
theorem step_processing_post (hs : s.state = .processing) (hu : s.units.clProcessed = true) :
    s.step w = { s.csrRegs w with
      state := .idle
      clReqAllowed := decide (s.totalClsProcessed + 1 < s.totalCls.setWidth 32)
      clReceived := false
      partitionProcessed := s.totalClsProcessed + 1 == s.totalCls.setWidth 32
      writeProcessed := s.writeAck w
      totalClsProcessed := s.totalClsProcessed + 1
      units := s.units.clock .processing s.scanColumn s.filterPred s.rspData
      c1Valid := !w.c1TxAlmFull
      c1Data := s.units.bitResult
      c1Hdr := s.writeHdr
      writeIssued := w.c1TxAlmFull } := by
  simp [ScanAfu.step, ScanAfu.csrRegs, ScanAfu.nextState, ScanAfu.mainLogic, ScanAfu.readRequest,
    ScanAfu.readResponse, ScanAfu.memoryWrite, hr, hs, hn, hu]

end Edge

end SdbFpga.Fpga
