import SdbFpga.Fpga.ScanAfu

/-!
# `join_afu` and `lineorder_date`: registers and one clock edge

The state machine of `join_afu` counts the lines itself and has no filter units: in the first cycle of
`STATE_PROCESSING` the join unit either stores the line in its bitmap or looks its 32 keys up in it.

* `LineorderDate.clock` : the join unit, `getLsbD_bitMap_store`, `getLsbD_bitResult_lookup`;
* `JoinAfu` : the registers, outputs included; `JoinAfu.step` : one clock edge.
-/

namespace SdbFpga.Fpga
open Bits

/-! ## The join unit -/

/-- `(bit, hi, lo)` : the bitmap at key `[hi:lo]` is assigned to `bit_result[bit]`. -/
def lanes16 : List (Nat × Nat × Nat) :=
  [
    (0, 15, 0), (1, 31, 16), (2, 47, 32), (3, 63, 48), (4, 79, 64), (5, 95, 80),
    (6, 111, 96), (7, 127, 112), (8, 143, 128), (9, 159, 144), (10, 175, 160), (11, 191, 176),
    (12, 207, 192), (13, 223, 208), (14, 239, 224), (15, 255, 240), (16, 271, 256), (17, 287, 272),
    (18, 303, 288), (19, 319, 304), (20, 335, 320), (21, 351, 336), (22, 367, 352), (23, 383, 368),
    (24, 399, 384), (25, 415, 400), (26, 431, 416), (27, 447, 432), (28, 463, 448), (29, 479, 464),
    (30, 495, 480), (31, 511, 496)]

theorem lanes16_eq : lanes16 = (List.range 32).map fun k => (k, 16 * k + (16 - 1), 16 * k) := by decide

/-- The registers of `lineorder_date`. -/
structure LineorderDate where
  bitMap : BitVec 2560
  bitResult : ClData
  deriving DecidableEq, Repr

/-- One clock edge of `lineorder_date`. -/
def LineorderDate.clock (u : LineorderDate) (reset readingBitmap bitmapReady : Bool) (clsProcessed : BitVec 32)
    (incomingCl : ClData) : LineorderDate where
  bitMap := if readingBitmap then setSlice u.bitMap (clsProcessed * 512).toNat incomingCl else u.bitMap
  bitResult :=
    if reset then 0
    else if bitmapReady then
      setBits u.bitResult (lanes16.map fun l => (l.1, u.bitMap.getLsbD (incomingCl.extractLsb l.2.1 l.2.2).toNat))
    else u.bitResult

theorem clock_off (u : LineorderDate) (c : BitVec 32) (cl : ClData) : u.clock false false false c cl = u := rfl

/-- Line `k` of the bitmap takes its 512 bits; a line from 2560 on is dropped. -/
theorem getLsbD_bitMap_store (u : LineorderDate) (reset ready : Bool) {k : Nat} (hk : k < 128) (cl : ClData) {j : Nat}
    (hj : j < 2560) : (u.clock reset true ready (BitVec.ofNat 32 k) cl).bitMap.getLsbD j =
      if 512 * k ≤ j ∧ j < 512 * k + 512 then cl.getLsbD (j - 512 * k) else u.bitMap.getLsbD j := by
  have hindex : (BitVec.ofNat 32 k * 512).toNat = 512 * k := by
    rw [BitVec.toNat_mul, BitVec.toNat_ofNat]
    show k % 2 ^ 32 * 512 % 2 ^ 32 = 512 * k
    omega
  show (setSlice u.bitMap (BitVec.ofNat 32 k * 512).toNat cl).getLsbD j = _
  rw [hindex, getLsbD_setSlice _ _ _ hj]

/-- Bit `l` is the bitmap at key `l`, the other bits keep their value. -/
theorem getLsbD_bitResult_lookup (u : LineorderDate) (reading : Bool) (c : BitVec 32) (cl : ClData) (l : Nat) :
    (u.clock false reading true c cl).bitResult.getLsbD l =
      if l < 32 then u.bitMap.getLsbD (lane 16 l cl).toNat else u.bitResult.getLsbD l := by
  have hread := getLsbD_setBits_range u.bitResult (fun k => u.bitMap.getLsbD (lane 16 k cl).toNat) 32 (by decide) l
  show (setBits u.bitResult (lanes16.map fun l =>
    (l.1, u.bitMap.getLsbD (cl.extractLsb l.2.1 l.2.2).toNat))).getLsbD l = _
  rw [lanes16_eq, List.map_map]
  simp only [← toNat_extractLsb_lane 16 _ cl (by decide)] at hread ⊢
  exact hread

/-! ## The unit -/

/-- The registers of `join_afu`. -/
structure JoinAfu where
  readingBitmap : Bool
  bitmapReady : Bool
  newPartitionReady : Bool
  clAddress : ClAddr
  resultAddress : ClAddr
  clsToProcess : BitVec 7
  state : TState
  partitionProcessed : Bool
  clReqAllowed : Bool
  clReqIssued : Bool
  clReceived : Bool
  clProcessed : Bool
  clsProcessed : BitVec 32
  rspData : ClData
  loDateJoin : LineorderDate
  c0Valid : Bool
  c0Address : ClAddr
  c1Valid : Bool
  c1Data : ClData
  c1Hdr : WriteHdr
  deriving DecidableEq, Repr

/-- `read_req_hdr.address`. -/
def JoinAfu.readReqAddress (s : JoinAfu) : ClAddr := s.clAddress + s.clsProcessed.setWidth 42

/-- `write_hdr`. -/
def JoinAfu.writeHdr (s : JoinAfu) : WriteHdr where
  mdata := s.clsProcessed.setWidth 16
  address := s.resultAddress + s.clsProcessed.setWidth 42

/-- The CSR-fed registers (four blocks). -/
def JoinAfu.csrRegs (s : JoinAfu) (w : Wires) : JoinAfu :=
  { s with
    readingBitmap := if w.isActive && (w.wrCsrs 6).en then (w.wrCsrs 6).data.getLsbD 0 else s.readingBitmap
    bitmapReady := if w.isActive && (w.wrCsrs 6).en then (w.wrCsrs 6).data == 0 else s.bitmapReady
    newPartitionReady := if w.isActive then (w.wrCsrs 4).en else s.newPartitionReady
    clAddress := if w.isActive && (w.wrCsrs 4).en then csrClAddr (w.wrCsrs 4).data else s.clAddress
    resultAddress := if w.isActive && (w.wrCsrs 5).en then csrClAddr (w.wrCsrs 5).data else s.resultAddress
    clsToProcess := if w.isActive && (w.wrCsrs 0).en then (w.wrCsrs 0).data.setWidth 7 else s.clsToProcess }

/-- The state machine. The comparisons are at 32 bits, `cls_to_process` extended with zeros. -/
def JoinAfu.stateMachine (s : JoinAfu) (w : Wires) : JoinAfu :=
  -- only the state is reset
  if w.reset then { s with state := .waiting }
  else match s.state with
    | .waiting =>
      if s.newPartitionReady then
        { s with state := .idle, partitionProcessed := false, clReqAllowed := true, clsProcessed := 0 }
      else s
    | .idle =>
      if s.partitionProcessed then { s with state := .waiting }
      else if s.clReqAllowed then { s with state := .req, clReqAllowed := false }
      else s
    | .req => if s.clReqIssued then { s with state := .rsp } else s
    | .rsp => if s.clReceived then { s with state := .processing } else s
    | .processing =>
      if s.clProcessed then
        { s with
          state := .idle
          clReqAllowed := decide (s.clsProcessed + 1 < s.clsToProcess.setWidth 32)
          partitionProcessed := s.clsProcessed + 1 == s.clsToProcess.setWidth 32
          clsProcessed := s.clsProcessed + 1
          clProcessed := false }
      else { s with clProcessed := true }

/-- Read request. -/
def JoinAfu.readRequest (s : JoinAfu) (w : Wires) : JoinAfu :=
  if w.reset then { s with c0Valid := false }
  else if s.state = .req then
    { s with
      c0Valid := !w.c0TxAlmFull && !s.clReqIssued
      c0Address := s.readReqAddress
      clReqIssued := !w.c0TxAlmFull && !s.clReqIssued }
  else if s.state = .rsp then { s with clReqIssued := false }
  else s

/-- Read response; not gated by `reset`. -/
def JoinAfu.readResponse (s : JoinAfu) (w : Wires) : JoinAfu :=
  if s.state = .rsp then { s with clReceived := w.readRsp.isSome, rspData := w.readRsp.getD s.rspData }
  else if s.state = .processing then { s with clReceived := false }
  else s

/-- Write request. -/
def JoinAfu.memoryWrite (s : JoinAfu) (w : Wires) : JoinAfu :=
  if w.reset then { s with c1Valid := false }
  else if s.bitmapReady = true ∧ s.clProcessed = true ∧ s.state = .processing then
    { s with c1Hdr := s.writeHdr, c1Data := s.loDateJoin.bitResult, c1Valid := !w.c1TxAlmFull }
  else { s with c1Valid := false }

/-- The join unit, enabled in the first cycle of `STATE_PROCESSING`. -/
def JoinAfu.lineorderDate (s : JoinAfu) (w : Wires) : LineorderDate :=
  s.loDateJoin.clock w.reset (decide (s.state = .processing) && !s.clProcessed && s.readingBitmap)
    (decide (s.state = .processing) && !s.clProcessed && s.bitmapReady) s.clsProcessed s.rspData

/-- One clock edge: every register is taken from the block that drives it. -/
def JoinAfu.step (s : JoinAfu) (w : Wires) : JoinAfu where
  readingBitmap := (s.csrRegs w).readingBitmap
  bitmapReady := (s.csrRegs w).bitmapReady
  newPartitionReady := (s.csrRegs w).newPartitionReady
  clAddress := (s.csrRegs w).clAddress
  resultAddress := (s.csrRegs w).resultAddress
  clsToProcess := (s.csrRegs w).clsToProcess
  state := (s.stateMachine w).state
  partitionProcessed := (s.stateMachine w).partitionProcessed
  clReqAllowed := (s.stateMachine w).clReqAllowed
  clReqIssued := (s.readRequest w).clReqIssued
  clReceived := (s.readResponse w).clReceived
  clProcessed := (s.stateMachine w).clProcessed
  clsProcessed := (s.stateMachine w).clsProcessed
  rspData := (s.readResponse w).rspData
  loDateJoin := s.lineorderDate w
  c0Valid := (s.readRequest w).c0Valid
  c0Address := (s.readRequest w).c0Address
  c1Valid := (s.memoryWrite w).c1Valid
  c1Data := (s.memoryWrite w).c1Data
  c1Hdr := (s.memoryWrite w).c1Hdr

end SdbFpga.Fpga
