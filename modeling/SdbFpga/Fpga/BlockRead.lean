import SdbFpga.Fpga.ScanAfu

/-!
# `block_read`: registers and one clock edge

The application AFU of the block read design: the host announces a block of cache lines, the AFU reads them one at a
time and leaves the filter result of each in a CSR. As for `scan_afu`, each `always_ff` block is a function to the
registers it drives.

* `BlockWires` : the inputs of one cycle; `BlockRead` : the registers, outputs included;
* `BlockRead.step` : one clock edge; `BlockRead.cpuRdCsrs` : the CSRs the host reads;
* `p64Block` : the filter unit, `lineVector` : its result for one line, `p64Block_lineVector`.
-/

namespace SdbFpga.Fpga
open Bits

/-- A read response: `cp2af_sRx.c0` with `cci_c0Rx_isReadRsp`. -/
structure ReadRsp where
  mdata : BitVec 16
  data : ClData
  deriving DecidableEq, Repr

/-- The fields of `t_ccip_c0_ReqMemHdr` that vary. -/
structure ReadHdr where
  mdata : BitVec 16
  address : ClAddr
  deriving DecidableEq, Repr

/-- The input wires of one cycle. -/
structure BlockWires where
  reset : Bool
  wrCsrs : Fin 8 → WrCsr
  c0TxAlmFull : Bool
  readRsp : Option ReadRsp

/-- `t_state`. -/
inductive BlockState
  | idle
  | read
  | done
  deriving DecidableEq, Repr

/-- The registers of `app_afu_cci`; `c0` is the registered output `af2cp_sTx.c0`, `rdCsrs` the ones among
`csrs.cpu_rd_csrs` that are clocked (2 to 6). -/
structure BlockRead where
  state : BlockState
  newBlockReceived : Bool
  readBuffAddress : ClAddr
  queryCompleted : Bool
  totalCls : BitVec 7
  filterPred : BitVec 32
  bitEncoding : BitVec 2
  clOffset : BitVec 7
  clsProcessed : BitVec 7
  readsAllowed : Bool
  c0Valid : Bool
  c0Hdr : ReadHdr
  rspReceived : Bool
  clBlock : BitVec 6
  bitResult : BitVec 64
  rdCsrs : Fin 8 → MmioData

/-! ## Wires derived from the registers -/

/-- `requests_done`. -/
def BlockRead.requestsDone (s : BlockRead) : Bool := s.clOffset == s.totalCls

/-- `reads_done`. -/
def BlockRead.readsDone (s : BlockRead) : Bool := s.clsProcessed == s.totalCls

/-- `read_req_hdr`. -/
def BlockRead.readReqHdr (s : BlockRead) : ReadHdr where
  mdata := s.clOffset.setWidth 16
  address := s.readBuffAddress + s.clOffset.setWidth 42

/-- `cpu_rd_csrs`: index 0 exports `reads_done`, 1 and 7 read as zero. -/
def BlockRead.cpuRdCsrs (s : BlockRead) (k : Fin 8) : MmioData :=
  if k = 0 then (BitVec.ofBool s.readsDone).setWidth 64
  else if k = 1 ∨ k = 7 then 0
  else s.rdCsrs k

/-! ## The filter unit -/

/-- One clock edge of `p64_1block`: `code <= predicate` for the 64 bytes of a line. -/
def p64Block (reset en : Bool) (incomingCl : ClData) (predicate : BitVec 8) (bitResult : BitVec 64) : BitVec 64 :=
  if reset then 0
  else if en then
    setBits bitResult
      (lanes8.map fun l => (l.1, decide ((incomingCl.extractLsb l.2.1 l.2.2).toNat ≤ predicate.toNat)))
  else bitResult

/-- The result for one line: `scan_8bit` is enabled under bit encoding 1 only. -/
def lineVector (bitEncoding : BitVec 2) (filterPred : BitVec 32) (cl : ClData) : BitVec 64 :=
  p64Block false (bitEncoding == 1) cl (filterPred.setWidth 8) 0

/-! ## The clocked blocks -/

/-- The state machine. -/
def BlockRead.nextState (s : BlockRead) (w : BlockWires) : BlockState :=
  if w.reset then .idle
  else match s.state with
    | .idle => if s.newBlockReceived then .read else if s.queryCompleted then .done else .idle
    | .read => if s.readsDone then .idle else .read
    | .done => .done

/-- The CSR-fed parameter registers (five blocks), none of them reset. -/
def BlockRead.csrRegs (s : BlockRead) (w : BlockWires) : BlockRead :=
  { s with
    newBlockReceived := (w.wrCsrs 3).en
    readBuffAddress := if (w.wrCsrs 3).en then csrClAddr (w.wrCsrs 3).data else s.readBuffAddress
    queryCompleted := if (w.wrCsrs 5).en then (w.wrCsrs 5).en else s.queryCompleted
    totalCls := if (w.wrCsrs 0).en then (w.wrCsrs 0).data.setWidth 7 else s.totalCls
    filterPred := if (w.wrCsrs 1).en then (w.wrCsrs 1).data.setWidth 32 else s.filterPred
    bitEncoding := if (w.wrCsrs 2).en then (w.wrCsrs 2).data.setWidth 2 else s.bitEncoding }

/-- Decide if reads will be allowed. -/
def BlockRead.allowReads (s : BlockRead) (w : BlockWires) : Bool :=
  if w.reset then false
  else if s.readsAllowed then w.c0TxAlmFull
  else s.newBlockReceived || (!s.readsDone && !s.requestsDone && w.readRsp.isSome)

/-- Read request. -/
def BlockRead.readRequest (s : BlockRead) (w : BlockWires) : BlockRead :=
  if w.reset then { s with c0Valid := false }
  else { s with c0Valid := !s.readsDone && s.readsAllowed && !w.c0TxAlmFull, c0Hdr := s.readReqHdr }

/-- Read response. -/
def BlockRead.readResponse (s : BlockRead) (w : BlockWires) : BlockRead :=
  if w.reset then { s with rspReceived := false }
  else match w.readRsp with
    | some rsp => { s with rspReceived := true, clBlock := rsp.mdata.setWidth 6 }
    | none => { s with rspReceived := false }

/-- The two line counters, under one priority chain. -/
def BlockRead.counters (s : BlockRead) (w : BlockWires) : BlockRead :=
  if s.newBlockReceived then { s with clsProcessed := 0, clOffset := 0 }
  else if s.c0Valid then { s with clOffset := s.clOffset + 1 }
  else if w.readRsp.isSome then { s with clsProcessed := s.clsProcessed + 1 }
  else s

/-- `scan_8bit`. -/
def BlockRead.scan8bit (s : BlockRead) (w : BlockWires) : BitVec 64 :=
  p64Block (w.reset || s.newBlockReceived) (s.bitEncoding == 1 && w.readRsp.isSome)
    ((w.readRsp.map ReadRsp.data).getD 0) (s.filterPred.setWidth 8) s.bitResult

/-- The result CSRs. -/
def BlockRead.resultCsrs (s : BlockRead) (w : BlockWires) (k : Fin 8) : MmioData :=
  if w.reset then if 2 ≤ k ∧ k ≤ 6 then 0 else s.rdCsrs k
  else if s.rspReceived then
    if k = 2 then s.clBlock.setWidth 64 else if k = 3 then s.bitResult else s.rdCsrs k
  else s.rdCsrs k

/-- One clock edge: every register is taken from the block that drives it. -/
def BlockRead.step (s : BlockRead) (w : BlockWires) : BlockRead where
  state := s.nextState w
  newBlockReceived := (s.csrRegs w).newBlockReceived
  readBuffAddress := (s.csrRegs w).readBuffAddress
  queryCompleted := (s.csrRegs w).queryCompleted
  totalCls := (s.csrRegs w).totalCls
  filterPred := (s.csrRegs w).filterPred
  bitEncoding := (s.csrRegs w).bitEncoding
  clOffset := (s.counters w).clOffset
  clsProcessed := (s.counters w).clsProcessed
  readsAllowed := s.allowReads w
  c0Valid := (s.readRequest w).c0Valid
  c0Hdr := (s.readRequest w).c0Hdr
  rspReceived := (s.readResponse w).rspReceived
  clBlock := (s.readResponse w).clBlock
  bitResult := s.scan8bit w
  rdCsrs := s.resultCsrs w

/-! ## The filter unit over one line -/

theorem getLsbD_p64Block (cl : ClData) (predicate : BitVec 8) (old : BitVec 64) (k : Nat) (hk : k < 64) :
    (p64Block false true cl predicate old).getLsbD k = decide ((lane 8 k cl).toNat ≤ predicate.toNat) := by
  have h := getLsbD_setBits_range old (fun k => decide ((lane 8 k cl).toNat ≤ predicate.toNat)) 64 le_rfl k
  rw [if_pos hk] at h
  rw [← h, p64Block, lanes8_eq, List.map_map]
  simp only [Bool.false_eq_true, if_false, if_true, ← toNat_extractLsb_lane 8 _ cl (by decide)]
  rfl

/-- All 64 bits are assigned, so nothing of the last line's result remains. -/
theorem p64Block_old (cl : ClData) (predicate : BitVec 8) (old old' : BitVec 64) :
    p64Block false true cl predicate old = p64Block false true cl predicate old' := by
  apply BitVec.eq_of_getLsbD_eq
  intro k hk
  rw [getLsbD_p64Block _ _ _ _ hk, getLsbD_p64Block _ _ _ _ hk]

end SdbFpga.Fpga
