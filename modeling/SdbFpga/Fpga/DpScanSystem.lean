import SdbFpga.Fpga.DpScanAfu
import SdbFpga.Lib.Transition

/-!
# Runs of the data-parallel `scan_afu` over partitions

* `DpRun` : the record of a partition, with the address of the line that each pass handles; `DpRun.observe` : what one
  clock edge adds to it;
* `DpSys` : the unit with its records;
* `DpProtocol` : what the host and the memory promise in a cycle; `dpSystem` : every run under it;
* `Finishes` : line after line, and no pass too many.
-/

namespace SdbFpga.Fpga
open Transition

/-- The record of the announced partition. -/
structure DpRun where
  /-- line address written to `CSR[4]` -/
  base : ClAddr
  /-- `total_cls` at the announcement -/
  cls : Nat
  reads : List ClAddr
  /-- responses; they answer the requests in order -/
  answered : Nat
  /-- the line that `rsp_data` holds -/
  held : ClAddr
  /-- the lines held when the unit left `STATE_PROCESSING` for `STATE_IDLE` -/
  handled : List ClAddr
  /-- `partition_processed` has become 1 -/
  processed : Bool
  deriving DecidableEq, Repr

/-- The record a `CSR[4]` write opens. -/
def DpRun.start (s : DpScanAfu) (address : MmioData) : DpRun where
  base := csrClAddr address
  cls := s.totalCls.toNat
  reads := []
  answered := 0
  held := 0
  handled := []
  processed := false

/-- The edge from `s` to `s'` under the wires `w`, as seen by the partition being processed. -/
def DpRun.observe (p : DpRun) (s : DpScanAfu) (w : DpWires) (s' : DpScanAfu) : DpRun :=
  { p with
    reads := if s'.c0Valid then p.reads ++ [s'.c0Address] else p.reads
    answered := if w.readRsp.isSome then p.answered + 1 else p.answered
    held := if s.state = .rsp ∧ w.readRsp.isSome = true then p.reads.getD p.answered 0 else p.held
    handled := if s.state = .processing ∧ s'.state = .idle then p.handled ++ [p.held] else p.handled
    processed := p.processed || (!s.partitionProcessed && s'.partitionProcessed) }

/-- The unit and the records of its run. -/
structure DpSys where
  afu : DpScanAfu
  cur : Option DpRun
  /-- read requests of earlier cycles without a response -/
  outstanding : Nat

/-- A partition is announced and not processed. -/
def DpSys.busy (σ : DpSys) : Bool := σ.cur.any fun p => !p.processed

/-- One cycle. -/
def DpSys.step (σ : DpSys) (w : DpWires) : DpSys where
  afu := σ.afu.step w
  cur := (if (w.wrCsrs 4).en then some (.start σ.afu (w.wrCsrs 4).data) else σ.cur).map
    fun p => p.observe σ.afu w (σ.afu.step w)
  outstanding := σ.outstanding - (if w.readRsp.isSome then 1 else 0) + (if σ.afu.c0Valid then 1 else 0)

/-- What the environment keeps to in one cycle: no reset, a `CSR[4]` write only in `STATE_WAITING` with no
announcement pending and `total_cls` not zero, which then stays until the partition is processed; a response only for
a request of an earlier cycle. -/
structure DpProtocol (σ : DpSys) (w : DpWires) : Prop where
  noReset : w.reset = false
  announce : (w.wrCsrs 4).en = true →
    σ.afu.state = .waiting ∧ σ.afu.newPartitionReady = false ∧ σ.afu.totalCls ≠ 0
  stable : (w.wrCsrs 4).en = true ∨ σ.busy = true → (w.wrCsrs 0).en = false
  response : w.readRsp.isSome = true → 0 < σ.outstanding

/-! ## Power-on -/

/-- The registers with a declared initial value hold it; the others are arbitrary. -/
structure DpPowerOn (s : DpScanAfu) : Prop where
  clReqAllowed : s.clReqAllowed = false
  clReqIssued : s.clReqIssued = false
  clReceived : s.clReceived = false
  totalClsProcessed : s.totalClsProcessed = 0

/-- A cycle of the power-on reset: nothing arrives. -/
structure DpResetCycle (w : DpWires) : Prop where
  reset : w.reset = true
  noCsr : ∀ k, (w.wrCsrs k).en = false
  noRead : w.readRsp = none

/-- The power-on reset of one or more cycles has ended. -/
structure DpBooted (σ : DpSys) : Prop where
  afu : ∃ s ws, DpPowerOn s ∧ ws ≠ [] ∧ (∀ w ∈ ws, DpResetCycle w) ∧ σ.afu = ws.foldl DpScanAfu.step s
  cur : σ.cur = none
  outstanding : σ.outstanding = 0

/-- The runs in which the environment keeps to `DpProtocol`. -/
def dpSystem : System DpSys DpWires where
  init := DpBooted
  permits := DpProtocol
  step := DpSys.step

/-- Partitions are announced with `total_cls` among `sizes`. -/
def Announces (sizes : BitVec 7 → Prop) (σ : DpSys) (w : DpWires) : Prop :=
  (w.wrCsrs 4).en = true → sizes σ.afu.totalCls

/-- One cycle after a reset from all-zero registers. -/
def DpSys.boot : DpSys where
  afu := DpScanAfu.zero.step { DpWires.quiet with reset := true }
  cur := none
  outstanding := 0

theorem dpBooted_boot : DpBooted DpSys.boot where
  afu := ⟨.zero, [{ DpWires.quiet with reset := true }], ⟨rfl, rfl, rfl, rfl⟩, by simp,
    by simpa using ⟨rfl, fun _ => rfl, rfl⟩, rfl⟩
  cur := rfl
  outstanding := rfl

/-! ## What a run is judged by -/

/-- The passes handle the lines of the partition in order, no line is requested twice, there are at most `total_cls`
passes, and the last one ends the partition. -/
structure Finishes (σ : DpSys) : Prop where
  handled : ∀ p ∈ σ.cur, p.handled = (List.range p.handled.length).map fun i => p.base + BitVec.ofNat 42 i
  once : ∀ p ∈ σ.cur, p.reads.Nodup
  passes_le : ∀ p ∈ σ.cur, p.handled.length ≤ p.cls
  last : ∀ p ∈ σ.cur, p.handled.length = p.cls → σ.afu.partitionProcessed = true ∧ σ.afu.clReqAllowed = false
  returned : ∀ p ∈ σ.cur, σ.afu.state = .waiting → σ.afu.newPartitionReady = false → p.handled.length = p.cls

end SdbFpga.Fpga
