import SdbFpga.Fpga.ScanAfu
import SdbFpga.Lib.Transition

/-!
# Runs of `scan_afu` over partitions

The unit together with what a run is judged by: the CSR values the host wrote, the requests in flight, and for every
announced partition the requests the unit issued, the lines it received and the lines it processed.

* `PartitionRun` : the record of one partition, `PartitionRun.observe` : what one clock edge adds to it;
* `Sys` : the unit with its records; requests are recorded in the cycle in which their `valid` is high;
* `Protocol` : what the host and the memory promise in a cycle, `ResultFirst` : the timing of `CSR[5]`;
* `scanSystem` : every run from power-on through reset under `Protocol`.
-/

namespace SdbFpga.Fpga
open Transition

/-- A write request on `c1`. -/
structure WriteReq where
  hdr : WriteHdr
  data : ClData
  deriving DecidableEq, Repr

/-- The record of one announced partition. -/
structure PartitionRun where
  /-- line address written to `CSR[4]` -/
  base : ClAddr
  /-- `CSR[0]`, `CSR[1]` and `CSR[2]` at the announcement -/
  cls : Nat
  pred : BitVec 8
  column : BitVec 2
  /-- line address last written to `CSR[5]` while the partition is not processed -/
  result : ClAddr
  reads : List ClAddr
  lines : List ClData
  writes : List WriteReq
  /-- times the unit left `STATE_PROCESSING` -/
  passes : Nat
  /-- it left `STATE_PROCESSING` in a cycle with `c1TxAlmFull` high -/
  swallowed : Bool
  /-- `partition_processed` has become 1 -/
  processed : Bool
  deriving DecidableEq, Repr

/-- The record a `CSR[4]` write opens. -/
def PartitionRun.start (csrs : Fin 8 → Option MmioData) (address : MmioData) : PartitionRun where
  base := csrClAddr address
  cls := ((csrs 0).getD 0).toNat
  pred := ((csrs 1).getD 0).setWidth 8
  column := ((csrs 2).getD 0).setWidth 2
  result := csrClAddr ((csrs 5).getD 0)
  reads := []
  lines := []
  writes := []
  passes := 0
  swallowed := false
  processed := false

/-- The edge from `s` to `s'` under the wires `w`, as seen by the partition being processed. -/
def PartitionRun.observe (p : PartitionRun) (s : ScanAfu) (w : Wires) (s' : ScanAfu) : PartitionRun :=
  { p with
    result := if (w.wrCsrs 5).en && !p.processed then csrClAddr (w.wrCsrs 5).data else p.result
    reads := if s'.c0Valid then p.reads ++ [s'.c0Address] else p.reads
    lines := p.lines ++ w.readRsp.toList
    writes := if s'.c1Valid then p.writes ++ [⟨s'.c1Hdr, s'.c1Data⟩] else p.writes
    passes := if s.state = .processing ∧ s'.state = .idle then p.passes + 1 else p.passes
    swallowed := p.swallowed || (decide (s.state = .processing) && s.units.clProcessed && w.c1TxAlmFull)
    processed := p.processed || (!s.partitionProcessed && s'.partitionProcessed) }

/-- The unit and the records of its run. -/
structure Sys where
  afu : ScanAfu
  /-- the last value the host wrote to each CSR -/
  csrs : Fin 8 → Option MmioData
  past : List PartitionRun
  cur : Option PartitionRun
  /-- read requests of earlier cycles without a response -/
  outstanding : Nat
  /-- write requests issued and not yet acknowledged -/
  unacked : Nat

/-- The announced partitions, in order. -/
def Sys.runs (σ : Sys) : List PartitionRun := σ.past ++ σ.cur.toList

/-- A partition is announced and not processed. -/
def Sys.busy (σ : Sys) : Bool := σ.cur.any fun p => !p.processed

/-- The parameters a partition needs have been written: `CSR[0]` within its 7-bit register and not zero, a
predicate, and one of the three columns. -/
def Sys.ready (σ : Sys) : Bool :=
  (σ.csrs 0).any (fun n => 0 < n.toNat && n.toNat < 128) && (σ.csrs 1).isSome &&
    (σ.csrs 2).any fun c => c.toNat ≤ 2

/-- One cycle. -/
def Sys.step (σ : Sys) (w : Wires) : Sys where
  afu := σ.afu.step w
  csrs := fun k => if (w.wrCsrs k).en then some (w.wrCsrs k).data else σ.csrs k
  past := if (w.wrCsrs 4).en then σ.past ++ σ.cur.toList else σ.past
  cur := (if (w.wrCsrs 4).en then some (.start σ.csrs (w.wrCsrs 4).data) else σ.cur).map
    fun p => p.observe σ.afu w (σ.afu.step w)
  outstanding := σ.outstanding - (if w.readRsp.isSome then 1 else 0) + (if σ.afu.c0Valid then 1 else 0)
  unacked := σ.unacked - (if w.writeRsp then 1 else 0) + (if (σ.afu.step w).c1Valid then 1 else 0)

/-- What the environment keeps to in one cycle: no reset, `query_state = 0`, a `CSR[4]` write only in
`STATE_WAITING` with no announcement pending and its parameters written, which then stay until the partition is
processed; a response only for a request of an earlier cycle. -/
structure Protocol (σ : Sys) (w : Wires) : Prop where
  noReset : w.reset = false
  active : w.isActive = true
  announce : (w.wrCsrs 4).en = true →
    σ.afu.state = .waiting ∧ σ.afu.newPartitionReady = false ∧ σ.ready = true
  stable : (w.wrCsrs 4).en = true ∨ σ.busy = true →
    (w.wrCsrs 0).en = false ∧ (w.wrCsrs 1).en = false ∧ (w.wrCsrs 2).en = false
  response : w.readRsp.isSome = true → 0 < σ.outstanding
  ack : w.writeRsp = true → (if σ.afu.c1Valid then 1 else 0) < σ.unacked

instance (σ : Sys) (w : Wires) : Decidable (Protocol σ w) :=
  decidable_of_iff
    (w.reset = false ∧ w.isActive = true ∧
      ((w.wrCsrs 4).en = true → σ.afu.state = .waiting ∧ σ.afu.newPartitionReady = false ∧ σ.ready = true) ∧
      ((w.wrCsrs 4).en = true ∨ σ.busy = true →
        (w.wrCsrs 0).en = false ∧ (w.wrCsrs 1).en = false ∧ (w.wrCsrs 2).en = false) ∧
      (w.readRsp.isSome = true → 0 < σ.outstanding) ∧
      (w.writeRsp = true → (if σ.afu.c1Valid then 1 else 0) < σ.unacked))
    ⟨fun ⟨a, b, c, d, e, f⟩ => ⟨a, b, c, d, e, f⟩, fun ⟨a, b, c, d, e, f⟩ => ⟨a, b, c, d, e, f⟩⟩

/-- `CSR[5]` is written before the first read response of the partition, and not again until it is processed. -/
def ResultFirst (σ : Sys) (w : Wires) : Prop :=
  ∀ p ∈ σ.cur, p.processed = false →
    (w.readRsp.isSome = true → (σ.csrs 5).isSome = true) ∧
    (w.readRsp.isSome = true ∨ p.lines ≠ [] → (w.wrCsrs 5).en = false)

instance (σ : Sys) (w : Wires) : Decidable (ResultFirst σ w) :=
  inferInstanceAs (Decidable (∀ p ∈ σ.cur, p.processed = false →
    (w.readRsp.isSome = true → (σ.csrs 5).isSome = true) ∧
    (w.readRsp.isSome = true ∨ p.lines ≠ [] → (w.wrCsrs 5).en = false)))

/-! ## Power-on -/

/-- The registers with a declared initial value hold it; the others are arbitrary. -/
structure PowerOn (s : ScanAfu) : Prop where
  clReqAllowed : s.clReqAllowed = false
  clReqIssued : s.clReqIssued = false
  clReceived : s.clReceived = false
  totalClsProcessed : s.totalClsProcessed = 0

/-- A cycle of the power-on reset: nothing arrives. -/
structure ResetCycle (w : Wires) : Prop where
  reset : w.reset = true
  active : w.isActive = true
  noCsr : ∀ k, (w.wrCsrs k).en = false
  noRead : w.readRsp = none

/-- The power-on reset of one or more cycles has ended and nothing has been written yet. -/
structure Booted (σ : Sys) : Prop where
  afu : ∃ s ws, PowerOn s ∧ ws ≠ [] ∧ (∀ w ∈ ws, ResetCycle w) ∧ σ.afu = ws.foldl ScanAfu.step s
  csrs : ∀ k, σ.csrs k = none
  past : σ.past = []
  cur : σ.cur = none
  outstanding : σ.outstanding = 0
  unacked : σ.unacked = 0

/-- The runs of `scan_afu` in which the environment keeps to `Protocol`. -/
def scanSystem : System Sys Wires where
  init := Booted
  permits := Protocol
  step := Sys.step

instance (σ : Sys) (w : Wires) : Decidable (scanSystem.permits σ w) := inferInstanceAs (Decidable (Protocol σ w))

/-! ## Scripts

Inputs of a cycle by what happens in it, and the run of a one-line partition. -/

/-- Nothing happens. -/
def Wires.quiet : Wires where
  reset := false
  isActive := true
  wrCsrs := fun _ => ⟨0, false⟩
  c0TxAlmFull := false
  c1TxAlmFull := false
  readRsp := none
  writeRsp := false

/-- `CSR[k]` is written. -/
def Wires.csr (k : Fin 8) (v : MmioData) : Wires := { Wires.quiet with wrCsrs := fun j => ⟨v, j = k⟩ }

/-- A line arrives. -/
def Wires.respond (cl : ClData) : Wires := { Wires.quiet with readRsp := some cl }

/-- The host's parameter writes for one partition of `n` lines: predicate `pred` on column `col`. -/
def paramScript (n pred col : MmioData) : List Wires := [.csr 0 n, .csr 1 pred, .csr 2 col]

/-- From the announcement of a one-line partition to the cycle in which its result is due, which is `last`. -/
def lineScript (address : MmioData) (cl : ClData) (last : Wires) : List Wires :=
  [.csr 4 address, .quiet, .quiet, .quiet, .quiet, .respond cl, .quiet, .quiet, last]

/-- All registers zero. -/
def ScanAfu.zero : ScanAfu where
  newPartitionReady := false
  readBuffAddress := 0
  writeBuffAddress := 0
  totalCls := 0
  filterPred := 0
  scanColumn := 0
  state := .waiting
  clReqAllowed := false
  clReqIssued := false
  clReceived := false
  partitionProcessed := false
  writeProcessed := false
  totalClsProcessed := 0
  rspData := 0
  units := .cleared
  c0Valid := false
  c0Address := 0
  c1Valid := false
  c1Data := 0
  c1Hdr := ⟨0, 0⟩
  writeIssued := false

/-- One cycle after a reset from all-zero registers. -/
def Sys.boot : Sys where
  afu := ScanAfu.zero.step { Wires.quiet with reset := true }
  csrs := fun _ => none
  past := []
  cur := none
  outstanding := 0
  unacked := 0

theorem booted_boot : Booted Sys.boot where
  afu := ⟨.zero, [{ Wires.quiet with reset := true }], ⟨rfl, rfl, rfl, rfl⟩, by simp,
    by simpa using ⟨rfl, rfl, fun _ => rfl, rfl⟩, rfl⟩
  csrs := fun _ => rfl
  past := rfl
  cur := rfl
  outstanding := rfl
  unacked := rfl

end SdbFpga.Fpga
