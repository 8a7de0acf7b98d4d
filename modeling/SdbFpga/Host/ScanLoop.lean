import SdbFpga.Fpga.CsrMgr
import SdbFpga.Fpga.ScanWrites

/-!
# `scanAtATime` against `csr_mgr` and `scan_afu`

The host writes the three parameters, then for every work unit the column address, the result address, and polls
`CSR[1]` until a nonzero value comes back. Between any two requests it may be delayed for any number of cycles, and
reads may follow each other without waiting for the answer; a read is tagged with the iteration it belongs to.

* `HostPhase`, `HostSys` : the host with the two units; `age` and `resultAge` count the cycles since the address
  writes of the iteration reached `csr_mgr`;
* `HostSys.step` : one cycle; `hostSystem` : every run from a state in which the units are at rest;
* `PollSpaced`, `PostHeld` : the timings under which the loop works.
-/

namespace SdbFpga.Host
open Transition SdbFpga.Fpga

/-! The parameters are the first three of the eight CSRs. -/

theorem params_le : 3 ≤ 8 := by decide

instance neZero_params : NeZero 3 := ⟨by decide⟩

/-- The next request of the host: parameter `k`, `CSR[4]`, `CSR[5]`, or a read of `CSR[1]`. -/
inductive HostPhase
  | param (k : Fin 3)
  | announce
  | result
  | poll
  deriving DecidableEq, Repr

/-- The host loop, the MMIO pipeline and the unit. -/
structure HostSys where
  sys : Sys
  csr : CsrMgr Nat
  /-- `total_cls`, `filter_pred` and `scan_type` -/
  param : Fin 3 → MmioData
  /-- addresses of the read and the write buffer of every queued partition -/
  work : List (MmioData × MmioData)
  /-- partitions announced before this scan -/
  base : Nat
  phase : HostPhase
  iter : Nat
  /-- cycles since `CSR[4]` was written in this iteration, 0 if it was not -/
  age : Nat
  /-- cycles since `CSR[5]` was written in this iteration, 0 if it was not -/
  resultAge : Nat

/-- The wires of a cycle that neither the host's program nor the units determine; `act` says that the host's next
request reaches `csr_mgr` in this cycle. -/
structure HostCycle where
  act : Bool
  c0TxAlmFull : Bool
  c1TxAlmFull : Bool
  readRsp : Option ClData
  writeRsp : Bool
  joinPartitionProcessed : Bool
  common : BitVec 6 → MmioData

/-- The wires of `scan_afu`. -/
def HostSys.wires (h : HostSys) (c : HostCycle) : Wires where
  reset := false
  isActive := true
  wrCsrs := h.csr.cpuWrCsrs
  c0TxAlmFull := c.c0TxAlmFull
  c1TxAlmFull := c.c1TxAlmFull
  readRsp := c.readRsp
  writeRsp := c.writeRsp

/-- The host's next request; none when the queue is empty. -/
def HostSys.request (h : HostSys) : C0Rx Nat :=
  match h.phase, h.work[h.iter]? with
  | .param k, _ => .writeCsr h.iter (k.castLE params_le) (h.param k)
  | .announce, some ar => .writeCsr h.iter 4 ar.1
  | .result, some ar => .writeCsr h.iter 5 ar.2
  | .poll, some _ => .readCsr h.iter 1
  | _, none => .none h.iter

/-- What the host does once its request is out. -/
def HostSys.nextPhase (h : HostSys) : HostPhase :=
  match h.phase, h.work[h.iter]? with
  | .param k, _ => if k = 2 then .announce else .param (k + 1)
  | .announce, some _ => .result
  | .result, some _ => .poll
  | .poll, some _ => .poll
  | p, none => p

/-- `readCSR(1)` of this iteration returns a nonzero value. -/
def HostSys.answered (h : HostSys) : Bool :=
  h.phase = .poll && h.csr.fiuC2Tx.mmioRdValid && h.csr.fiuC2Tx.tid == h.iter && h.csr.fiuC2Tx.data != 0

/-- A cycle counter that `start` starts. -/
def tick (n : Nat) (start : Bool) : Nat := if start then 1 else if n = 0 then 0 else n + 1

/-- One cycle. -/
def HostSys.step (h : HostSys) (c : HostCycle) : HostSys :=
  { h with
    sys := h.sys.step (h.wires c)
    csr := h.csr.step false (if c.act then h.request else .none h.iter) ⟨false, h.iter, 0⟩
      (h.sys.afu.cpuRdCsrs c.joinPartitionProcessed) c.common
    phase := if h.answered then .announce else if c.act then h.nextPhase else h.phase
    iter := if h.answered then h.iter + 1 else h.iter
    age := if h.answered then 0 else tick h.age (c.act && h.phase = .announce && h.iter < h.work.length)
    resultAge := if h.answered then 0 else tick h.resultAge (c.act && h.phase = .result && h.iter < h.work.length) }

/-- The memory answers requests only. -/
structure MemoryProtocol (h : HostSys) (c : HostCycle) : Prop where
  response : c.readRsp.isSome = true → 0 < h.sys.outstanding
  ack : c.writeRsp = true → (if h.sys.afu.c1Valid then 1 else 0) < h.sys.unacked

instance (h : HostSys) (c : HostCycle) : Decidable (MemoryProtocol h c) :=
  decidable_of_iff ((c.readRsp.isSome = true → 0 < h.sys.outstanding) ∧
      (c.writeRsp = true → (if h.sys.afu.c1Valid then 1 else 0) < h.sys.unacked))
    ⟨fun ⟨a, b⟩ => ⟨a, b⟩, fun ⟨a, b⟩ => ⟨a, b⟩⟩

/-- The scan starts: the unit waits, after any earlier run, the MMIO pipeline is empty, the parameters are sound. -/
structure AtRest (h : HostSys) : Prop where
  reachable : Reachable scanSystem h.sys
  waiting : h.sys.afu.state = .waiting
  ready : h.sys.afu.newPartitionReady = false
  reset : h.csr.reset = false
  c0RxRead : h.csr.c0Rx.mmioRdValid = false
  c0RxWrite : h.csr.c0Rx.mmioWrValid = false
  c2Tx : h.csr.c2Tx.mmioRdValid = false
  fiuC2Tx : h.csr.fiuC2Tx.mmioRdValid = false
  strobe : ∀ k, (h.csr.cpuWrCsrs k).en = false
  base : h.base = h.sys.runs.length
  phase : h.phase = .param 0
  iter : h.iter = 0
  age : h.age = 0
  resultAge : h.resultAge = 0
  cls : 0 < (h.param 0).toNat ∧ (h.param 0).toNat < 128
  column : (h.param 2).toNat ≤ 2

/-- The runs of the loop. -/
def hostSystem : System HostSys HostCycle where
  init := AtRest
  permits := MemoryProtocol
  step := HostSys.step

instance (h : HostSys) (c : HostCycle) : Decidable (hostSystem.permits h c) :=
  inferInstanceAs (Decidable (MemoryProtocol h c))

/-- A read of `CSR[1]` reaches `csr_mgr` at least three cycles after the `CSR[4]` write of its iteration, unless the
unit has not processed any partition before. -/
def PollSpaced (h : HostSys) (c : HostCycle) : Prop :=
  c.act = true → h.phase = .poll → 0 < h.base + h.iter → 3 ≤ h.age

/-- When the unit posts a result line, the `CSR[5]` write of the iteration reached `csr_mgr` at least three cycles
before. -/
def PostHeld (h : HostSys) (c : HostCycle) : Prop :=
  h.sys.afu.state = .processing → h.sys.afu.units.clProcessed = true → c.c1TxAlmFull = false → 3 ≤ h.resultAge

instance (h : HostSys) (c : HostCycle) : Decidable (PollSpaced h c) :=
  inferInstanceAs (Decidable (c.act = true → h.phase = .poll → 0 < h.base + h.iter → 3 ≤ h.age))

instance (h : HostSys) (c : HostCycle) : Decidable (PostHeld h c) :=
  inferInstanceAs (Decidable (h.sys.afu.state = .processing → h.sys.afu.units.clProcessed = true →
    c.c1TxAlmFull = false → 3 ≤ h.resultAge))

/-! ## Scripts -/

/-- A cycle in which the host acts or not and at most a line arrives. -/
def HostCycle.plain (act : Bool) (readRsp : Option ClData) : HostCycle :=
  ⟨act, false, false, readRsp, false, false, fun _ => 0⟩

/-- The scan of a column of two one-line partitions starts on a unit just booted. -/
def HostSys.start : HostSys where
  sys := .boot
  csr := ⟨false, .none 0, ⟨false, 0, 0⟩, ⟨false, 0, 0⟩, fun _ => ⟨0, false⟩⟩
  param := fun k => if k = 0 then 1 else if k = 1 then 3 else 0
  work := [(0x40, 0x1000), (0x80, 0x2000)]
  base := 0
  phase := .param 0
  iter := 0
  age := 0
  resultAge := 0

theorem atRest_start : AtRest HostSys.start where
  reachable := .init booted_boot
  waiting := rfl
  ready := rfl
  reset := rfl
  c0RxRead := rfl
  c0RxWrite := rfl
  c2Tx := rfl
  fiuC2Tx := rfl
  strobe := fun _ => rfl
  base := rfl
  phase := rfl
  iter := rfl
  age := rfl
  resultAge := rfl
  cls := by decide
  column := by decide

/-- The host acts in every cycle until the first partition is processed and the second one announced. -/
def firstPartition : List HostCycle :=
  List.replicate 10 (.plain true none) ++ [.plain true (some 0x123)] ++ List.replicate 7 (.plain true none)

end SdbFpga.Host
