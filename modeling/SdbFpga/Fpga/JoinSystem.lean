import SdbFpga.Fpga.JoinAfu
import SdbFpga.Fpga.ScanSystem

/-!
# Runs of `join_afu` over a bitmap and foreign key partitions

The unit as `joinAtATime` drives it: after a reset one partition that is the bitmap, then any number of partitions of
foreign keys.

* `JoinRun` : the record of one partition, `JoinRun.observe` : what one clock edge adds to it;
* `JoinSys` : the unit with its records;
* `BitmapLine`, `KeyLine` : the lines that the memory holds;
* `JoinProtocol` : what the host and the memory promise in a cycle; `joinSystem` : every run under it.
-/

namespace SdbFpga.Fpga
open Transition Bits

/-- The record of one announced partition. -/
structure JoinRun where
  /-- line address written to `CSR[4]` -/
  base : ClAddr
  /-- `CSR[0]` at the announcement -/
  cls : Nat
  /-- `CSR[6]` was 1 at the announcement: the partition is the bitmap -/
  bitmap : Bool
  /-- line address last written to `CSR[5]` while the partition is not processed -/
  result : ClAddr
  reads : List ClAddr
  lines : List ClData
  writes : List WriteReq
  /-- `partition_processed` has become 1 -/
  processed : Bool
  deriving DecidableEq, Repr

/-- The record a `CSR[4]` write opens. -/
def JoinRun.start (csrs : Fin 8 → Option MmioData) (address : MmioData) : JoinRun where
  base := csrClAddr address
  cls := ((csrs 0).getD 0).toNat
  bitmap := decide (csrs 6 = some 1)
  result := csrClAddr ((csrs 5).getD 0)
  reads := []
  lines := []
  writes := []
  processed := false

/-- The edge from `s` to `s'` under the wires `w`, as seen by the partition being processed. -/
def JoinRun.observe (p : JoinRun) (s : JoinAfu) (w : Wires) (s' : JoinAfu) : JoinRun :=
  { p with
    result := if (w.wrCsrs 5).en && !p.processed then csrClAddr (w.wrCsrs 5).data else p.result
    reads := if s'.c0Valid then p.reads ++ [s'.c0Address] else p.reads
    lines := p.lines ++ w.readRsp.toList
    writes := if s'.c1Valid then p.writes ++ [⟨s'.c1Hdr, s'.c1Data⟩] else p.writes
    processed := p.processed || (!s.partitionProcessed && s'.partitionProcessed) }

/-- The unit and the records of its run. -/
structure JoinSys where
  afu : JoinAfu
  /-- the last value the host wrote to each CSR -/
  csrs : Fin 8 → Option MmioData
  past : List JoinRun
  cur : Option JoinRun
  /-- read requests of earlier cycles without a response -/
  outstanding : Nat

/-- The announced partitions, in order. -/
def JoinSys.runs (σ : JoinSys) : List JoinRun := σ.past ++ σ.cur.toList

/-- A partition is announced and not processed. -/
def JoinSys.busy (σ : JoinSys) : Bool := σ.cur.any fun p => !p.processed

/-- One cycle. -/
def JoinSys.step (σ : JoinSys) (w : Wires) : JoinSys where
  afu := σ.afu.step w
  csrs := fun k => if (w.wrCsrs k).en then some (w.wrCsrs k).data else σ.csrs k
  past := if (w.wrCsrs 4).en then σ.past ++ σ.cur.toList else σ.past
  cur := (if (w.wrCsrs 4).en then some (.start σ.csrs (w.wrCsrs 4).data) else σ.cur).map
    fun p => p.observe σ.afu w (σ.afu.step w)
  outstanding := σ.outstanding - (if w.readRsp.isSome then 1 else 0) + (if σ.afu.c0Valid then 1 else 0)

/-! ## The host and the memory -/

section Protocol
variable (dim : Nat) (bitmap : Nat → Bool)

/-- Line `i` of the bitmap of `dim` bits; the padding is arbitrary. -/
def BitmapLine (i : Nat) (cl : ClData) : Prop := ∀ j < 512, 512 * i + j < dim → cl.getLsbD j = bitmap (512 * i + j)

/-- A line of 32 keys, each the number of a row. -/
def KeyLine (cl : ClData) : Prop := ∀ l < 32, (lane 16 l cl).toNat < dim

instance (i : Nat) (cl : ClData) : Decidable (BitmapLine dim bitmap i cl) :=
  Nat.decidableBallLT 512 fun j _ => 512 * i + j < dim → cl.getLsbD j = bitmap (512 * i + j)

instance (cl : ClData) : Decidable (KeyLine dim cl) :=
  Nat.decidableBallLT 32 fun l _ => (lane 16 l cl).toNat < dim

/-- What the memory holds as line `i` of a partition. -/
def JoinRun.Good (p : JoinRun) (i : Nat) (cl : ClData) : Prop :=
  if p.bitmap then BitmapLine dim bitmap i cl else KeyLine dim cl

instance (p : JoinRun) (i : Nat) (cl : ClData) : Decidable (p.Good dim bitmap i cl) := by
  unfold JoinRun.Good
  infer_instance

/-- `CSR[0]` and `CSR[6]` are written for the next partition: `bitmap_cls` and 1 for the bitmap, which comes first,
then 64 lines and 0. -/
def JoinSys.Ready (σ : JoinSys) : Prop :=
  if σ.cur.isSome then σ.csrs 0 = some 64 ∧ σ.csrs 6 = some 0
  else σ.csrs 0 = some (BitVec.ofNat 64 (dim / 512 + 1)) ∧ σ.csrs 6 = some 1

instance (σ : JoinSys) : Decidable (σ.Ready dim) := by
  unfold JoinSys.Ready
  infer_instance

/-- What the environment keeps to in one cycle: no reset, `query_state = 1`, a `CSR[4]` write only in `STATE_WAITING`
with no announcement pending and its parameters written, which then stay until the partition is processed; `CSR[5]` is
written before the first response of a partition of keys, and not again until it is processed; a response only for a
request of an earlier cycle, with the line that the memory holds. -/
structure JoinProtocol (σ : JoinSys) (w : Wires) : Prop where
  noReset : w.reset = false
  active : w.isActive = true
  announce : (w.wrCsrs 4).en = true →
    σ.afu.state = .waiting ∧ σ.afu.newPartitionReady = false ∧ σ.Ready dim
  stable : (w.wrCsrs 4).en = true ∨ σ.busy = true → (w.wrCsrs 0).en = false ∧ (w.wrCsrs 6).en = false
  resultFirst : ∀ p ∈ σ.cur, p.processed = false → p.bitmap = false →
    (w.readRsp.isSome = true → (σ.csrs 5).isSome = true) ∧
    (w.readRsp.isSome = true ∨ p.lines ≠ [] → (w.wrCsrs 5).en = false)
  response : ∀ cl ∈ w.readRsp, 0 < σ.outstanding ∧ ∀ p ∈ σ.cur, p.Good dim bitmap p.lines.length cl

instance (σ : JoinSys) (w : Wires) : Decidable (JoinProtocol dim bitmap σ w) :=
  -- the response, not every line there is
  have : Decidable (∀ cl ∈ w.readRsp, 0 < σ.outstanding ∧ ∀ p ∈ σ.cur, p.Good dim bitmap p.lines.length cl) :=
    Option.decidableForallMem w.readRsp
  decidable_of_iff
    (w.reset = false ∧ w.isActive = true ∧
      ((w.wrCsrs 4).en = true → σ.afu.state = .waiting ∧ σ.afu.newPartitionReady = false ∧ σ.Ready dim) ∧
      ((w.wrCsrs 4).en = true ∨ σ.busy = true → (w.wrCsrs 0).en = false ∧ (w.wrCsrs 6).en = false) ∧
      (∀ p ∈ σ.cur, p.processed = false → p.bitmap = false →
        (w.readRsp.isSome = true → (σ.csrs 5).isSome = true) ∧
        (w.readRsp.isSome = true ∨ p.lines ≠ [] → (w.wrCsrs 5).en = false)) ∧
      (∀ cl ∈ w.readRsp, 0 < σ.outstanding ∧ ∀ p ∈ σ.cur, p.Good dim bitmap p.lines.length cl))
    ⟨fun ⟨a, b, c, d, e, f⟩ => ⟨a, b, c, d, e, f⟩, fun ⟨a, b, c, d, e, f⟩ => ⟨a, b, c, d, e, f⟩⟩

/-- The registers of `join_afu` with a declared initial value hold it; the others are arbitrary. -/
structure JoinPowerOn (s : JoinAfu) : Prop where
  newPartitionReady : s.newPartitionReady = false
  clReqAllowed : s.clReqAllowed = true
  clReqIssued : s.clReqIssued = false
  clReceived : s.clReceived = false
  clProcessed : s.clProcessed = false
  clsProcessed : s.clsProcessed = 0

/-- The reset of one or more cycles has ended and nothing has been written yet. -/
structure JoinBooted (σ : JoinSys) : Prop where
  afu : ∃ s ws, JoinPowerOn s ∧ ws ≠ [] ∧
    (∀ w ∈ ws, w.reset = true ∧ (∀ k, (w.wrCsrs k).en = false) ∧ w.readRsp = none) ∧ σ.afu = ws.foldl JoinAfu.step s
  csrs : ∀ k, σ.csrs k = none
  past : σ.past = []
  cur : σ.cur = none
  outstanding : σ.outstanding = 0

/-- The runs of `join_afu` over a bitmap of `dim` bits. -/
def joinSystem : System JoinSys Wires where
  init := JoinBooted
  permits := JoinProtocol dim bitmap
  step := JoinSys.step

instance (σ : JoinSys) (w : Wires) : Decidable ((joinSystem dim bitmap).permits σ w) :=
  inferInstanceAs (Decidable (JoinProtocol dim bitmap σ w))

end Protocol

end SdbFpga.Fpga
