import SdbFpga.Fpga.BlockRead
import SdbFpga.Lib.Transition

/-!
# Runs of `block_read` over blocks

The AFU together with what a run is judged by: the CSR values the host wrote, the reads in flight, and for every
announced block the requests issued and the lines received.

* `BlockRun` : the record of one block, `BlockRun.observe` : what one clock edge adds to it;
* `BlockSys` : the AFU with its records; requests are recorded in the cycle in which `c0.valid` is high;
* `BlockProtocol` : what the host and the memory promise in a cycle;
* `blockSystem` : every run from power-on through reset under `BlockProtocol`.
-/

namespace SdbFpga.Fpga
open Transition

/-- The record of one announced block. -/
structure BlockRun where
  /-- line address written to `CSR[3]` -/
  base : ClAddr
  /-- `CSR[0]` at the announcement -/
  cls : Nat
  reads : List ReadHdr
  /-- the responses of earlier cycles -/
  lines : List ReadRsp
  /-- `CSR[0]` has been written since -/
  rewritten : Bool
  deriving DecidableEq, Repr

/-- The record a `CSR[3]` write opens. -/
def BlockRun.start (csrs : Fin 8 → Option MmioData) (address : MmioData) : BlockRun where
  base := csrClAddr address
  cls := ((csrs 0).getD 0).toNat
  reads := []
  lines := []
  rewritten := false

/-- The edge to `s'` under the wires `w`, as seen by the current block. -/
def BlockRun.observe (p : BlockRun) (w : BlockWires) (s' : BlockRead) : BlockRun :=
  { p with
    reads := if s'.c0Valid then p.reads ++ [s'.c0Hdr] else p.reads
    lines := p.lines ++ w.readRsp.toList
    rewritten := p.rewritten || (w.wrCsrs 0).en }

/-- All responses of the block have arrived. -/
def BlockRun.done (p : BlockRun) : Bool := p.lines.length == p.cls

/-- The AFU and the records of its run. -/
structure BlockSys where
  afu : BlockRead
  /-- the last value the host wrote to each CSR -/
  csrs : Fin 8 → Option MmioData
  past : List BlockRun
  cur : Option BlockRun
  /-- read requests of earlier cycles without a response -/
  outstanding : Nat

/-- The announced blocks, in order. -/
def BlockSys.runs (σ : BlockSys) : List BlockRun := σ.past ++ σ.cur.toList

/-- A block is announced and not done. -/
def BlockSys.busy (σ : BlockSys) : Bool := σ.cur.any fun p => !p.done

/-- Read requests without a response, the one in its own cycle included. -/
def BlockSys.inFlight (σ : BlockSys) : Nat := σ.outstanding + (if σ.afu.c0Valid then 1 else 0)

/-- `CSR[0]` holds a line count from 1 to 127. -/
def BlockSys.ready (σ : BlockSys) : Bool := (σ.csrs 0).any fun t => 1 ≤ t.toNat && t.toNat ≤ 127

/-- One cycle. -/
def BlockSys.step (σ : BlockSys) (w : BlockWires) : BlockSys where
  afu := σ.afu.step w
  csrs := fun k => if (w.wrCsrs k).en then some (w.wrCsrs k).data else σ.csrs k
  past := if (w.wrCsrs 3).en then σ.past ++ σ.cur.toList else σ.past
  cur := (if (w.wrCsrs 3).en then some (.start σ.csrs (w.wrCsrs 3).data) else σ.cur).map
    fun p => p.observe w (σ.afu.step w)
  outstanding := σ.outstanding - (if w.readRsp.isSome then 1 else 0) + (if σ.afu.c0Valid then 1 else 0)

/-- What the environment keeps to in one cycle: no reset; a `CSR[3]` write only after `CSR[0]`, with no read
outstanding and the block before done; the line count of a block stays until the block is done; a response only for a
request of an earlier cycle. -/
structure BlockProtocol (σ : BlockSys) (w : BlockWires) : Prop where
  noReset : w.reset = false
  announce : (w.wrCsrs 3).en = true → σ.ready = true ∧ σ.inFlight = 0 ∧ σ.busy = false
  stable : (w.wrCsrs 3).en = true ∨ σ.busy = true → (w.wrCsrs 0).en = false
  response : w.readRsp.isSome = true → 0 < σ.outstanding

instance (σ : BlockSys) (w : BlockWires) : Decidable (BlockProtocol σ w) :=
  decidable_of_iff
    (w.reset = false ∧ ((w.wrCsrs 3).en = true → σ.ready = true ∧ σ.inFlight = 0 ∧ σ.busy = false) ∧
      ((w.wrCsrs 3).en = true ∨ σ.busy = true → (w.wrCsrs 0).en = false) ∧
      (w.readRsp.isSome = true → 0 < σ.outstanding))
    ⟨fun ⟨a, b, c, d⟩ => ⟨a, b, c, d⟩, fun ⟨a, b, c, d⟩ => ⟨a, b, c, d⟩⟩

/-! ## Power-on -/

/-- The registers with a declared initial value hold it; the others are arbitrary. -/
structure BlockPowerOn (s : BlockRead) : Prop where
  queryCompleted : s.queryCompleted = false
  clOffset : s.clOffset = 0
  clsProcessed : s.clsProcessed = 0

/-- The power-on reset of one or more cycles, in which nothing arrives, has ended and nothing has been written yet. -/
structure BlockBooted (σ : BlockSys) : Prop where
  afu : ∃ s ws, BlockPowerOn s ∧ ws ≠ [] ∧
    (∀ w ∈ ws, w.reset = true ∧ (∀ k, (w.wrCsrs k).en = false) ∧ w.readRsp = none) ∧
    σ.afu = ws.foldl BlockRead.step s
  csrs : ∀ k, σ.csrs k = none
  past : σ.past = []
  cur : σ.cur = none
  outstanding : σ.outstanding = 0

/-- The runs of `block_read` in which the environment keeps to `BlockProtocol`. -/
def blockSystem : System BlockSys BlockWires where
  init := BlockBooted
  permits := BlockProtocol
  step := BlockSys.step

instance (σ : BlockSys) (w : BlockWires) : Decidable (blockSystem.permits σ w) :=
  inferInstanceAs (Decidable (BlockProtocol σ w))

/-! ## Scripts -/

/-- Nothing happens. -/
def BlockWires.quiet : BlockWires where
  reset := false
  wrCsrs := fun _ => ⟨0, false⟩
  c0TxAlmFull := false
  readRsp := none

/-- `CSR[k]` is written. -/
def BlockWires.csr (k : Fin 8) (v : MmioData) : BlockWires :=
  { BlockWires.quiet with wrCsrs := fun j => ⟨v, j = k⟩ }

/-- Line `cl` arrives for the request tagged `i`. -/
def BlockWires.respond (i : Nat) (cl : ClData) : BlockWires :=
  { BlockWires.quiet with readRsp := some ⟨BitVec.ofNat 16 i, cl⟩ }

/-- All registers zero. -/
def BlockRead.zero : BlockRead where
  state := .idle
  newBlockReceived := false
  readBuffAddress := 0
  queryCompleted := false
  totalCls := 0
  filterPred := 0
  bitEncoding := 0
  clOffset := 0
  clsProcessed := 0
  readsAllowed := false
  c0Valid := false
  c0Hdr := ⟨0, 0⟩
  rspReceived := false
  clBlock := 0
  bitResult := 0
  rdCsrs := fun _ => 0

/-- One cycle after a reset from all-zero registers. -/
def BlockSys.boot : BlockSys where
  afu := BlockRead.zero.step { BlockWires.quiet with reset := true }
  csrs := fun _ => none
  past := []
  cur := none
  outstanding := 0

theorem blockBooted_boot : BlockBooted BlockSys.boot where
  afu := ⟨.zero, [{ BlockWires.quiet with reset := true }], ⟨rfl, rfl, rfl⟩, by simp,
    by simpa using ⟨fun _ => rfl, rfl⟩, rfl⟩
  csrs := fun _ => rfl
  past := rfl
  cur := rfl
  outstanding := rfl

end SdbFpga.Fpga
