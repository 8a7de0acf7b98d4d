import SdbFpga.Fpga.CsrMgr
import SdbFpga.Fpga.ScanSystem

/-!
# `base_afu`: the scan unit under `query_state`

`CSR[7]` selects the operator. `is_active` gates the registers that the CSRs feed, the announcement pulse among them,
and nothing else of `scan_afu`.

* `BaseAfu`, `BaseAfu.step` : the local reset, `query_state` and the scan unit;
* `baseSystem` : every run from power-on in which the operator is changed only while the scan unit is at rest;
* `Asleep` : the unit at rest with no announcement pending, `Asleep.step`;
* `inert_while_inactive` : what another operator's traffic can do to the scan unit.
-/

namespace SdbFpga.Fpga
open Transition

/-- The inputs of one cycle. -/
structure BaseWires where
  /-- `fiu.reset` -/
  reset : Bool
  wrCsrs : Fin 8 → WrCsr
  c0TxAlmFull : Bool
  c1TxAlmFull : Bool
  readRsp : Option ClData
  writeRsp : Bool

/-- The registers of `app_afu` with the scan unit. -/
structure BaseAfu where
  /-- the local copy of `fiu.reset` -/
  reset : Bool
  queryState : BitVec 3
  scan : ScanAfu

/-- The wires of `scan_unit`. -/
def BaseAfu.scanWires (b : BaseAfu) (w : BaseWires) : Wires where
  reset := b.reset
  isActive := b.queryState == 0
  wrCsrs := w.wrCsrs
  c0TxAlmFull := w.c0TxAlmFull
  c1TxAlmFull := w.c1TxAlmFull
  readRsp := w.readRsp
  writeRsp := w.writeRsp

/-- One clock edge. -/
def BaseAfu.step (b : BaseAfu) (w : BaseWires) : BaseAfu where
  reset := w.reset
  queryState := if (w.wrCsrs 7).en then (w.wrCsrs 7).data.setWidth 3 else b.queryState
  scan := b.scan.step (b.scanWires w)

/-- One CSR is written at a time, and an operator other than the scan is selected only while the scan unit is in
`STATE_WAITING` with no announcement pending. -/
structure SwitchProtocol (b : BaseAfu) (w : BaseWires) : Prop where
  one : ∀ i j, (w.wrCsrs i).en = true → (w.wrCsrs j).en = true → i = j
  switch : (w.wrCsrs 7).en = true → (w.wrCsrs 7).data.setWidth 3 ≠ (0 : BitVec 3) →
    b.scan.state = .waiting ∧ b.scan.newPartitionReady = false

instance (b : BaseAfu) (w : BaseWires) : Decidable (SwitchProtocol b w) :=
  decidable_of_iff
    ((∀ i j, (w.wrCsrs i).en = true → (w.wrCsrs j).en = true → i = j) ∧
      ((w.wrCsrs 7).en = true → (w.wrCsrs 7).data.setWidth 3 ≠ (0 : BitVec 3) →
        b.scan.state = .waiting ∧ b.scan.newPartitionReady = false))
    ⟨fun ⟨a, b⟩ => ⟨a, b⟩, fun ⟨a, b⟩ => ⟨a, b⟩⟩

/-- The runs from power-on: the local reset is high, every other register arbitrary. -/
def baseSystem : System BaseAfu BaseWires where
  init := fun b => b.reset = true
  permits := SwitchProtocol
  step := BaseAfu.step

instance (b : BaseAfu) (w : BaseWires) : Decidable (baseSystem.permits b w) :=
  inferInstanceAs (Decidable (SwitchProtocol b w))

/-- `csr_mgr` raises at most one enable. -/
theorem strobes_one {τ : Type} (c : C0Rx τ) (i j : Fin 8) (hi : (strobes c i).en = true)
    (hj : (strobes c j).en = true) : i = j := by
  have hidx : ∀ i j : Fin 8, BitVec.ofNat 6 (i + 32) = BitVec.ofNat 6 (j + 32) → i = j := by decide
  simp only [strobes, Bool.and_eq_true, beq_iff_eq] at hi hj
  exact hidx i j (hi.1.trans hj.1.symm)

/-! ## The scan unit at rest -/

/-- `STATE_WAITING`, no announcement pending, no request out. -/
structure Asleep (s : ScanAfu) : Prop where
  state : s.state = .waiting
  ready : s.newPartitionReady = false
  c0Valid : s.c0Valid = false
  c1Valid : s.c1Valid = false

/-- The registers that the host's parameters feed. -/
structure SameParams (s s' : ScanAfu) : Prop where
  totalCls : s'.totalCls = s.totalCls
  filterPred : s'.filterPred = s.filterPred
  scanColumn : s'.scanColumn = s.scanColumn
  readBuffAddress : s'.readBuffAddress = s.readBuffAddress
  writeBuffAddress : s'.writeBuffAddress = s.writeBuffAddress

theorem SameParams.trans {s₁ s₂ s₃ : ScanAfu} (h : SameParams s₁ s₂) (h' : SameParams s₂ s₃) : SameParams s₁ s₃ :=
  ⟨h'.totalCls.trans h.totalCls, h'.filterPred.trans h.filterPred, h'.scanColumn.trans h.scanColumn,
    h'.readBuffAddress.trans h.readBuffAddress, h'.writeBuffAddress.trans h.writeBuffAddress⟩

section Step
variable {s : ScanAfu} {w : Wires}

/-- Without an announcement that it can see the unit sleeps on, reset or not, whatever responses arrive. -/
theorem Asleep.step (h : Asleep s) (h4 : w.isActive = true → (w.wrCsrs 4).en = false) : Asleep (s.step w) := by
  obtain ⟨hs, hn, h0, h1⟩ := h
  constructor
  · simp [ScanAfu.step, ScanAfu.nextState, hs, hn]
  · show (if w.isActive then (w.wrCsrs 4).en else s.newPartitionReady) = false
    cases ha : w.isActive
    · exact hn
    · exact h4 ha
  · cases hr : w.reset <;> simp [ScanAfu.step, ScanAfu.readRequest, hr, hs, h0]
  · cases hr : w.reset <;> simp [ScanAfu.step, ScanAfu.memoryWrite, hr, hs]

theorem sameParams_step (ha : w.isActive = false) : SameParams s (s.step w) := by
  constructor <;> simp [ScanAfu.step, ScanAfu.csrRegs, ha]

/-- A request is visible in one state only. -/
structure RequestStates (s : ScanAfu) : Prop where
  read : s.c0Valid = true → s.state = .req
  write : s.c1Valid = true → s.state = .idle

theorem requestStates_reset (hr : w.reset = true) : RequestStates (s.step w) := by
  constructor
  · simp [ScanAfu.step, ScanAfu.readRequest, hr]
  · simp [ScanAfu.step, ScanAfu.memoryWrite, hr]

/-- Any edge keeps this, with the responses of any operator. -/
theorem RequestStates.step (h : RequestStates s) : RequestStates (s.step w) := by
  cases hr : w.reset
  · constructor
    · intro h0
      by_cases hs : s.state = .req
      · have hi : s.clReqIssued = false := by
          have : (!w.c0TxAlmFull && !s.clReqIssued) = true := by
            simpa [ScanAfu.step, ScanAfu.readRequest, hr, hs] using h0
          simp only [Bool.and_eq_true, Bool.not_eq_true'] at this
          exact this.2
        simp [ScanAfu.step, ScanAfu.nextState, hr, hs, hi]
      · have hv : s.c0Valid = true := by
          by_cases hs' : s.state = .rsp
          · simpa [ScanAfu.step, ScanAfu.readRequest, hr, hs'] using h0
          · simpa [ScanAfu.step, ScanAfu.readRequest, hr, hs, hs'] using h0
        exact absurd (h.read hv) hs
    · intro h1
      have hpost : (decide (s.state = .processing) && s.units.clProcessed && !w.c1TxAlmFull) = true := by
        simpa [ScanAfu.step, ScanAfu.memoryWrite, hr] using h1
      simp only [Bool.and_eq_true, decide_eq_true_eq] at hpost
      simp [ScanAfu.step, ScanAfu.nextState, hr, hpost.1.1, hpost.1.2]
  · exact requestStates_reset hr

end Step

/-- After power-on the registers of the two request channels are reset before anything else can happen. -/
theorem requestStates_of_reachable {b : BaseAfu} (h : Reachable baseSystem b) :
    b.reset = true ∨ RequestStates b.scan := by
  refine Reachable.invariant (P := fun b => b.reset = true ∨ RequestStates b.scan) ?_ ?_ h
  · intro b h0
    exact .inl h0
  · intro b w _ hb _
    refine .inr ?_
    rcases hb with hr | hs
    · exact requestStates_reset hr
    · exact hs.step

/-- The edge at which another operator is selected leaves the unit asleep. -/
theorem asleep_of_switch {b : BaseAfu} {w : BaseWires} (h : Reachable baseSystem b) (hw : SwitchProtocol b w)
    (h0 : b.queryState = 0) (h1 : (b.step w).queryState ≠ 0) : Asleep (b.step w).scan := by
  have h7 : (w.wrCsrs 7).en = true := by
    by_contra hen
    apply h1
    simp [BaseAfu.step, hen, h0]
  have hdata : (w.wrCsrs 7).data.setWidth 3 ≠ (0 : BitVec 3) := by
    simpa [BaseAfu.step, h7] using h1
  obtain ⟨hs, hn⟩ := hw.switch h7 hdata
  have h4 : (w.wrCsrs 4).en = false := by
    rw [Bool.eq_false_iff]
    intro hen
    exact absurd (hw.one 4 7 hen h7) (by decide)
  rcases requestStates_of_reachable h with hr | hreq
  · -- the request registers are arbitrary here, the reset clears them
    constructor
    · simp [BaseAfu.step, ScanAfu.step, ScanAfu.nextState, BaseAfu.scanWires, hr]
    · simp [BaseAfu.step, ScanAfu.step, ScanAfu.csrRegs, BaseAfu.scanWires, h0, h4]
    · simp [BaseAfu.step, ScanAfu.step, ScanAfu.readRequest, BaseAfu.scanWires, hr]
    · simp [BaseAfu.step, ScanAfu.step, ScanAfu.memoryWrite, BaseAfu.scanWires, hr]
  · refine Asleep.step ⟨hs, hn, ?_, ?_⟩ fun _ => h4
    · rw [Bool.eq_false_iff]
      intro h
      have := hreq.read h
      rw [hs] at this
      cases this
    · rw [Bool.eq_false_iff]
      intro h
      have := hreq.write h
      rw [hs] at this
      cases this

/-! ## While another operator is active -/

/-- The unit does nothing and has the parameters it had in `s₀`. -/
structure Inert (s₀ s : ScanAfu) : Prop where
  asleep : Asleep s
  params : SameParams s₀ s

/-- From the cycle in which `query_state` becomes non-zero the unit is inert until it is 0 again, and it stays at rest
after that until a partition is announced in a cycle in which it is active. -/
theorem inert_while_inactive (b : BaseAfu) (w : BaseWires) (ws : List BaseWires) (h : Reachable baseSystem b)
    (hw : baseSystem.permits b w) (h0 : b.queryState = 0) (h1 : (b.step w).queryState ≠ 0) :
    (baseSystem.Steps (fun c _ => c.queryState ≠ 0) (b.step w) ws →
      baseSystem.Along (fun c => Inert (b.step w).scan c.scan) (b.step w) ws) ∧
    (baseSystem.Steps (fun c v => c.queryState = 0 → (v.wrCsrs 4).en = false) (b.step w) ws →
      baseSystem.Along (fun c => Asleep c.scan) (b.step w) ws) := by
  have hs := asleep_of_switch h hw h0 h1
  constructor
  · refine System.along_of_steps ?_ ⟨hs, ⟨rfl, rfl, rfl, rfl, rfl⟩⟩
    intro c v hc hq
    have ha : (c.scanWires v).isActive = false := by simpa [BaseAfu.scanWires] using hq
    refine ⟨hc.asleep.step ?_, hc.params.trans (sameParams_step ha)⟩
    simp [ha]
  · refine System.along_of_steps ?_ hs
    intro c v hc h4
    refine Asleep.step hc fun ha => h4 ?_
    simpa [BaseAfu.scanWires] using ha

/-- Nothing happens. -/
def BaseWires.quiet : BaseWires where
  reset := false
  wrCsrs := fun _ => ⟨0, false⟩
  c0TxAlmFull := false
  c1TxAlmFull := false
  readRsp := none
  writeRsp := false

/-- `CSR[k]` is written. -/
def BaseWires.csr (k : Fin 8) (v : MmioData) : BaseWires :=
  { BaseWires.quiet with wrCsrs := fun j => ⟨v, j = k⟩ }

/-- One cycle after power-on with all registers zero. -/
def BaseAfu.boot : BaseAfu := baseSystem.run ⟨true, 0, .zero⟩ [.quiet]

/-- Traffic of the join: a parameter, an announcement, a line; then the scan is selected again. -/
def joinTurn : List BaseWires :=
  [.csr 0 3, .csr 4 640, { BaseWires.quiet with readRsp := some 9 }, .csr 7 0]

theorem inert_joinTurn :
    baseSystem.Along (fun c => Inert (BaseAfu.boot.step (.csr 7 1)).scan c.scan) (BaseAfu.boot.step (.csr 7 1))
        joinTurn ∧
      baseSystem.Along (fun c => Asleep c.scan) (BaseAfu.boot.step (.csr 7 1)) (joinTurn ++ [.quiet, .csr 0 3]) := by
  have hb : Reachable baseSystem .boot := Reachable.run (.init rfl) (by decide +kernel)
  have h := fun ws => inert_while_inactive .boot (.csr 7 1) ws hb (by decide +kernel) (by decide +kernel)
    (by decide +kernel)
  exact ⟨(h _).1 (by decide +kernel), (h _).2 (by decide +kernel)⟩

end SdbFpga.Fpga
