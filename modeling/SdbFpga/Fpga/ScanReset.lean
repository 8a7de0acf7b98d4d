import SdbFpga.Fpga.ScanSystem

/-!
# What a reset of `scan_afu` leaves behind

`reset` clears the state machine and the main logic. `cl_req_issued` and `cl_received` have no reset branch, the CSR
registers, `rsp_data` and the outputs of the filter units neither.

* `Outputs`, `ScanAfu.trace` : what the platform sees of a run;
* `ResetPhase` : the reset, and the cycles in which old responses arrive; `Cleared` : the unit after it;
* `Alike`, `Alike.step` : two units with the same behaviour from now on, `trace_eq` : over a run;
* `BehavesReset`, `behavesReset_iff` : the unit behaves as after power-on exactly if both handshake flags are low.
-/

namespace SdbFpga.Fpga

/-! ## What the platform sees -/

/-- The valid requests of a cycle and `CSR[1]`. -/
structure Outputs where
  read : Option ClAddr
  write : Option WriteReq
  csr1 : MmioData
  deriving DecidableEq, Repr

def ScanAfu.outputs (s : ScanAfu) : Outputs where
  read := if s.c0Valid then some s.c0Address else none
  write := if s.c1Valid then some ⟨s.c1Hdr, s.c1Data⟩ else none
  csr1 := s.cpuRdCsrs false 1

theorem isSome_outputs_read (s : ScanAfu) : s.outputs.read.isSome = s.c0Valid := by
  unfold ScanAfu.outputs
  cases s.c0Valid <;> rfl

theorem isSome_outputs_write (s : ScanAfu) : s.outputs.write.isSome = s.c1Valid := by
  unfold ScanAfu.outputs
  cases s.c1Valid <;> rfl

/-- The outputs cycle by cycle. -/
def ScanAfu.trace (s : ScanAfu) : List Wires → List Outputs
  | [] => [s.outputs]
  | w :: ws => s.outputs :: (s.step w).trace ws

/-! ## The reset -/

/-- `reset` is asserted in the cycles `w :: reset`, then responses to old requests arrive in the cycles `drain`. No
partition is announced, and none is pending where `query_state` keeps the unit from noticing. -/
structure ResetPhase (s : ScanAfu) (w : Wires) (reset drain : List Wires) : Prop where
  reset : ∀ v ∈ w :: reset, v.reset = true ∧ (v.wrCsrs 4).en = false
  pending : w.isActive = true ∨ s.newPartitionReady = false
  drain : ∀ v ∈ drain, v.reset = false ∧ (v.wrCsrs 4).en = false

/-- The unit after a reset, with what is left of the two handshakes. -/
structure Cleared (issued received : Bool) (s : ScanAfu) : Prop where
  newPartitionReady : s.newPartitionReady = false
  state : s.state = .waiting
  clReqAllowed : s.clReqAllowed = true
  clReqIssued : s.clReqIssued = issued
  clReceived : s.clReceived = received
  partitionProcessed : s.partitionProcessed = false
  totalClsProcessed : s.totalClsProcessed = 0
  c0Valid : s.c0Valid = false
  c1Valid : s.c1Valid = false

/-- The first cycle of a reset. -/
theorem cleared_step {s : ScanAfu} {w : Wires} (hr : w.reset = true) (hcsr : (w.wrCsrs 4).en = false)
    (hpending : w.isActive = true ∨ s.newPartitionReady = false) :
    Cleared s.clReqIssued (s.readResponse w).clReceived (s.step w) := by
  refine ⟨?_, ?_, ?_, ?_, rfl, ?_, ?_, ?_, ?_⟩
  · show (if w.isActive then (w.wrCsrs 4).en else s.newPartitionReady) = false
    rcases hpending with hactive | hnone
    · rw [hactive, hcsr]
      rfl
    · rw [hcsr, hnone]
      exact ite_self false
  all_goals
    simp only [ScanAfu.step, ScanAfu.nextState, ScanAfu.mainLogic, ScanAfu.readRequest, ScanAfu.memoryWrite, hr, if_true]

/-- A cycle without an announcement leaves a cleared unit as it is. -/
theorem Cleared.step {issued received : Bool} {s : ScanAfu} (h : Cleared issued received s) {w : Wires}
    (hcsr : (w.wrCsrs 4).en = false) : Cleared issued received (s.step w) := by
  have hnone : (if w.isActive then (w.wrCsrs 4).en else s.newPartitionReady) = false := by
    rw [hcsr, h.newPartitionReady]
    exact ite_self false
  cases hr : w.reset with
  | true =>
    refine ⟨hnone, ?_, ?_, ?_, ?_, ?_, ?_, ?_, ?_⟩ <;>
      simp [ScanAfu.step, ScanAfu.nextState, ScanAfu.mainLogic, ScanAfu.readRequest, ScanAfu.readResponse,
        ScanAfu.memoryWrite, hr, h.state, h.clReqIssued, h.clReceived]
  | false =>
    rw [step_waiting hr h.state]
    refine ⟨hnone, ?_, ?_, h.clReqIssued, h.clReceived, ?_, rfl, h.c0Valid, rfl⟩
    · simp [h.newPartitionReady]
    · simp [h.newPartitionReady, h.clReqAllowed]
    · simp [h.newPartitionReady, h.partitionProcessed]

theorem Cleared.foldl {issued received : Bool} {s : ScanAfu} (h : Cleared issued received s) {ws : List Wires}
    (hcsr : ∀ w ∈ ws, (w.wrCsrs 4).en = false) : Cleared issued received (ws.foldl ScanAfu.step s) := by
  induction ws generalizing s with
  | nil => exact h
  | cons w ws ih =>
    exact ih (h.step (hcsr w List.mem_cons_self)) fun v hv => hcsr v (List.mem_cons_of_mem _ hv)

/-- Neither flag of a handshake is reset: `cl_req_issued` stays, `cl_received` takes the response of the first cycle. -/
theorem ResetPhase.cleared {s : ScanAfu} {w : Wires} {reset drain : List Wires} (h : ResetPhase s w reset drain) :
    Cleared s.clReqIssued (s.readResponse w).clReceived ((w :: reset ++ drain).foldl ScanAfu.step s) := by
  obtain ⟨hr, hcsr⟩ := h.reset w List.mem_cons_self
  refine (cleared_step hr hcsr h.pending).foldl fun v hv => ?_
  rcases List.mem_append.mp hv with hv | hv
  · exact (h.reset v (List.mem_cons_of_mem _ hv)).2
  · exact (h.drain v hv).2

/-- After power-on both are low. -/
theorem PowerOn.cleared {p : ScanAfu} (hp : PowerOn p) {ps : List Wires} (hne : ps ≠ [])
    (hreset : ∀ w ∈ ps, ResetCycle w) : Cleared false false (ps.foldl ScanAfu.step p) := by
  obtain ⟨w, ps, rfl⟩ := List.exists_cons_of_ne_nil hne
  have hw := hreset w List.mem_cons_self
  have hreceived : (p.readResponse w).clReceived = false := by
    unfold ScanAfu.readResponse
    split
    · show w.readRsp.isSome = false
      rw [hw.noRead]
      rfl
    · split
      · rfl
      · exact hp.clReceived
  have hclear := cleared_step (s := p) hw.reset (hw.noCsr 4) (.inl hw.active)
  rw [hp.clReqIssued, hreceived] at hclear
  exact hclear.foldl fun v hv => (hreset v (List.mem_cons_of_mem _ hv)).noCsr 4

/-! ## Two units side by side -/

/-- The parameters of a partition besides its address. -/
def paramCsrs : List (Fin 8) := [0, 1, 2, 5]

/-- Two units that differ only in what will not be used before it is written; `seen` are the CSRs written since. -/
structure Alike (seen : Fin 8 → Bool) (a b : ScanAfu) : Prop where
  newPartitionReady : a.newPartitionReady = b.newPartitionReady
  state : a.state = b.state
  clReqAllowed : a.clReqAllowed = b.clReqAllowed
  clReqIssued : a.clReqIssued = b.clReqIssued
  clReceived : a.clReceived = b.clReceived
  partitionProcessed : a.partitionProcessed = b.partitionProcessed
  totalClsProcessed : a.totalClsProcessed = b.totalClsProcessed
  c0Valid : a.c0Valid = b.c0Valid
  c0Address : a.c0Valid = true → a.c0Address = b.c0Address
  c1Valid : a.c1Valid = b.c1Valid
  c1 : a.c1Valid = true → a.c1Hdr = b.c1Hdr ∧ a.c1Data = b.c1Data
  totalCls : seen 0 = true → a.totalCls = b.totalCls
  filterPred : seen 1 = true → a.filterPred = b.filterPred
  scanColumn : seen 2 = true → a.scanColumn = b.scanColumn
  writeBuffAddress : seen 5 = true → a.writeBuffAddress = b.writeBuffAddress
  announced : a.newPartitionReady = true ∨ a.state ≠ .waiting →
    (∀ k ∈ paramCsrs, seen k = true) ∧ a.readBuffAddress = b.readBuffAddress
  units : a.state ≠ .waiting → a.state ≠ .idle → a.units = b.units
  rspData : a.clReceived = true ∨ a.state = .processing → a.rspData = b.rspData

theorem Cleared.alike {issued : Bool} {a b : ScanAfu} (ha : Cleared issued false a) (hb : Cleared issued false b) :
    Alike (fun _ => false) a b where
  newPartitionReady := ha.newPartitionReady.trans hb.newPartitionReady.symm
  state := ha.state.trans hb.state.symm
  clReqAllowed := ha.clReqAllowed.trans hb.clReqAllowed.symm
  clReqIssued := ha.clReqIssued.trans hb.clReqIssued.symm
  clReceived := ha.clReceived.trans hb.clReceived.symm
  partitionProcessed := ha.partitionProcessed.trans hb.partitionProcessed.symm
  totalClsProcessed := ha.totalClsProcessed.trans hb.totalClsProcessed.symm
  c0Valid := ha.c0Valid.trans hb.c0Valid.symm
  c0Address := fun h => absurd (ha.c0Valid.symm.trans h) Bool.noConfusion
  c1Valid := ha.c1Valid.trans hb.c1Valid.symm
  c1 := fun h => absurd (ha.c1Valid.symm.trans h) Bool.noConfusion
  totalCls := Bool.noConfusion
  filterPred := Bool.noConfusion
  scanColumn := Bool.noConfusion
  writeBuffAddress := Bool.noConfusion
  announced := by
    rintro (h | h)
    · exact absurd (ha.newPartitionReady.symm.trans h) Bool.noConfusion
    · exact absurd ha.state h
  units := fun h => absurd ha.state h
  rspData := by
    rintro (h | h)
    · exact absurd (ha.clReceived.symm.trans h) Bool.noConfusion
    · exact absurd (ha.state.symm.trans h) TState.noConfusion

theorem of_nextState_processing {s : ScanAfu} {w : Wires} (h : s.nextState w = .processing) :
    s.state = .processing ∨ s.clReceived = true := by
  grind [ScanAfu.nextState]

theorem of_nextState_ne_waiting {s : ScanAfu} {w : Wires} (h : s.nextState w ≠ .waiting) :
    s.newPartitionReady = true ∨ s.state ≠ .waiting := by
  grind [ScanAfu.nextState]

/-- The units are used only after `STATE_IDLE` cleared them. -/
theorem of_nextState_units {s : ScanAfu} {w : Wires} (h : s.nextState w ≠ .waiting) (h' : s.nextState w ≠ .idle) :
    s.state ≠ .waiting := by
  grind [ScanAfu.nextState]

/-- A parameter register of two units: it is the same once its CSR has been written. -/
theorem csrReg_eq {α : Type} {seen en active : Bool} {new old old' : α} (hactive : active = true)
    (hold : seen = true → old = old') (hseen : (seen || en) = true) :
    (if en && active then new else old) = if en && active then new else old' := by
  cases en with
  | true =>
    rw [hactive]
    rfl
  | false => exact hold (by simpa using hseen)

section Alike
variable {seen : Fin 8 → Bool} {a b : ScanAfu} (h : Alike seen a b)
include h

theorem Alike.outputs : a.outputs = b.outputs := by
  unfold ScanAfu.outputs
  have hread : (if a.c0Valid then some a.c0Address else none) = if b.c0Valid then some b.c0Address else none := by
    rw [← h.c0Valid]
    split
    · next hv => rw [h.c0Address hv]
    · rfl
  have hwrite : (if a.c1Valid then some (WriteReq.mk a.c1Hdr a.c1Data) else none) =
      if b.c1Valid then some (WriteReq.mk b.c1Hdr b.c1Data) else none := by
    rw [← h.c1Valid]
    split
    · next hv => rw [(h.c1 hv).1, (h.c1 hv).2]
    · rfl
  have hcsr : a.cpuRdCsrs false 1 = b.cpuRdCsrs false 1 := by
    unfold ScanAfu.cpuRdCsrs
    rw [h.partitionProcessed]
  rw [hread, hwrite, hcsr]

/-- In `STATE_PROCESSING` both units have filtered the same line. -/
theorem Alike.processing (hs : a.state = .processing) : a.units = b.units ∧ a.rspData = b.rspData ∧
    a.totalCls = b.totalCls ∧ a.filterPred = b.filterPred ∧ a.scanColumn = b.scanColumn ∧
    a.writeBuffAddress = b.writeBuffAddress := by
  have hnot : a.state ≠ .waiting := by
    rw [hs]
    exact TState.noConfusion
  obtain ⟨hseen, _⟩ := h.announced (.inr hnot)
  refine ⟨h.units hnot ?_, h.rspData (.inr hs), h.totalCls (hseen 0 ?_), h.filterPred (hseen 1 ?_),
    h.scanColumn (hseen 2 ?_), h.writeBuffAddress (hseen 5 ?_)⟩
  · rw [hs]
    exact TState.noConfusion
  all_goals decide

theorem Alike.nextState (w : Wires) : a.nextState w = b.nextState w := by
  unfold ScanAfu.nextState
  rw [← h.newPartitionReady, ← h.state, ← h.clReqAllowed, ← h.clReqIssued, ← h.clReceived, ← h.partitionProcessed]
  cases hs : a.state with
  | processing => rw [(h.processing hs).1]
  | _ => rfl

theorem Alike.mainLogic (w : Wires) : (a.mainLogic w).clReqAllowed = (b.mainLogic w).clReqAllowed ∧
    (a.mainLogic w).partitionProcessed = (b.mainLogic w).partitionProcessed ∧
    (a.mainLogic w).totalClsProcessed = (b.mainLogic w).totalClsProcessed := by
  unfold ScanAfu.mainLogic
  rw [← h.newPartitionReady, ← h.state, ← h.totalClsProcessed]
  cases hs : a.state with
  | processing =>
    rw [(h.processing hs).1, (h.processing hs).2.2.1]
    split_ifs <;> simp [h.clReqAllowed, h.partitionProcessed, h.totalClsProcessed]
  | _ =>
    simp only [reduceCtorEq, false_and, if_false, true_and]
    split_ifs <;> simp [h.clReqAllowed, h.partitionProcessed, h.totalClsProcessed]

theorem Alike.readRequest (w : Wires) : (a.readRequest w).c0Valid = (b.readRequest w).c0Valid ∧
    (a.readRequest w).clReqIssued = (b.readRequest w).clReqIssued ∧
    ((a.readRequest w).c0Valid = true → (a.readRequest w).c0Address = (b.readRequest w).c0Address) := by
  unfold ScanAfu.readRequest
  rw [← h.state, ← h.clReqIssued]
  split_ifs with hr hreq hrsp
  · exact ⟨rfl, rfl, False.elim⟩
  · refine ⟨rfl, rfl, fun _ => ?_⟩
    have hbase := (h.announced (.inr (by rw [hreq]; exact TState.noConfusion))).2
    show a.readReqAddress = b.readReqAddress
    unfold ScanAfu.readReqAddress
    rw [hbase, h.totalClsProcessed]
  · exact ⟨h.c0Valid, rfl, h.c0Address⟩
  · exact ⟨h.c0Valid, h.clReqIssued, h.c0Address⟩

theorem Alike.readResponse (w : Wires) : (a.readResponse w).clReceived = (b.readResponse w).clReceived ∧
    ((a.readResponse w).clReceived = true ∨ a.nextState w = .processing →
      (a.readResponse w).rspData = (b.readResponse w).rspData) := by
  unfold ScanAfu.readResponse
  rw [← h.state]
  split_ifs with hrsp hproc
  · refine ⟨rfl, fun hline => ?_⟩
    show w.readRsp.getD a.rspData = w.readRsp.getD b.rspData
    cases hw : w.readRsp with
    | some cl => rfl
    | none =>
      -- the line arrived a cycle ago
      rcases hline with hline | hline
      · rw [hw] at hline
        cases hline
      · rcases of_nextState_processing hline with hold | hreceived
        · exact absurd (hrsp.symm.trans hold) TState.noConfusion
        · exact h.rspData (.inl hreceived)
  · exact ⟨rfl, fun _ => h.rspData (.inr hproc)⟩
  · refine ⟨h.clReceived, ?_⟩
    rintro (hline | hline)
    · exact h.rspData (.inl hline)
    · rcases of_nextState_processing hline with hold | hreceived
      · exact h.rspData (.inr hold)
      · exact h.rspData (.inl hreceived)

theorem Alike.clock (hs : a.state ≠ .waiting) : a.units.clock a.state a.scanColumn a.filterPred a.rspData =
    b.units.clock b.state b.scanColumn b.filterPred b.rspData := by
  rw [← h.state]
  by_cases hidle : a.state = .idle
  · rw [hidle, clock_idle, clock_idle]
  · by_cases hproc : a.state = .processing
    · obtain ⟨hunits, hline, _, hpred, hcolumn, _⟩ := h.processing hproc
      rw [hunits, hline, hpred, hcolumn]
    · rw [clock_other _ _ _ _ _ hidle hproc, clock_other _ _ _ _ _ hidle hproc, h.units hs hidle]

theorem Alike.memoryWrite (w : Wires) : (a.memoryWrite w).c1Valid = (b.memoryWrite w).c1Valid ∧
    ((a.memoryWrite w).c1Valid = true →
      (a.memoryWrite w).c1Hdr = (b.memoryWrite w).c1Hdr ∧ (a.memoryWrite w).c1Data = (b.memoryWrite w).c1Data) := by
  unfold ScanAfu.memoryWrite
  cases hr : w.reset with
  | true => exact ⟨rfl, Bool.noConfusion⟩
  | false =>
    simp only [Bool.false_eq_true, if_false]
    by_cases hs : a.state = .processing
    · obtain ⟨hunits, _, _, _, _, hbase⟩ := h.processing hs
      have hhdr : a.writeHdr = b.writeHdr := by
        unfold ScanAfu.writeHdr
        rw [hbase, h.totalClsProcessed]
      rw [← h.state, hunits]
      exact ⟨rfl, fun _ => ⟨hhdr, rfl⟩⟩
    · rw [← h.state, decide_eq_false hs]
      exact ⟨rfl, fun hv => absurd hv (by simp)⟩

/-- One cycle. -/
theorem Alike.step {w : Wires} (hactive : w.isActive = true)
    (hparams : (w.wrCsrs 4).en = true → ∀ k ∈ paramCsrs, seen k = true) :
    Alike (fun k => seen k || (w.wrCsrs k).en) (a.step w) (b.step w) where
  newPartitionReady := by
    show (if w.isActive then _ else a.newPartitionReady) = if w.isActive then _ else b.newPartitionReady
    rw [hactive]
    rfl
  state := h.nextState w
  clReqAllowed := (h.mainLogic w).1
  clReqIssued := (h.readRequest w).2.1
  clReceived := (h.readResponse w).1
  partitionProcessed := (h.mainLogic w).2.1
  totalClsProcessed := (h.mainLogic w).2.2
  c0Valid := (h.readRequest w).1
  c0Address := (h.readRequest w).2.2
  c1Valid := (h.memoryWrite w).1
  c1 := (h.memoryWrite w).2
  totalCls := csrReg_eq hactive h.totalCls
  filterPred := csrReg_eq hactive h.filterPred
  scanColumn := csrReg_eq hactive h.scanColumn
  writeBuffAddress := csrReg_eq hactive h.writeBuffAddress
  announced := by
    intro hnew
    show _ ∧ (if w.isActive && (w.wrCsrs 4).en then _ else a.readBuffAddress) =
      if w.isActive && (w.wrCsrs 4).en then _ else b.readBuffAddress
    rw [hactive, Bool.true_and]
    cases hen : (w.wrCsrs 4).en with
    | true => exact ⟨fun k hk => by rw [hparams hen k hk, Bool.true_or], rfl⟩
    | false =>
      have hold : a.newPartitionReady = true ∨ a.state ≠ .waiting := by
        rcases hnew with hnew | hnew
        · change (if w.isActive then (w.wrCsrs 4).en else a.newPartitionReady) = true at hnew
          rw [hactive, hen] at hnew
          cases hnew
        · exact of_nextState_ne_waiting hnew
      obtain ⟨hseen, hbase⟩ := h.announced hold
      exact ⟨fun k hk => by rw [hseen k hk, Bool.true_or], hbase⟩
  units := fun hwait hidle => h.clock (of_nextState_units hwait hidle)
  rspData := (h.readResponse w).2

end Alike

/-! ## After the reset -/

/-- `CSR[4]` is written only after the other parameters; `seen` are the CSRs written before. -/
def ParamsFirst : (Fin 8 → Bool) → List Wires → Prop
  | _, [] => True
  | seen, w :: ws => ((w.wrCsrs 4).en = true → ∀ k ∈ paramCsrs, seen k = true) ∧
      ParamsFirst (fun k => seen k || (w.wrCsrs k).en) ws

/-- Inputs after the reset: `query_state` is 0 and all parameters are written before the first partition. -/
structure FreshInputs (ws : List Wires) : Prop where
  cycles : ∀ w ∈ ws, w.reset = false ∧ w.isActive = true
  params : ParamsFirst (fun _ => false) ws

/-- From now on the unit behaves as one that was switched on and reset. -/
def BehavesReset (s : ScanAfu) : Prop :=
  ∀ p ps, PowerOn p → ps ≠ [] → (∀ w ∈ ps, ResetCycle w) → ∀ ws, FreshInputs ws →
    s.trace ws = (ps.foldl ScanAfu.step p).trace ws

/-- Units that are alike show the same. -/
theorem Alike.trace_eq {ws : List Wires} (hactive : ∀ w ∈ ws, w.isActive = true) {seen : Fin 8 → Bool}
    {a b : ScanAfu} (h : Alike seen a b) (hparams : ParamsFirst seen ws) : a.trace ws = b.trace ws := by
  induction ws generalizing seen a b with
  | nil =>
    unfold ScanAfu.trace
    rw [h.outputs]
  | cons w ws ih =>
    have hstep := h.step (hactive w List.mem_cons_self) hparams.1
    unfold ScanAfu.trace
    rw [h.outputs, ih (fun v hv => hactive v (List.mem_cons_of_mem _ hv)) hstep hparams.2]

theorem Cleared.behavesReset {s : ScanAfu} (h : Cleared false false s) : BehavesReset s := by
  intro p ps hp hne hreset ws hws
  exact (h.alike (hp.cleared hne hreset)).trace_eq (fun w hw => (hws.cycles w hw).2) hws.params

/-! ## A flag that is left -/

/-- A partition of one line on `d_year`, up to `STATE_REQ`. -/
def requestScript : List Wires := [.csr 0 1, .csr 1 0, .csr 2 0, .csr 5 0, .csr 4 0, .quiet, .quiet]

theorem paramsFirst_quiet (n : Nat) (seen : Fin 8 → Bool) : ParamsFirst seen (List.replicate n .quiet) := by
  induction n generalizing seen with
  | zero => exact trivial
  | succ n ih => exact ⟨Bool.noConfusion, ih _⟩

/-- The line of this partition never arrives. -/
theorem freshInputs_request (n : Nat) : FreshInputs (requestScript ++ List.replicate n .quiet) where
  cycles := by
    have hscript : ∀ w ∈ requestScript, w.reset = false ∧ w.isActive = true := by decide
    intro w hw
    rcases List.mem_append.mp hw with hw | hw
    · exact hscript w hw
    · rw [List.eq_of_mem_replicate hw]
      exact ⟨rfl, rfl⟩
  params := ⟨by decide, by decide, by decide, by decide, by decide, by decide, by decide, paramsFirst_quiet n _⟩

/-- The handshakes in `STATE_REQ`. -/
structure Requesting (issued received : Bool) (s : ScanAfu) : Prop where
  newPartitionReady : s.newPartitionReady = false
  state : s.state = .req
  clReqIssued : s.clReqIssued = issued
  clReceived : s.clReceived = received
  scanColumn : s.scanColumn = 0
  units : s.units = FilterUnits.cleared

theorem Cleared.request {issued received : Bool} {s : ScanAfu} (h : Cleared issued received s) :
    Requesting issued received (requestScript.foldl ScanAfu.step s) := by
  have hparams := (((h.step (w := .csr 0 1) rfl).step (w := .csr 1 0) rfl).step (w := .csr 2 0) rfl).step
    (w := .csr 5 0) rfl
  have hcolumn : ((((s.step (.csr 0 1)).step (.csr 1 0)).step (.csr 2 0)).step (.csr 5 0)).scanColumn = 0 := rfl
  show Requesting _ _ ((((((((s.step (.csr 0 1)).step (.csr 1 0)).step (.csr 2 0)).step (.csr 5 0)).step
    (.csr 4 0))).step .quiet).step .quiet)
  generalize (((s.step (.csr 0 1)).step (.csr 1 0)).step (.csr 2 0)).step (.csr 5 0) = t at hparams hcolumn
  -- announced, then `STATE_IDLE`, then `STATE_REQ`
  have hannounced := step_waiting (s := t) (w := .csr 4 0) rfl hparams.state
  have hidle := step_waiting (s := t.step (.csr 4 0)) (w := .quiet) rfl (by rw [hannounced, hparams.newPartitionReady]; rfl)
  have hreq := step_idle (s := (t.step (.csr 4 0)).step .quiet) (w := .quiet) rfl (by rw [hidle]; rfl)
    (by rw [hidle, hannounced]; rfl)
  rw [hreq]
  refine ⟨rfl, ?_, ?_, ?_, ?_, rfl⟩
  · rw [hidle, hannounced]
    rfl
  · rw [hidle, hannounced]
    exact hparams.clReqIssued
  · rw [hidle, hannounced]
    exact hparams.clReceived
  · rw [hidle, hannounced]
    exact hcolumn

/-- A left `cl_req_issued` keeps the request back. -/
theorem Requesting.read {issued received : Bool} {s : ScanAfu} (h : Requesting issued received s) :
    (s.step .quiet).outputs.read.isSome = !issued := by
  rw [isSome_outputs_read, step_req rfl h.newPartitionReady h.state]
  show (!false && !s.clReqIssued) = !issued
  rw [h.clReqIssued]
  rfl

/-- A left `cl_received` writes a result before the line arrives. -/
theorem Requesting.write {received : Bool} {s : ScanAfu} (h : Requesting false received s) :
    ((List.replicate 5 Wires.quiet).foldl ScanAfu.step s).outputs.write.isSome = received := by
  rw [isSome_outputs_write]
  show (((((s.step .quiet).step .quiet).step .quiet).step .quiet).step .quiet).c1Valid = received
  have h1 := step_req (w := .quiet) rfl h.newPartitionReady h.state
  have h2 := step_req (s := s.step .quiet) (w := .quiet) rfl (by rw [h1]; rfl) (by rw [h1, h.clReqIssued]; rfl)
  have hrsp : ((s.step .quiet).step .quiet).state = .rsp := by
    rw [h2, h1, h.clReqIssued]
    rfl
  have hnew : ((s.step .quiet).step .quiet).newPartitionReady = false := by
    rw [h2]
    rfl
  have hreceived : ((s.step .quiet).step .quiet).clReceived = received := by
    rw [h2, h1]
    exact h.clReceived
  have hunits : ((s.step .quiet).step .quiet).units = FilterUnits.cleared := by
    rw [h2, h1]
    exact h.units
  have hcolumn : ((s.step .quiet).step .quiet).scanColumn = 0 := by
    rw [h2, h1]
    exact h.scanColumn
  generalize (s.step .quiet).step .quiet = t at hrsp hnew hreceived hunits hcolumn
  have h3 := step_rsp (w := .quiet) rfl hnew hrsp
  cases received with
  | true =>
    have h4 := step_processing_filter (s := t.step .quiet) (w := .quiet) rfl (by rw [h3]; rfl)
      (by rw [h3, hreceived]; rfl) (by rw [h3]; exact hunits)
    have hdone : ((t.step .quiet).step .quiet).units.clProcessed = true := by
      rw [h4, h3]
      show (FilterUnits.filtered t.scanColumn _ _).clProcessed = true
      rw [hcolumn]
      exact clProcessed_filtered _ _ _ (by decide)
    rw [step_processing_post rfl (by rw [h4]; rfl) (by rw [h4, h3, hreceived]; rfl) hdone]
    rfl
  | false =>
    have h4 := step_rsp (s := t.step .quiet) (w := .quiet) rfl (by rw [h3]; rfl) (by rw [h3, hreceived]; rfl)
    rw [step_rsp rfl (by rw [h4]; rfl) (by rw [h4, h3]; rfl)]

/-! ## When the reset is complete -/

/-- The last outputs of a run. -/
theorem getLast_trace (s : ScanAfu) (ws : List Wires) :
    (s.trace ws).getLast? = some (ws.foldl ScanAfu.step s).outputs := by
  induction ws generalizing s with
  | nil => rfl
  | cons w ws ih =>
    unfold ScanAfu.trace
    rw [List.getLast?_cons, ih]
    rfl

theorem BehavesReset.outputs_eq {s : ScanAfu} (h : BehavesReset s) {ws : List Wires} (hws : FreshInputs ws) :
    (ws.foldl ScanAfu.step s).outputs =
      (ws.foldl ScanAfu.step (ScanAfu.zero.step { Wires.quiet with reset := true })).outputs := by
  have htrace := h .zero [{ Wires.quiet with reset := true }] ⟨rfl, rfl, rfl, rfl⟩ (List.cons_ne_nil _ _)
    (by simpa using ⟨rfl, rfl, fun _ => rfl, rfl⟩) ws hws
  have hlast := congrArg List.getLast? htrace
  rw [getLast_trace, getLast_trace] at hlast
  exact Option.some.inj hlast

/-- Either flag would be seen in the first partition. -/
theorem Cleared.flags {issued received : Bool} {s : ScanAfu} (hs : Cleared issued received s) (h : BehavesReset s) :
    issued = false ∧ received = false := by
  have hzero : Cleared false false (ScanAfu.zero.step { Wires.quiet with reset := true }) :=
    cleared_step (s := .zero) (w := { Wires.quiet with reset := true }) rfl rfl (.inl rfl)
  have hissued : issued = false := by
    have hread := congrArg (fun o => o.read.isSome) (h.outputs_eq (freshInputs_request 1))
    rw [List.foldl_append, List.foldl_append] at hread
    exact Bool.not_inj (hs.request.read.symm.trans (hread.trans hzero.request.read))
  subst hissued
  have hwrite := congrArg (fun o => o.write.isSome) (h.outputs_eq (freshInputs_request 5))
  rw [List.foldl_append, List.foldl_append] at hwrite
  exact ⟨rfl, hs.request.write.symm.trans (hwrite.trans hzero.request.write)⟩

/-- The reset hits no handshake: no request was just issued, and no response arrives or is kept. -/
structure CleanReset (s : ScanAfu) (w : Wires) : Prop where
  issued : s.clReqIssued = false
  arriving : s.state = .rsp → w.readRsp = none
  received : s.state ≠ .rsp → s.state ≠ .processing → s.clReceived = false

theorem cleanReset_iff {s : ScanAfu} {w : Wires} :
    CleanReset s w ↔ s.clReqIssued = false ∧ (s.readResponse w).clReceived = false := by
  have hresponse : (s.readResponse w).clReceived = false ↔
      (s.state = .rsp → w.readRsp = none) ∧ (s.state ≠ .rsp → s.state ≠ .processing → s.clReceived = false) := by
    unfold ScanAfu.readResponse
    split_ifs with hrsp hproc
    · simp [hrsp]
    · simp [hproc]
    · simp [hrsp, hproc]
  rw [hresponse]
  constructor
  · rintro ⟨hissued, harriving, hreceived⟩
    exact ⟨hissued, harriving, hreceived⟩
  · rintro ⟨hissued, harriving, hreceived⟩
    exact ⟨hissued, harriving, hreceived⟩

/-- After a reset the unit behaves as after power-on exactly if the reset hit no handshake. -/
theorem behavesReset_iff {s : ScanAfu} {w : Wires} {reset drain : List Wires} (h : ResetPhase s w reset drain) :
    BehavesReset ((w :: reset ++ drain).foldl ScanAfu.step s) ↔ CleanReset s w := by
  have hcleared := h.cleared
  rw [cleanReset_iff]
  constructor
  · intro hbehaves
    exact hcleared.flags hbehaves
  · rintro ⟨hissued, hreceived⟩
    rw [hissued, hreceived] at hcleared
    exact hcleared.behavesReset

/-- A partition of one line, up to the cycle in which its read request is on the bus. -/
def requestCycle : List Wires := paramScript 1 0 0 ++ [.csr 5 0, .csr 4 0, .quiet, .quiet, .quiet]

theorem resetPhase_quiet (s : ScanAfu) : ResetPhase s { Wires.quiet with reset := true } [] [.respond 0] where
  reset := by simp [Wires.quiet]
  pending := .inl rfl
  drain := by simp [Wires.respond, Wires.quiet]

/-- Reset in `STATE_RSP`, two cycles later. -/
theorem behavesReset_iff_rsp : BehavesReset (List.foldl ScanAfu.step
    ((requestCycle ++ [Wires.quiet, Wires.quiet]).foldl ScanAfu.step ScanAfu.zero)
    ({ Wires.quiet with reset := true } :: [] ++ [.respond 0])) :=
  (behavesReset_iff (resetPhase_quiet _)).mpr ⟨by decide +kernel, by decide +kernel, by decide +kernel⟩

/-- Reset in the cycle of the request: the next partition never asks for its line. -/
theorem request_lost_by_reset : ∃ σ, Transition.Reachable scanSystem σ ∧
    ∃ w reset drain, ResetPhase σ.afu w reset drain ∧
      ¬ BehavesReset ((w :: reset ++ drain).foldl ScanAfu.step σ.afu) := by
  have hsteps : scanSystem.Steps scanSystem.permits Sys.boot requestCycle := by decide +kernel
  refine ⟨_, (Transition.Reachable.init booted_boot).run hsteps, _, _, _, resetPhase_quiet _, fun h => ?_⟩
  have hissued : (scanSystem.run Sys.boot requestCycle).afu.clReqIssued = true := by decide +kernel
  exact absurd (hissued.symm.trans ((resetPhase_quiet _).cleared.flags h).1) Bool.noConfusion

end SdbFpga.Fpga
