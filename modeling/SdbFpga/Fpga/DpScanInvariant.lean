import SdbFpga.Fpga.DpScanFilter
import SdbFpga.Fpga.DpScanSystem

/-!
# The handshake invariant of the data-parallel `scan_afu`

The line counter has 6 bits: pass `k` is for line `k % 64`, whatever `total_cls` is.

* `DpPoint` : the points of the handshake, `DpPoint.next` : the way from one to the next;
* `DpControl`, `DpControl.step` : the flags at each point;
* `wrapAddrs` : the lines of a run, `DpCurrent`, `DpCurrent.step` : the record of the partition;
* `DpInv`, `dpInv_of_reachable` : the invariant of every run.
-/

namespace SdbFpga.Fpga
open Transition

/-! ## The points of the handshake -/

inductive DpPoint
  | waiting
  | announced
  | idle
  | requesting
  | requested
  | awaiting
  | received
  /-- `j` slices are done -/
  | filtering (j : Nat)
  | done
  deriving DecidableEq, Repr

namespace DpPoint

def state : DpPoint → TState
  | waiting => .waiting
  | announced => .waiting
  | idle => .idle
  | requesting => .req
  | requested => .req
  | awaiting => .rsp
  | received => .rsp
  | filtering _ => .processing
  | done => .idle

/-- A partition is announced and not processed. -/
def busy : DpPoint → Bool
  | waiting => false
  | done => false
  | _ => true

/-- Requests issued for the line of this pass. -/
def asked : DpPoint → Nat
  | requested => 1
  | awaiting => 1
  | received => 1
  | filtering _ => 1
  | _ => 0

/-- Lines received for it. -/
def arrived : DpPoint → Nat
  | received => 1
  | filtering _ => 1
  | _ => 0

/-- The cycle at this point ends the pass. -/
def passes : DpPoint → Bool
  | filtering j => decide (8 ≤ j)
  | _ => false

/-- Where a cycle leads; `last` says whether this pass is the last one. -/
def next (w : DpWires) (last : Bool) : DpPoint → DpPoint
  | waiting => if (w.wrCsrs 4).en then announced else waiting
  | announced => idle
  | idle => requesting
  | requesting => if w.c0TxAlmFull then requesting else requested
  | requested => awaiting
  | awaiting => if w.readRsp.isSome then received else awaiting
  | received => filtering 0
  | filtering j => if 8 ≤ j then (if last then done else idle) else filtering (j + 1)
  | done => waiting

/-- Only the point at which all slices are done ends a pass. -/
theorem exists_of_passes {pt : DpPoint} (h : pt.passes = true) : ∃ j, 8 ≤ j ∧ pt = .filtering j := by
  cases pt with
  | filtering j => exact ⟨j, of_decide_eq_true h, rfl⟩
  | _ => cases h

section Next
variable {w : DpWires} (last : Bool) {pt : DpPoint}

theorem next_requested : pt.next w last = requested ↔ pt = requesting ∧ w.c0TxAlmFull = false := by
  cases pt <;> grind [next]

theorem next_awaiting : pt.next w last = awaiting ↔ pt = requested ∨ pt = awaiting ∧ w.readRsp.isSome = false := by
  cases pt <;> grind [next]

theorem next_received : pt.next w last = received ↔ pt = awaiting ∧ w.readRsp.isSome = true := by
  cases pt <;> grind [next]

theorem next_announced : pt.next w last = announced ↔ pt = waiting ∧ (w.wrCsrs 4).en = true := by
  cases pt <;> grind [next]

theorem next_idle : pt.next w last = idle ↔ pt = announced ∨ pt.passes = true ∧ last = false := by
  cases pt <;> grind [next, passes]

theorem next_done : pt.next w last = done ↔ pt.passes = true ∧ last = true := by
  cases pt <;> grind [next, passes]

theorem next_filtering {j : Nat} : pt.next w last = filtering j ↔
    pt = received ∧ j = 0 ∨ ∃ i < 8, pt = filtering i ∧ j = i + 1 := by
  cases pt <;> grind [next]

theorem next_asked (h : pt ≠ .requesting ∨ w.c0TxAlmFull = true) :
    (pt.next w last).asked + pt.passes.toNat = pt.asked := by
  cases pt <;> grind [next, asked, passes]

theorem next_arrived (h : pt ≠ .awaiting ∨ w.readRsp = none) :
    (pt.next w last).arrived + pt.passes.toNat = pt.arrived := by
  cases pt <;> grind [next, arrived, passes]

theorem next_busy (h4 : (w.wrCsrs 4).en = false) : (pt.next w last).busy = (pt.busy && !(pt.passes && last)) := by
  cases pt <;> grind [next, busy, passes]

/-- A partition that is still busy had no last pass. -/
theorem busy_of_next (h4 : (w.wrCsrs 4).en = false) (hbusy : (pt.next w last).busy = true) :
    pt.busy = true ∧ (pt.passes = true → last = false) := by
  rw [next_busy last h4, Bool.and_eq_true, Bool.not_eq_true', Bool.and_eq_false_iff] at hbusy
  refine ⟨hbusy.1, fun hpass => ?_⟩
  exact hbusy.2.resolve_left (by simp [hpass])

/-- A partition is left with its last pass. -/
theorem last_of_next (h4 : (w.wrCsrs 4).en = false) (hbusy : pt.busy = true) (hnext : (pt.next w last).busy = false) :
    pt.passes = true ∧ last = true := by
  rwa [next_busy last h4, hbusy, Bool.true_and, Bool.not_eq_false', Bool.and_eq_true] at hnext

end Next

end DpPoint

/-- The registers of the main logic after a cycle at this point. -/
def DpPoint.advance (s : DpScanAfu) : DpPoint → DpScanAfu
  | .waiting => { s with totalClsProcessed := 0 }
  | .announced => { s with clReqAllowed := true, totalClsProcessed := 0, partitionProcessed := false }
  | .filtering j =>
    if 8 ≤ j then
      { s with
        clReqAllowed := decide (s.nextCount < s.totalCls.setWidth 32)
        partitionProcessed := s.nextCount == s.totalCls.setWidth 32
        totalClsProcessed := s.totalClsProcessed + 1 }
    else s
  | _ => s

/-- The comparison that ends a partition. -/
def DpSys.last (σ : DpSys) : Bool := σ.afu.nextCount == σ.afu.totalCls.setWidth 32

/-- The flags at a point. -/
structure DpControl (σ : DpSys) (pt : DpPoint) : Prop where
  state : σ.afu.state = pt.state
  newPartitionReady : σ.afu.newPartitionReady = decide (pt = .announced)
  c0Valid : σ.afu.c0Valid = decide (pt = .requested)
  clReqIssued : σ.afu.clReqIssued = decide (pt = .requested)
  clReceived : σ.afu.clReceived = decide (pt = .received)
  empty : σ.afu.state = .req ∨ σ.afu.state = .rsp → σ.afu.Chain 0 0 0
  chain : ∀ j, pt = .filtering j → ∃ predicate cl, σ.afu.Chain predicate cl j
  outstanding : σ.outstanding = if pt = .awaiting then 1 else 0
  clReqAllowed : pt = .idle ∨ pt = .done → σ.afu.clReqAllowed = decide (pt = .idle)
  flag : pt ≠ .waiting → pt ≠ .announced → σ.afu.partitionProcessed = decide (pt = .done)

section Control
variable {σ : DpSys} {w : DpWires} {pt : DpPoint}

/-- A partition is announced at rest only. -/
theorem DpControl.no_announce (h : DpControl σ pt) (hw : DpProtocol σ w) (hpt : pt ≠ .waiting) :
    (w.wrCsrs 4).en = false := by
  rw [Bool.eq_false_iff]
  intro hen
  obtain ⟨hs, hn, _⟩ := hw.announce hen
  rw [h.state] at hs
  rw [h.newPartitionReady, decide_eq_false_iff_not] at hn
  cases pt with
  | waiting => exact hpt rfl
  | announced => exact hn rfl
  | _ => cases hs

/-- A line arrives only where one is awaited. -/
theorem DpControl.no_response (h : DpControl σ pt) (hw : DpProtocol σ w) (hpt : pt ≠ .awaiting) :
    w.readRsp = none := by
  rw [← Option.not_isSome_iff_eq_none]
  intro hr
  have hout := hw.response hr
  rw [h.outstanding, if_neg hpt] at hout
  cases hout

/-- A pass ends in the cycle in which all slices are done. -/
theorem DpControl.allProcessed_eq (h : DpControl σ pt) (hs : σ.afu.state = .processing) :
    σ.afu.allProcessed = pt.passes := by
  rw [h.state] at hs
  cases pt with
  | filtering j =>
    obtain ⟨predicate, cl, hchain⟩ := h.chain j rfl
    exact hchain.allProcessed
  | _ => cases hs

section Registers
variable (h : DpControl σ pt) (hw : DpProtocol σ w)
include h hw

theorem DpControl.nextState_eq : σ.afu.nextState w = (pt.next w σ.last).state := by
  have hs := h.state
  have hn := h.newPartitionReady
  have hissued := h.clReqIssued
  have hreceived := h.clReceived
  have hallowed := h.clReqAllowed
  have hflag := h.flag
  have hall := h.allProcessed_eq
  unfold DpScanAfu.nextState
  rw [hw.noReset, hs]
  cases pt with
  | waiting => cases h4 : (w.wrCsrs 4).en <;> simp [DpPoint.state, DpPoint.next, hn, h4]
  | announced => simp [DpPoint.state, DpPoint.next, hn]
  | idle => simp [DpPoint.state, DpPoint.next, hallowed]
  | requesting => cases hfull : w.c0TxAlmFull <;> simp [DpPoint.state, DpPoint.next, hissued, hfull]
  | requested => simp [DpPoint.state, DpPoint.next, hissued]
  | awaiting => cases hr : w.readRsp <;> simp [DpPoint.state, DpPoint.next, hreceived, hr]
  | received => simp [DpPoint.state, DpPoint.next, hreceived]
  | filtering j =>
    by_cases hj : 8 ≤ j
    · cases hl : σ.last <;> simp [DpPoint.state, DpPoint.next, hall hs, DpPoint.passes, hj]
    · simp [DpPoint.state, DpPoint.next, hall hs, DpPoint.passes, hj]
  | done => simp [DpPoint.state, DpPoint.next, hallowed, hflag]

theorem DpControl.mainLogic_eq : σ.afu.mainLogic w = pt.advance σ.afu := by
  have hs := h.state
  have hn := h.newPartitionReady
  have hall := h.allProcessed_eq
  cases pt with
  | filtering j =>
    have hpass := hall hs
    by_cases hj : 8 ≤ j <;>
      simp [DpScanAfu.mainLogic, DpPoint.state, DpPoint.advance, DpPoint.passes, hw.noReset, hs, hn, hpass, hj]
  | _ => simp [DpScanAfu.mainLogic, DpPoint.state, DpPoint.advance, hw.noReset, hs, hn]

theorem DpControl.newPartitionReady_step :
    (σ.afu.step w).newPartitionReady = decide (pt.next w σ.last = .announced) := by
  show (w.wrCsrs 4).en = _
  by_cases hpt : pt = .waiting
  · rw [Bool.eq_iff_iff, decide_eq_true_iff, DpPoint.next_announced]
    exact ⟨fun h4 => ⟨hpt, h4⟩, fun hnext => hnext.2⟩
  · have h4 := h.no_announce hw hpt
    rw [h4, eq_comm, decide_eq_false_iff_not, DpPoint.next_announced]
    exact fun hnext => hpt hnext.1

/-- A request becomes visible when `STATE_REQ` finds the channel free. -/
theorem DpControl.readRequest_step : (σ.afu.step w).c0Valid = decide (pt.next w σ.last = .requested) ∧
    (σ.afu.step w).clReqIssued = decide (pt.next w σ.last = .requested) := by
  have hs := h.state
  have hvalid := h.c0Valid
  have hissued := h.clReqIssued
  simp only [DpPoint.next_requested, Bool.decide_and]
  show (σ.afu.readRequest w).c0Valid = _ ∧ (σ.afu.readRequest w).clReqIssued = _
  unfold DpScanAfu.readRequest
  rw [hw.noReset, hs]
  cases pt <;> simp [DpPoint.state, hvalid, hissued]

theorem DpControl.clReceived_step : (σ.afu.step w).clReceived = decide (pt.next w σ.last = .received) := by
  have hs := h.state
  have hreceived := h.clReceived
  have hquiet := h.no_response hw
  simp only [DpPoint.next_received, Bool.decide_and]
  show (σ.afu.readResponse w).clReceived = _
  unfold DpScanAfu.readResponse
  rw [hs]
  cases pt <;> simp [DpPoint.state, hreceived, hquiet]

omit hw in
theorem DpControl.chain_step (j : Nat) (hnext : pt.next w σ.last = .filtering j) :
    ∃ predicate cl, (σ.afu.step w).Chain predicate cl j := by
  have hs := h.state
  rcases (DpPoint.next_filtering σ.last).mp hnext with ⟨rfl, rfl⟩ | ⟨i, hi, rfl, rfl⟩
  · have hhold : (σ.afu.step w).units = σ.afu.units := units_step_hold (by rw [hs]; decide) (by rw [hs]; decide)
    exact ⟨0, 0, (h.empty (.inr hs)).congr hhold⟩
  · obtain ⟨predicate, cl, hchain⟩ := h.chain i rfl
    exact ⟨_, _, hchain.step_processing w hs⟩

theorem DpControl.outstanding_step : (σ.step w).outstanding = if pt.next w σ.last = .awaiting then 1 else 0 := by
  have hout := h.outstanding
  have hvalid := h.c0Valid
  have hquiet := h.no_response hw
  simp only [DpSys.step, hout, hvalid, DpPoint.next_awaiting]
  cases pt with
  | awaiting => cases hr : w.readRsp <;> simp
  | _ => simp [hquiet]

end Registers

/-- The handshake goes on after a pass that is not the last one. -/
theorem DpControl.clReqAllowed_step (h : DpControl σ pt) (hw : DpProtocol σ w)
    (hlast : pt.passes = true → σ.last = false → σ.afu.nextCount < σ.afu.totalCls.setWidth 32)
    (hnext : pt.next w σ.last = .idle ∨ pt.next w σ.last = .done) :
    (σ.afu.step w).clReqAllowed = decide (pt.next w σ.last = .idle) := by
  show (σ.afu.mainLogic w).clReqAllowed = _
  rw [h.mainLogic_eq hw]
  rcases hnext with hidle | hdone
  · rw [hidle]
    rcases (DpPoint.next_idle σ.last).mp hidle with rfl | ⟨hpass, hl⟩
    · rfl
    · have hlt := hlast hpass hl
      obtain ⟨j, hj, rfl⟩ := DpPoint.exists_of_passes hpass
      rw [DpPoint.advance, if_pos hj]
      exact decide_eq_true hlt
  · rw [hdone]
    obtain ⟨hpass, hl⟩ := (DpPoint.next_done σ.last).mp hdone
    obtain ⟨j, hj, rfl⟩ := DpPoint.exists_of_passes hpass
    rw [DpPoint.advance, if_pos hj]
    have heq : σ.afu.nextCount = σ.afu.totalCls.setWidth 32 := beq_iff_eq.mp hl
    simp [heq]

theorem DpControl.flag_step (h : DpControl σ pt) (hw : DpProtocol σ w) (hwaiting : pt.next w σ.last ≠ .waiting)
    (hannounced : pt.next w σ.last ≠ .announced) :
    (σ.afu.step w).partitionProcessed = decide (pt.next w σ.last = .done) := by
  have hflag := h.flag
  show (σ.afu.mainLogic w).partitionProcessed = _
  rw [h.mainLogic_eq hw]
  cases pt with
  | waiting => cases h4 : (w.wrCsrs 4).en <;> simp [DpPoint.next, h4] at hwaiting hannounced
  | requesting => cases hfull : w.c0TxAlmFull <;> simp [DpPoint.next, DpPoint.advance, hflag, hfull]
  | awaiting => cases hr : w.readRsp <;> simp [DpPoint.next, DpPoint.advance, hflag, hr]
  | filtering j =>
    by_cases hj : 8 ≤ j
    · cases hl : σ.last <;> simpa [DpPoint.next, DpPoint.advance, DpSys.last, hj, hl] using hl
    · simp [DpPoint.next, DpPoint.advance, hflag, hj]
  | done => exact absurd rfl hwaiting
  | _ => simp [DpPoint.next, DpPoint.advance, hflag]

/-- One cycle: the flags after it are those of the next point. -/
theorem DpControl.step (h : DpControl σ pt) (hw : DpProtocol σ w)
    (hlast : pt.passes = true → σ.last = false → σ.afu.nextCount < σ.afu.totalCls.setWidth 32) :
    DpControl (σ.step w) (pt.next w σ.last) := by
  constructor
  case state => exact h.nextState_eq hw
  case newPartitionReady => exact h.newPartitionReady_step hw
  case c0Valid => exact (h.readRequest_step hw).1
  case clReqIssued => exact (h.readRequest_step hw).2
  case clReceived => exact h.clReceived_step hw
  case empty => exact empty_step h.empty
  case chain => exact h.chain_step
  case outstanding => exact h.outstanding_step hw
  case clReqAllowed => exact h.clReqAllowed_step hw hlast
  case flag => exact h.flag_step hw

end Control

/-! ## The partition -/

/-- The lines of `n` passes: the counter starts again after 64 of them. -/
def wrapAddrs (base : ClAddr) (n : Nat) : List ClAddr := (List.range n).map fun i => base + BitVec.ofNat 42 (i % 64)

theorem wrapAddrs_succ (base : ClAddr) (n : Nat) :
    wrapAddrs base (n + 1) = wrapAddrs base n ++ [base + BitVec.ofNat 42 (n % 64)] := by
  simp [wrapAddrs, List.range_succ]

theorem getD_wrapAddrs (base : ClAddr) {n i : Nat} (h : i < n) :
    (wrapAddrs base n).getD i 0 = base + BitVec.ofNat 42 (i % 64) := by
  simp [wrapAddrs, h]

theorem length_wrapAddrs (base : ClAddr) (n : Nat) : (wrapAddrs base n).length = n := by
  simp [wrapAddrs]

/-- Partition `p` at point `pt` after `k` passes. -/
structure DpCurrent (σ : DpSys) (pt : DpPoint) (p : DpRun) (k : Nat) : Prop where
  cur : σ.cur = some p
  processed : p.processed = !pt.busy
  pos : 0 < p.cls
  count : pt.busy = true → p.cls ≤ 64 → k < p.cls
  complete : pt.busy = false → p.cls ≤ 64 ∧ k = p.cls
  fresh : pt = .announced → k = 0
  total : pt.busy = true → pt ≠ .announced → σ.afu.totalClsProcessed = BitVec.ofNat 6 k
  base : pt.busy = true → σ.afu.readBuffAddress = p.base
  cls : pt.busy = true → σ.afu.totalCls.toNat = p.cls
  reads : p.reads = wrapAddrs p.base (k + pt.asked)
  answered : p.answered = k + pt.arrived
  held : pt.arrived = 1 → p.held = p.base + BitVec.ofNat 42 (k % 64)
  handled : p.handled = wrapAddrs p.base k
  rest : pt.busy = false → σ.afu.partitionProcessed = true ∧ σ.afu.clReqAllowed = false

section Cycle
variable {σ : DpSys} {w : DpWires} {pt : DpPoint} {p : DpRun} {k : Nat}

theorem DpPoint.busy_of_passes (h : pt.passes = true) : pt.busy = true ∧ pt ≠ .announced := by
  obtain ⟨j, _, rfl⟩ := DpPoint.exists_of_passes h
  exact ⟨rfl, by simp⟩

/-- The three widths of the comparison: pass `k` ends the partition when `k % 64 + 1` is `total_cls`. -/
theorem DpCurrent.compare (h : DpCurrent σ pt p k) (hpass : pt.passes = true) :
    σ.last = decide (k % 64 + 1 = p.cls) ∧
      (σ.last = false → σ.afu.nextCount < σ.afu.totalCls.setWidth 32) := by
  obtain ⟨hbusy, hpt⟩ := DpPoint.busy_of_passes hpass
  have hcount := h.count hbusy
  have hcls := h.cls hbusy
  have hbound := σ.afu.totalCls.isLt
  have hleft : σ.afu.nextCount.toNat = k % 64 + 1 := by
    unfold DpScanAfu.nextCount
    rw [h.total hbusy hpt, BitVec.toNat_add, BitVec.toNat_setWidth, BitVec.toNat_ofNat]
    show (k % 2 ^ 6 % 2 ^ 32 + 1) % 2 ^ 32 = _
    omega
  have hright : (σ.afu.totalCls.setWidth 32).toNat = p.cls := by
    rw [BitVec.toNat_setWidth, hcls]
    omega
  have hlast : σ.last = decide (k % 64 + 1 = p.cls) := by
    rw [DpSys.last, Bool.eq_iff_iff, beq_iff_eq, decide_eq_true_iff, ← BitVec.toNat_inj, hleft, hright]
  refine ⟨hlast, fun hfalse => ?_⟩
  rw [hlast, decide_eq_false_iff_not] at hfalse
  rw [BitVec.lt_def, hleft, hright]
  omega

theorem DpCurrent.control_step (h : DpCurrent σ pt p k) (hc : DpControl σ pt) (hw : DpProtocol σ w) :
    DpControl (σ.step w) (pt.next w σ.last) :=
  hc.step hw fun hpass => (h.compare hpass).2

section Record
variable (h : DpCurrent σ pt p k) (hc : DpControl σ pt) (hw : DpProtocol σ w)
include h hc hw

theorem DpCurrent.reads_step : (p.observe σ.afu w (σ.afu.step w)).reads =
    wrapAddrs p.base (k + pt.passes.toNat + (pt.next w σ.last).asked) := by
  have hvalid : (σ.afu.step w).c0Valid = decide (pt.next w σ.last = .requested) := (h.control_step hc hw).c0Valid
  by_cases hreq : pt = .requesting ∧ w.c0TxAlmFull = false
  · have hnext := (DpPoint.next_requested σ.last).mpr hreq
    obtain ⟨rfl, hfull⟩ := hreq
    have haddr : (σ.afu.step w).c0Address = p.base + BitVec.ofNat 42 (k % 64) := by
      have hs := hc.state
      have hbase := h.base rfl
      have htotal := h.total rfl (by simp)
      have hoff : (BitVec.ofNat 6 k).setWidth 42 = BitVec.ofNat 42 (k % 64) := by
        apply BitVec.eq_of_toNat_eq
        simp
      simp only [DpPoint.state] at hs
      simp [DpScanAfu.step, DpScanAfu.readRequest, DpScanAfu.readReqAddress, hs, hw.noReset, hbase, htotal, hoff]
    rw [hnext] at hvalid ⊢
    simp only [DpRun.observe, hvalid, haddr, decide_true, if_true, h.reads]
    exact (wrapAddrs_succ p.base k).symm
  · have hquiet : (σ.afu.step w).c0Valid = false := by
      rw [hvalid, decide_eq_false_iff_not, DpPoint.next_requested σ.last]
      exact hreq
    have hfull : pt ≠ .requesting ∨ w.c0TxAlmFull = true := by
      by_cases hpt : pt = .requesting
      · exact .inr (by simpa [hpt] using hreq)
      · exact .inl hpt
    have hasked := DpPoint.next_asked σ.last hfull
    simp only [DpRun.observe, hquiet, Bool.false_eq_true, if_false, h.reads]
    congr 1
    omega

theorem DpCurrent.answered_step : (p.observe σ.afu w (σ.afu.step w)).answered =
    k + pt.passes.toNat + (pt.next w σ.last).arrived := by
  have hanswered := h.answered
  by_cases hline : pt ≠ .awaiting ∨ w.readRsp = none
  · have hnone : w.readRsp = none := hline.elim (hc.no_response hw) id
    have harrived := DpPoint.next_arrived σ.last hline
    simp only [DpRun.observe, hnone, Option.isSome_none, Bool.false_eq_true, if_false]
    omega
  · push Not at hline
    obtain ⟨rfl, hsome⟩ := hline
    have hr := Option.isSome_iff_ne_none.mpr hsome
    simpa [DpRun.observe, hr, DpPoint.next, DpPoint.arrived, DpPoint.passes] using hanswered

theorem DpCurrent.held_step (hnext : (pt.next w σ.last).arrived = 1) :
    (p.observe σ.afu w (σ.afu.step w)).held = p.base + BitVec.ofNat 42 ((k + pt.passes.toNat) % 64) := by
  have hs := hc.state
  by_cases hline : pt ≠ .awaiting ∨ w.readRsp = none
  · have hnone : w.readRsp = none := hline.elim (hc.no_response hw) id
    have harrived := DpPoint.next_arrived σ.last hline
    have hone : pt.arrived = 1 ∧ pt.passes.toNat = 0 := by
      cases pt <;> simp_all [DpPoint.arrived, DpPoint.passes]
    have hheld := h.held hone.1
    simpa [DpRun.observe, hnone, hone.2] using hheld
  · push Not at hline
    obtain ⟨rfl, hsome⟩ := hline
    have hr := Option.isSome_iff_ne_none.mpr hsome
    have hreads : p.reads = wrapAddrs p.base (k + 1) := h.reads
    have hanswered : p.answered = k := h.answered
    simp only [DpRun.observe, hs, hr, DpPoint.state, hreads, hanswered, DpPoint.passes, and_self, if_true]
    exact getD_wrapAddrs p.base (Nat.lt_succ_self k)

theorem DpCurrent.handled_step : (p.observe σ.afu w (σ.afu.step w)).handled =
    wrapAddrs p.base (k + pt.passes.toNat) := by
  have hs := hc.state
  have hnext : (σ.afu.step w).state = (pt.next w σ.last).state := (h.control_step hc hw).state
  have hhandled := h.handled
  cases hpass : pt.passes with
  | true =>
    have hheld := h.held
    obtain ⟨j, hj, rfl⟩ := DpPoint.exists_of_passes hpass
    have hidle : σ.afu.state = .processing ∧ (σ.afu.step w).state = .idle := by
      rw [hs, hnext]
      cases hl : σ.last <;> simp [DpPoint.next, DpPoint.state, hj]
    simp only [DpRun.observe, if_pos hidle, hhandled, hheld rfl]
    exact (wrapAddrs_succ p.base k).symm
  | false =>
    have hidle : ¬ (σ.afu.state = .processing ∧ (σ.afu.step w).state = .idle) := by
      rw [hs, hnext]
      cases pt with
      | filtering j =>
        have hj : ¬ 8 ≤ j := of_decide_eq_false hpass
        simp [DpPoint.next, DpPoint.state, hj]
      | _ => simp [DpPoint.state]
    simp only [DpRun.observe, if_neg hidle, hhandled]
    rfl

section Quiet
variable (h4 : (w.wrCsrs 4).en = false)
include h4

theorem DpCurrent.processed_step : (p.observe σ.afu w (σ.afu.step w)).processed = !(pt.next w σ.last).busy := by
  have hprocessed := h.processed
  have hflag := hc.flag
  have hflag' : pt.next w σ.last ≠ .waiting → pt.next w σ.last ≠ .announced →
      (σ.afu.step w).partitionProcessed = decide (pt.next w σ.last = .done) := (h.control_step hc hw).flag
  simp only [DpRun.observe, hprocessed]
  cases pt with
  | filtering j =>
    by_cases hj : 8 ≤ j
    · cases hl : σ.last <;> simp_all [DpPoint.next, DpPoint.busy]
    · have hnext : (DpPoint.filtering j).next w σ.last = .filtering (j + 1) := if_neg hj
      rw [hnext] at hflag' ⊢
      simp_all [DpPoint.busy]
  | waiting => simp [DpPoint.next, DpPoint.busy, h4]
  | announced => simp_all [DpPoint.next, DpPoint.busy]
  | idle => simp_all [DpPoint.next, DpPoint.busy]
  | requesting => cases hfull : w.c0TxAlmFull <;> simp_all [DpPoint.next, DpPoint.busy]
  | requested => simp_all [DpPoint.next, DpPoint.busy]
  | awaiting => cases hr : w.readRsp <;> simp_all [DpPoint.next, DpPoint.busy]
  | received => simp_all [DpPoint.next, DpPoint.busy]
  | done => simp [DpPoint.next, DpPoint.busy]

theorem DpCurrent.total_step (hbusy : (pt.next w σ.last).busy = true) :
    (σ.afu.step w).totalClsProcessed = BitVec.ofNat 6 (k + pt.passes.toNat) := by
  have htotal := h.total
  show (σ.afu.mainLogic w).totalClsProcessed = _
  rw [hc.mainLogic_eq hw]
  have hnow := (DpPoint.busy_of_next σ.last h4 hbusy).1
  cases pt with
  | waiting => cases hnow
  | done => cases hnow
  | announced => rw [h.fresh rfl]; rfl
  | filtering j =>
    have hnow := htotal rfl (by simp)
    by_cases hj : 8 ≤ j
    · simp only [DpPoint.advance, DpPoint.passes, if_pos hj, hnow, decide_eq_true hj, Bool.toNat_true]
      rw [BitVec.ofNat_add]
      rfl
    · simpa [DpPoint.advance, DpPoint.passes, hj] using hnow
  | _ => exact htotal rfl (by simp)

theorem DpCurrent.rest_step (hbusy : (pt.next w σ.last).busy = false) :
    (σ.afu.step w).partitionProcessed = true ∧ (σ.afu.step w).clReqAllowed = false := by
  have hrest := h.rest
  have hcontrol := h.control_step hc hw
  cases hb : pt.busy with
  | true =>
    -- the pass that ends the partition
    have hdone : pt.next w σ.last = .done := (DpPoint.next_done σ.last).mpr (DpPoint.last_of_next σ.last h4 hb hbusy)
    rw [hdone] at hcontrol
    exact ⟨hcontrol.flag (by simp) (by simp), hcontrol.clReqAllowed (.inr rfl)⟩
  | false =>
    have hold := hrest hb
    show (σ.afu.mainLogic w).partitionProcessed = true ∧ (σ.afu.mainLogic w).clReqAllowed = false
    rw [hc.mainLogic_eq hw]
    cases pt with
    | waiting => exact hold
    | done => exact hold
    | _ => cases hb

omit hc hw in
theorem DpCurrent.count_step (hnext : (pt.next w σ.last).busy = true) (hcls : p.cls ≤ 64) :
    k + pt.passes.toNat < p.cls := by
  obtain ⟨hbusy, hlast⟩ := DpPoint.busy_of_next σ.last h4 hnext
  have hbefore := h.count hbusy hcls
  cases hpass : pt.passes with
  | false => exact hbefore
  | true =>
    have hcmp := (h.compare hpass).1
    rw [hlast hpass, eq_comm, decide_eq_false_iff_not] at hcmp
    show k + 1 < p.cls
    omega

omit hc hw in
theorem DpCurrent.complete_step (hnext : (pt.next w σ.last).busy = false) :
    p.cls ≤ 64 ∧ k + pt.passes.toNat = p.cls := by
  cases hbusy : pt.busy with
  | false =>
    have hpass : pt.passes = false := by
      rw [Bool.eq_false_iff]
      intro hpass
      rw [(DpPoint.busy_of_passes hpass).1] at hbusy
      cases hbusy
    rw [hpass]
    exact h.complete hbusy
  | true =>
    obtain ⟨hpass, hlast⟩ := DpPoint.last_of_next σ.last h4 hbusy hnext
    have hcmp := (h.compare hpass).1
    have hcount := h.count hbusy
    rw [hlast, eq_comm, decide_eq_true_iff] at hcmp
    rw [hpass]
    show p.cls ≤ 64 ∧ k + 1 = p.cls
    omega

/-- One cycle without an announcement. -/
theorem DpCurrent.step :
    DpCurrent (σ.step w) (pt.next w σ.last) (p.observe σ.afu w (σ.afu.step w)) (k + pt.passes.toNat) := by
  have hsource : (pt.next w σ.last).busy = true → pt.busy = true := fun hb => (DpPoint.busy_of_next σ.last h4 hb).1
  constructor
  case cur => simp [DpSys.step, h4, h.cur]
  case processed => exact h.processed_step hc hw h4
  case pos => exact h.pos
  case count => exact h.count_step h4
  case complete => exact h.complete_step h4
  case fresh => exact fun hnext => absurd ((DpPoint.next_announced σ.last).mp hnext).2 (by simp [h4])
  case total => exact fun hb _ => h.total_step hc hw h4 hb
  case base =>
    intro hb
    show (σ.afu.csrRegs w).readBuffAddress = p.base
    simp [DpScanAfu.csrRegs, h4, h.base (hsource hb)]
  case cls =>
    intro hb
    have hbusy' : σ.busy = true := by
      simp [DpSys.busy, h.cur, h.processed, hsource hb]
    show (σ.afu.csrRegs w).totalCls.toNat = p.cls
    simp [DpScanAfu.csrRegs, hw.stable (.inr hbusy'), h.cls (hsource hb)]
  case reads => exact h.reads_step hc hw
  case answered => exact h.answered_step hc hw
  case held => exact h.held_step hc hw
  case handled => exact h.handled_step hc hw
  case rest => exact h.rest_step hc hw h4

end Quiet

end Record

/-- The cycle that announces a partition. -/
theorem dpCurrent_start (hc : DpControl σ .waiting) (hw : DpProtocol σ w) (h4 : (w.wrCsrs 4).en = true) :
    DpCurrent (σ.step w) .announced
      ((DpRun.start σ.afu (w.wrCsrs 4).data).observe σ.afu w (σ.afu.step w)) 0 := by
  have hs := hc.state
  have hquiet := hc.no_response hw (by decide)
  have hvalid : (σ.afu.step w).c0Valid = false := by
    rw [(hc.readRequest_step hw).1]
    simp [DpPoint.next, h4]
  have hflag : (σ.afu.step w).partitionProcessed = σ.afu.partitionProcessed := by
    show (σ.afu.mainLogic w).partitionProcessed = _
    rw [hc.mainLogic_eq hw]
    rfl
  have hcls : σ.afu.totalCls.toNat ≠ 0 := fun hzero => (hw.announce h4).2.2 (BitVec.eq_of_toNat_eq hzero)
  have h0 := hw.stable (.inl h4)
  constructor
  case cur => simp [DpSys.step, h4]
  case pos => exact Nat.pos_of_ne_zero hcls
  case count => exact fun _ _ => Nat.pos_of_ne_zero hcls
  case base =>
    intro _
    show (σ.afu.csrRegs w).readBuffAddress = csrClAddr (w.wrCsrs 4).data
    simp [DpScanAfu.csrRegs, h4]
  case cls =>
    intro _
    show (σ.afu.csrRegs w).totalCls.toNat = σ.afu.totalCls.toNat
    simp [DpScanAfu.csrRegs, h0]
  all_goals
    simp [DpRun.observe, DpRun.start, DpPoint.busy, DpPoint.asked, DpPoint.arrived, DpPoint.state, wrapAddrs, hs,
      hquiet, hvalid, hflag]

end Cycle

/-! ## Runs -/

/-- A point of the handshake, and the partition that was announced last. -/
def DpInv (σ : DpSys) : Prop :=
  ∃ pt, DpControl σ pt ∧ (pt = .waiting ∧ σ.cur = none ∨ ∃ p k, DpCurrent σ pt p k)

section Runs
variable {σ : DpSys} {w : DpWires}

theorem DpInv.step (h : DpInv σ) (hw : DpProtocol σ w) : DpInv (σ.step w) := by
  obtain ⟨pt, hc, hp⟩ := h
  by_cases h4 : (w.wrCsrs 4).en = true
  · have hpt : pt = .waiting := by
      by_contra hne
      rw [hc.no_announce hw hne] at h4
      cases h4
    subst hpt
    have hc' := hc.step hw (fun hpass => by cases hpass)
    rw [DpPoint.next, if_pos h4] at hc'
    exact ⟨_, hc', .inr ⟨_, 0, dpCurrent_start hc hw h4⟩⟩
  · rw [Bool.not_eq_true] at h4
    rcases hp with ⟨rfl, hnone⟩ | ⟨p, k, hp⟩
    · have hc' := hc.step hw (fun hpass => by cases hpass)
      exact ⟨_, hc', .inl ⟨by simp [DpPoint.next, h4], by simp [DpSys.step, h4, hnone]⟩⟩
    · exact ⟨_, hp.control_step hc hw, .inr ⟨_, _, hp.step hc hw h4⟩⟩

/-- What the power-on reset establishes. -/
structure DpResetDone (s : DpScanAfu) : Prop where
  state : s.state = .waiting
  ready : s.newPartitionReady = false
  c0Valid : s.c0Valid = false
  clReqIssued : s.clReqIssued = false
  clReceived : s.clReceived = false

theorem dpResetDone_step {s : DpScanAfu} (hw : DpResetCycle w) (hi : s.clReqIssued = false)
    (hc : s.clReceived = false) : DpResetDone (s.step w) := by
  obtain ⟨hr, hk, hn⟩ := hw
  constructor
  · simp [DpScanAfu.step, DpScanAfu.nextState, hr]
  · exact hk 4
  · simp [DpScanAfu.step, DpScanAfu.readRequest, hr]
  · simpa [DpScanAfu.step, DpScanAfu.readRequest, hr] using hi
  · cases hs : s.state <;> simp [DpScanAfu.step, DpScanAfu.readResponse, hs, hn, hc]

theorem dpResetDone_foldl (ws : List DpWires) : ∀ s : DpScanAfu, ws ≠ [] → (∀ w ∈ ws, DpResetCycle w) →
    s.clReqIssued = false → s.clReceived = false → DpResetDone (ws.foldl DpScanAfu.step s) := by
  induction ws with
  | nil => exact fun _ hne => absurd rfl hne
  | cons w ws ih =>
    intro s _ hw hi hc
    rw [List.forall_mem_cons] at hw
    have hone := dpResetDone_step hw.1 hi hc
    cases ws with
    | nil => exact hone
    | cons v ws => exact ih _ (List.cons_ne_nil v ws) hw.2 hone.clReqIssued hone.clReceived

theorem DpBooted.control (h : DpBooted σ) : DpControl σ .waiting := by
  obtain ⟨s, ws, hs, hne, hw, he⟩ := h.afu
  obtain ⟨hstate, hready, hvalid, hissued, hreceived⟩ :=
    dpResetDone_foldl ws s hne hw hs.clReqIssued hs.clReceived
  rw [← he] at hstate hready hvalid hissued hreceived
  constructor
  case state => exact hstate
  case newPartitionReady => exact hready
  case c0Valid => exact hvalid
  case clReqIssued => exact hissued
  case clReceived => exact hreceived
  case empty => simp [hstate]
  case outstanding => exact h.outstanding
  all_goals simp

theorem dpInv_of_reachable (h : Reachable dpSystem σ) : DpInv σ := by
  refine h.invariant (P := DpInv) ?_ fun σ w _ hσ hw => hσ.step hw
  intro σ h0
  exact ⟨.waiting, h0.control, .inl ⟨rfl, h0.cur⟩⟩

end Runs

end SdbFpga.Fpga
