import SdbFpga.Fpga.JoinSystem
import SdbFpga.Fpga.ScanInvariant

/-!
# The handshake invariant of `join_afu`

* `JoinPoint` : the points of the handshake, `JoinPoint.next` : the way from one to the next, `JoinPoint.advance` : what
  the state machine does there;
* `Control`, `Control.step` : the flags at each point;
* `JoinFed`, `JoinHolds` : the parameter registers;
* `Current`, `Current.step` : the record of the current partition and the registers it depends on.
-/

namespace SdbFpga.Fpga
open Transition Bits

/-! ## The points of the handshake -/

inductive JoinPoint
  | waiting
  | announced
  | idle
  | requesting
  | requested
  | awaiting
  | received
  | filtering
  | posting
  | done
  deriving DecidableEq, Repr

namespace JoinPoint

def state : JoinPoint → TState
  | waiting => .waiting
  | announced => .waiting
  | idle => .idle
  | requesting => .req
  | requested => .req
  | awaiting => .rsp
  | received => .rsp
  | filtering => .processing
  | posting => .processing
  | done => .idle

/-- A partition is announced and not processed. -/
def busy : JoinPoint → Bool
  | waiting => false
  | done => false
  | _ => true

/-- Requests issued for the line being processed. -/
def asked : JoinPoint → Nat
  | requested => 1
  | awaiting => 1
  | received => 1
  | filtering => 1
  | posting => 1
  | _ => 0

/-- Lines received of it. -/
def arrived : JoinPoint → Nat
  | received => 1
  | filtering => 1
  | posting => 1
  | _ => 0

/-- Lines processed by the cycle at this point. -/
def passed : JoinPoint → Nat
  | posting => 1
  | _ => 0

/-- Where a cycle leads; `last` says whether the line being processed is the last one. -/
def next (w : Wires) (last : Bool) : JoinPoint → JoinPoint
  | waiting => if (w.wrCsrs 4).en then announced else waiting
  | announced => idle
  | idle => requesting
  | requesting => if w.c0TxAlmFull then requesting else requested
  | requested => awaiting
  | awaiting => if w.readRsp.isSome then received else awaiting
  | received => filtering
  | filtering => posting
  | posting => if last then done else idle
  | done => waiting

/-- The state machine's registers after a cycle at this point. -/
def advance (s : JoinAfu) : JoinPoint → JoinAfu
  | announced => { s with state := .idle, partitionProcessed := false, clReqAllowed := true, clsProcessed := 0 }
  | idle => { s with state := .req, clReqAllowed := false }
  | requested => { s with state := .rsp }
  | received => { s with state := .processing }
  | filtering => { s with clProcessed := true }
  | posting =>
    { s with
      state := .idle
      clReqAllowed := decide (s.clsProcessed + 1 < s.clsToProcess.setWidth 32)
      partitionProcessed := s.clsProcessed + 1 == s.clsToProcess.setWidth 32
      clsProcessed := s.clsProcessed + 1
      clProcessed := false }
  | done => { s with state := .waiting }
  | _ => s

theorem passed_eq (pt : JoinPoint) : pt.passed = if pt = posting then 1 else 0 := by
  cases pt <;> rfl

section Next
variable {w : Wires} (last : Bool) {pt : JoinPoint}

theorem next_idle : pt.next w last = idle ↔ pt = announced ∨ pt = posting ∧ last = false := by
  cases pt <;> grind [next]

theorem next_requested : pt.next w last = requested ↔ pt = requesting ∧ w.c0TxAlmFull = false := by
  cases pt <;> grind [next]

theorem next_awaiting : pt.next w last = awaiting ↔ pt = requested ∨ pt = awaiting ∧ w.readRsp.isSome = false := by
  cases pt <;> grind [next]

theorem next_received : pt.next w last = received ↔ pt = awaiting ∧ w.readRsp.isSome = true := by
  cases pt <;> grind [next]

theorem next_filtering : pt.next w last = filtering ↔ pt = received := by
  cases pt <;> grind [next]

theorem next_posting : pt.next w last = posting ↔ pt = filtering := by
  cases pt <;> grind [next]

theorem advance_state {s : JoinAfu} (hs : s.state = pt.state) : (pt.advance s).state = (pt.next w last).state := by
  cases pt <;> grind [advance, next, state]

theorem next_asked (hfull : pt ≠ .requesting ∨ w.c0TxAlmFull = true) :
    (pt.next w last).asked + pt.passed = pt.asked := by
  cases pt <;> grind [next, asked, passed]

theorem next_arrived (hline : pt ≠ .awaiting ∨ w.readRsp = none) :
    (pt.next w last).arrived + pt.passed = pt.arrived := by
  cases pt <;> grind [next, arrived, passed]

variable (h4 : (w.wrCsrs 4).en = false)
include h4

theorem next_ne_announced : pt.next w last ≠ announced := by
  cases pt <;> grind [next]

theorem next_busy : (pt.next w last).busy = (pt.busy && !(decide (pt = posting) && last)) := by
  cases pt <;> grind [next, busy]

theorem busy_of_next (hb : (pt.next w last).busy = true) : pt.busy = true := by
  rw [next_busy last h4, Bool.and_eq_true] at hb
  exact hb.1

end Next

end JoinPoint

/-- The flags at a point. -/
structure Control (σ : JoinSys) (pt : JoinPoint) : Prop where
  state : σ.afu.state = pt.state
  newPartitionReady : σ.afu.newPartitionReady = decide (pt = .announced)
  c0Valid : σ.afu.c0Valid = decide (pt = .requested)
  clReqIssued : σ.afu.clReqIssued = decide (pt = .requested)
  clReceived : σ.afu.clReceived = decide (pt = .received)
  clProcessed : σ.afu.clProcessed = decide (pt = .posting)
  outstanding : σ.outstanding = if pt = .awaiting then 1 else 0
  clReqAllowed : pt = .idle → σ.afu.clReqAllowed = true
  flag : pt ≠ .waiting → pt ≠ .announced → σ.afu.partitionProcessed = decide (pt = .done)
  c1Valid : pt.state ≠ .idle → σ.afu.c1Valid = false

section Control
variable {dim : Nat} {bitmap : Nat → Bool} {σ : JoinSys} {w : Wires} {pt : JoinPoint}

/-- A partition is announced at rest only. -/
theorem Control.no_announce (h : Control σ pt) (hw : JoinProtocol dim bitmap σ w) (hpt : pt ≠ .waiting) :
    (w.wrCsrs 4).en = false := by
  rw [Bool.eq_false_iff]
  intro hen
  obtain ⟨hs, hn, _⟩ := hw.announce hen
  rw [h.state] at hs
  rw [h.newPartitionReady, decide_eq_false_iff_not] at hn
  cases pt with
  | waiting => exact hpt rfl
  | announced => exact hn rfl
  | _ => cases hs

/-- A line arrives only where one is awaited. -/
theorem Control.no_response (h : Control σ pt) (hw : JoinProtocol dim bitmap σ w) (hpt : pt ≠ .awaiting) :
    w.readRsp = none := by
  rw [Option.eq_none_iff_forall_not_mem]
  intro cl hcl
  have hout := (hw.response cl hcl).1
  rw [h.outstanding, if_neg hpt] at hout
  cases hout

/-- Whether the line being processed is the last one. -/
def JoinSys.last (σ : JoinSys) : Bool := σ.afu.clsProcessed + 1 == σ.afu.clsToProcess.setWidth 32

section Registers
variable (h : Control σ pt) (hw : JoinProtocol dim bitmap σ w)
include h hw

theorem Control.stateMachine_eq : σ.afu.stateMachine w = pt.advance σ.afu := by
  have hs := h.state
  have hn := h.newPartitionReady
  have hissued := h.clReqIssued
  have hreceived := h.clReceived
  have hprocessed := h.clProcessed
  have hallowed := h.clReqAllowed
  have hflag := h.flag
  cases pt <;>
    simp [JoinAfu.stateMachine, JoinPoint.advance, JoinPoint.state, hw.noReset, hs, hn, hissued, hreceived,
      hprocessed, hallowed, hflag]

theorem Control.newPartitionReady_step :
    (σ.afu.step w).newPartitionReady = decide (pt.next w σ.last = .announced) := by
  have hnew : (σ.afu.step w).newPartitionReady = (w.wrCsrs 4).en := by
    simp [JoinAfu.step, JoinAfu.csrRegs, hw.active]
  rw [hnew]
  by_cases hpt : pt = .waiting
  · subst hpt
    cases h4 : (w.wrCsrs 4).en <;> simp [JoinPoint.next, h4]
  · have h4 := h.no_announce hw hpt
    rw [h4, eq_comm, decide_eq_false_iff_not]
    exact JoinPoint.next_ne_announced σ.last h4

/-- A request becomes visible when `STATE_REQ` finds the channel free. -/
theorem Control.readRequest_step : (σ.afu.step w).c0Valid = decide (pt.next w σ.last = .requested) ∧
    (σ.afu.step w).clReqIssued = decide (pt.next w σ.last = .requested) := by
  have hs := h.state
  have hvalid := h.c0Valid
  have hissued := h.clReqIssued
  simp only [JoinPoint.next_requested, Bool.decide_and]
  show (σ.afu.readRequest w).c0Valid = _ ∧ (σ.afu.readRequest w).clReqIssued = _
  cases pt <;> simp [JoinAfu.readRequest, JoinPoint.state, hw.noReset, hs, hvalid, hissued]

theorem Control.clReceived_step : (σ.afu.step w).clReceived = decide (pt.next w σ.last = .received) := by
  have hs := h.state
  have hreceived := h.clReceived
  have hquiet := h.no_response hw
  simp only [JoinPoint.next_received, Bool.decide_and]
  show (σ.afu.readResponse w).clReceived = _
  cases pt <;> simp [JoinAfu.readResponse, JoinPoint.state, hs, hreceived, hquiet]

theorem Control.outstanding_step : (σ.step w).outstanding = if pt.next w σ.last = .awaiting then 1 else 0 := by
  have hout := h.outstanding
  have hvalid := h.c0Valid
  have hquiet := h.no_response hw
  simp only [JoinSys.step, hout, hvalid, JoinPoint.next_awaiting]
  cases pt with
  | awaiting => cases hr : w.readRsp <;> simp
  | _ => simp [hquiet]

/-- A write request becomes visible after the cycle that posts a line of keys, unless the channel refuses it. -/
theorem Control.c1Valid_step :
    (σ.afu.step w).c1Valid = (decide (pt = .posting) && σ.afu.bitmapReady && !w.c1TxAlmFull) := by
  have hs := h.state
  have hp := h.clProcessed
  by_cases hpt : pt = .posting
  · subst hpt
    cases hready : σ.afu.bitmapReady <;>
      simp [JoinAfu.step, JoinAfu.memoryWrite, hw.noReset, hs, hp, JoinPoint.state, hready]
  · simp [JoinAfu.step, JoinAfu.memoryWrite, hw.noReset, hp, hpt]

end Registers

/-- One cycle: the flags after it are those of the next point. -/
theorem Control.step (h : Control σ pt) (hw : JoinProtocol dim bitmap σ w)
    (hlast : pt = .posting → σ.last = false → σ.afu.clsProcessed + 1 < σ.afu.clsToProcess.setWidth 32) :
    Control (σ.step w) (pt.next w σ.last) := by
  have hmachine := h.stateMachine_eq hw
  have hs := h.state
  have hp := h.clProcessed
  have hflag := h.flag
  constructor
  case state =>
    show (σ.afu.stateMachine w).state = _
    rw [hmachine]
    exact JoinPoint.advance_state σ.last hs
  case newPartitionReady => exact h.newPartitionReady_step hw
  case c0Valid => exact (h.readRequest_step hw).1
  case clReqIssued => exact (h.readRequest_step hw).2
  case clReceived => exact h.clReceived_step hw
  case clProcessed =>
    show (σ.afu.stateMachine w).clProcessed = _
    simp only [hmachine, JoinPoint.next_posting]
    cases pt <;> simp [JoinPoint.advance, hp]
  case outstanding => exact h.outstanding_step hw
  case clReqAllowed =>
    intro hidle
    show (σ.afu.stateMachine w).clReqAllowed = true
    rw [hmachine]
    rcases (JoinPoint.next_idle σ.last).mp hidle with rfl | ⟨rfl, hl⟩
    · rfl
    · exact decide_eq_true (hlast rfl hl)
  case flag =>
    intro hwaiting hannounced
    show (σ.afu.stateMachine w).partitionProcessed = _
    rw [hmachine]
    cases pt with
    | waiting => cases h4 : (w.wrCsrs 4).en <;> simp [JoinPoint.next, h4] at hwaiting hannounced
    | requesting => cases hfull : w.c0TxAlmFull <;> simp [JoinPoint.next, JoinPoint.advance, hflag, hfull]
    | awaiting => cases hr : w.readRsp <;> simp [JoinPoint.next, JoinPoint.advance, hflag, hr]
    | posting =>
      cases hl : σ.last with
      | false => simpa [JoinPoint.next, JoinPoint.advance, JoinSys.last, hl] using hl
      | true => simpa [JoinPoint.next, JoinPoint.advance, JoinSys.last, hl] using hl
    | done => exact absurd rfl hwaiting
    | _ => simp [JoinPoint.next, JoinPoint.advance, hflag]
  case c1Valid =>
    intro hnext
    show (σ.afu.step w).c1Valid = false
    rw [h.c1Valid_step hw]
    by_cases hpt : pt = .posting
    · subst hpt
      cases hl : σ.last <;> simp [JoinPoint.next, JoinPoint.state, hl] at hnext
    · simp [hpt]

/-- The join unit keeps its registers outside of the first cycle of `STATE_PROCESSING`. -/
theorem Control.unit_keep (h : Control σ pt) (hw : JoinProtocol dim bitmap σ w) (hpt : pt ≠ .filtering) :
    σ.afu.lineorderDate w = σ.afu.loDateJoin := by
  have hoff : (decide (σ.afu.state = .processing) && !σ.afu.clProcessed) = false := by
    rw [h.state, h.clProcessed]
    cases pt <;> first | rfl | exact absurd rfl hpt
  unfold JoinAfu.lineorderDate
  rw [hoff, hw.noReset]
  exact clock_off _ _ _

/-- In that cycle it stores or looks up the line. -/
theorem Control.unit_filter (h : Control σ .filtering) (hw : JoinProtocol dim bitmap σ w) :
    σ.afu.lineorderDate w = σ.afu.loDateJoin.clock false σ.afu.readingBitmap σ.afu.bitmapReady σ.afu.clsProcessed
      σ.afu.rspData := by
  have hs := h.state
  have hp := h.clProcessed
  simp only [JoinPoint.state, reduceCtorEq, decide_false] at hs hp
  simp [JoinAfu.lineorderDate, hs, hp, hw.noReset]

end Control

/-! ## The current partition -/

/-- The addresses of `n` lines from `base` on. -/
def lineAddrs (base : ClAddr) (n : Nat) : List ClAddr := (List.range n).map fun i => base + BitVec.ofNat 42 i

theorem lineAddrs_succ (base : ClAddr) (n : Nat) :
    lineAddrs base (n + 1) = lineAddrs base n ++ [base + BitVec.ofNat 42 n] := by
  simp [lineAddrs, List.range_succ]

/-- The join of a line: bit `l` is the bitmap at key `l`. -/
def joinLine (bitmap : Nat → Bool) (cl : ClData) : ClData :=
  setBits 0 ((List.range 32).map fun l => (l, bitmap (lane 16 l cl).toNat))

theorem getLsbD_joinLine (bitmap : Nat → Bool) (cl : ClData) (l : Nat) :
    (joinLine bitmap cl).getLsbD l = (decide (l < 32) && bitmap (lane 16 l cl).toNat) := by
  rw [joinLine, getLsbD_setBits_range _ (fun l => bitmap (lane 16 l cl).toNat) 32 (by decide)]
  by_cases hl : l < 32
  · simp [hl]
  · simp [hl]

/-- The write request that belongs to line `i`. -/
def JoinRun.resultWrite (p : JoinRun) (bitmap : Nat → Bool) (i : Nat) : WriteReq where
  hdr := ⟨BitVec.ofNat 16 i, p.result + BitVec.ofNat 42 i⟩
  data := joinLine bitmap (p.lines.getD i 0)

/-- A CSR the host has written has reached its register; only 32 bits of a result are ever set. -/
structure JoinFed (σ : JoinSys) : Prop where
  clsToProcess : ∀ v, σ.csrs 0 = some v → σ.afu.clsToProcess = v.setWidth 7
  readingBitmap : ∀ v, σ.csrs 6 = some v → σ.afu.readingBitmap = v.getLsbD 0
  bitmapReady : ∀ v, σ.csrs 6 = some v → σ.afu.bitmapReady = (v == 0)
  resultAddress : ∀ v, σ.csrs 5 = some v → σ.afu.resultAddress = csrClAddr v
  bitResult : ∀ l, 32 ≤ l → σ.afu.loDateJoin.bitResult.getLsbD l = false

/-- The registers hold the parameters of partition `p`. -/
structure JoinHolds (s : JoinAfu) (p : JoinRun) : Prop where
  base : s.clAddress = p.base
  cls : s.clsToProcess.toNat = p.cls
  readingBitmap : s.readingBitmap = p.bitmap
  bitmapReady : s.bitmapReady = !p.bitmap

/-- Partition `p` at point `pt` with `k` lines processed. -/
structure Current (dim : Nat) (bitmap : Nat → Bool) (σ : JoinSys) (pt : JoinPoint) (p : JoinRun) (k : Nat) : Prop where
  cur : σ.cur = some p
  processed : p.processed = !pt.busy
  size : p.cls = if p.bitmap then dim / 512 + 1 else 64
  count : if pt.busy then k < p.cls else k = p.cls
  fresh : pt = .announced → k = 0
  clsProcessed : pt.busy = true → pt ≠ .announced → σ.afu.clsProcessed = BitVec.ofNat 32 k
  holds : pt.busy = true → JoinHolds σ.afu p
  reads : p.reads = lineAddrs p.base (k + pt.asked)
  lines : p.lines.length = k + pt.arrived
  good : ∀ i cl, p.lines[i]? = some cl → p.Good dim bitmap i cl
  rspData : pt = .received ∨ pt = .filtering → p.lines[k]? = some σ.afu.rspData
  stored : ∀ j < dim, (p.bitmap = true → j < 512 * (k + pt.passed)) → σ.afu.loDateJoin.bitMap.getLsbD j = bitmap j
  bitResult : pt = .posting → p.bitmap = false → σ.afu.loDateJoin.bitResult = joinLine bitmap (p.lines.getD k 0)
  tracks : pt.busy = true → p.result = csrClAddr ((σ.csrs 5).getD 0)
  given : pt.busy = true → p.bitmap = false → p.lines ≠ [] → (σ.csrs 5).isSome = true
  writes : ∃ is : List Nat, is.Sublist (List.range k) ∧ (p.bitmap = true → is = []) ∧
    p.writes = is.map (p.resultWrite bitmap)

theorem JoinFed.step {dim : Nat} {bitmap : Nat → Bool} {σ : JoinSys} {w : Wires} (h : JoinFed σ)
    (hw : JoinProtocol dim bitmap σ w) : JoinFed (σ.step w) where
  clsToProcess := by
    simp only [JoinSys.step, JoinAfu.step, JoinAfu.csrRegs, hw.active, Bool.true_and]
    exact register_step h.clsToProcess
  readingBitmap := by
    simp only [JoinSys.step, JoinAfu.step, JoinAfu.csrRegs, hw.active, Bool.true_and]
    exact register_step (f := fun v => v.getLsbD 0) h.readingBitmap
  bitmapReady := by
    simp only [JoinSys.step, JoinAfu.step, JoinAfu.csrRegs, hw.active, Bool.true_and]
    exact register_step (f := fun v => v == 0) h.bitmapReady
  resultAddress := by
    simp only [JoinSys.step, JoinAfu.step, JoinAfu.csrRegs, hw.active, Bool.true_and]
    exact register_step h.resultAddress
  bitResult := by
    intro l hl
    show (σ.afu.lineorderDate w).bitResult.getLsbD l = false
    unfold JoinAfu.lineorderDate
    rw [hw.noReset]
    cases decide (σ.afu.state = .processing) && !σ.afu.clProcessed && σ.afu.bitmapReady with
    | true =>
      rw [getLsbD_bitResult_lookup, if_neg (by omega)]
      exact h.bitResult l hl
    | false => exact h.bitResult l hl

/-! ## One cycle of the current partition -/

section Cycle
variable {dim : Nat} {bitmap : Nat → Bool} {σ : JoinSys} {w : Wires} {pt : JoinPoint} {p : JoinRun} {k : Nat}

/-- A partition has a line to process, and fewer lines than its register can count. -/
theorem Current.cls_lt (h : Current dim bitmap σ pt p k) (hdim : dim ≤ 2560) : 0 < p.cls ∧ p.cls < 128 := by
  rw [h.size]
  cases p.bitmap with
  | false => simp
  | true =>
    simp only [if_true]
    omega

/-- The register comparisons of `STATE_PROCESSING` compare the line count with the number of lines. -/
theorem Current.compare (h : Current dim bitmap σ pt p k) (hdim : dim ≤ 2560) (hpt : pt = .posting) :
    σ.last = decide (k + 1 = p.cls) ∧
      (σ.last = false → σ.afu.clsProcessed + 1 < σ.afu.clsToProcess.setWidth 32) := by
  have hcount := h.count
  have hcls := (h.holds (by rw [hpt]; rfl)).cls
  have hbound := (h.cls_lt hdim).2
  have hnum := h.clsProcessed (by rw [hpt]; rfl) (by rw [hpt]; decide)
  rw [hpt] at hcount
  change k < p.cls at hcount
  have hleft : (σ.afu.clsProcessed + 1).toNat = k + 1 := by
    rw [hnum, BitVec.toNat_add, BitVec.toNat_ofNat]
    show (k % 2 ^ 32 + 1) % 2 ^ 32 = k + 1
    omega
  have hright : (σ.afu.clsToProcess.setWidth 32).toNat = p.cls := by
    rw [BitVec.toNat_setWidth, hcls]
    omega
  have hlast : σ.last = decide (k + 1 = p.cls) := by
    rw [JoinSys.last, Bool.eq_iff_iff, beq_iff_eq, decide_eq_true_iff, ← BitVec.toNat_inj, hleft, hright]
  refine ⟨hlast, fun hfalse => ?_⟩
  rw [hlast, decide_eq_false_iff_not] at hfalse
  rw [BitVec.lt_def, hleft, hright]
  omega

/-- The line counter, extended to an address offset and truncated to a tag. -/
theorem Current.offset (h : Current dim bitmap σ pt p k) (hdim : dim ≤ 2560) (hb : pt.busy = true)
    (hpt : pt ≠ .announced) :
    σ.afu.clsProcessed.setWidth 42 = BitVec.ofNat 42 k ∧ σ.afu.clsProcessed.setWidth 16 = BitVec.ofNat 16 k := by
  have hcount := h.count
  have hbound := (h.cls_lt hdim).2
  rw [if_pos hb] at hcount
  rw [h.clsProcessed hb hpt]
  refine ⟨BitVec.setWidth_ofNat_of_le_of_lt (by omega) (by omega), ?_⟩
  rw [BitVec.setWidth_ofNat_of_le (by omega)]

/-- A line that arrives is the line the memory holds there. -/
theorem Current.good_step (h : Current dim bitmap σ pt p k) (hw : JoinProtocol dim bitmap σ w) (s' : JoinAfu) (i : Nat)
    (cl : ClData) (hi : (p.observe σ.afu w s').lines[i]? = some cl) : p.Good dim bitmap i cl := by
  simp only [JoinRun.observe] at hi
  rcases Nat.lt_or_ge i p.lines.length with hlt | hge
  · rw [List.getElem?_append_left hlt] at hi
    exact h.good i cl hi
  · rw [List.getElem?_append_right hge] at hi
    have hmem : cl ∈ w.readRsp := Option.mem_toList.mp (List.mem_of_getElem? hi)
    have hlen : i = p.lines.length := by
      obtain ⟨hlt, _⟩ := List.getElem?_eq_some_iff.mp hi
      rw [hmem, Option.toList_some, List.length_singleton] at hlt
      omega
    rw [hlen]
    exact (hw.response cl hmem).2 p h.cur

/-- `CSR[5]` is not written again once a line of keys has arrived. -/
theorem Current.result_step (h : Current dim bitmap σ pt p k) (hw : JoinProtocol dim bitmap σ w)
    (hkeys : p.bitmap = false) (hl : p.lines ≠ []) (s' : JoinAfu) : (p.observe σ.afu w s').result = p.result := by
  cases ho : p.processed with
  | true => simp [JoinRun.observe, ho]
  | false =>
    have h5 := (hw.resultFirst p h.cur ho hkeys).2 (.inr hl)
    simp [JoinRun.observe, h5]

/-- The write of a line does not depend on what follows it. -/
theorem Current.resultWrite_step (h : Current dim bitmap σ pt p k) (hw : JoinProtocol dim bitmap σ w)
    (hkeys : p.bitmap = false) {i : Nat} (hi : i < p.lines.length) (s' : JoinAfu) :
    (p.observe σ.afu w s').resultWrite bitmap i = p.resultWrite bitmap i := by
  have hne : p.lines ≠ [] := List.ne_nil_of_length_pos (by omega)
  have hget : (p.observe σ.afu w s').lines.getD i 0 = p.lines.getD i 0 := by
    simp [JoinRun.observe, List.getElem?_append_left hi]
  unfold JoinRun.resultWrite
  rw [h.result_step hw hkeys hne, hget]

theorem Current.writes_keep (h : Current dim bitmap σ pt p k) (hw : JoinProtocol dim bitmap σ w) {is : List Nat}
    (hsub : is.Sublist (List.range k)) (hnil : p.bitmap = true → is = []) (s' : JoinAfu) :
    is.map ((p.observe σ.afu w s').resultWrite bitmap) = is.map (p.resultWrite bitmap) := by
  apply List.map_congr_left
  intro i hi
  have hik := List.mem_range.mp (hsub.subset hi)
  have hlen := h.lines
  have hkeys : p.bitmap = false := by
    rw [Bool.eq_false_iff]
    intro hb
    rw [hnil hb] at hi
    cases hi
  exact h.resultWrite_step hw hkeys (by omega) s'

/-- The write request of a posted line of keys. -/
theorem Current.post_write (h : Current dim bitmap σ .posting p k) (hc : Control σ .posting)
    (hw : JoinProtocol dim bitmap σ w) (hf : JoinFed σ) (hdim : dim ≤ 2560) (hready : σ.afu.bitmapReady = true)
    (hkeys : p.bitmap = false) : ⟨(σ.afu.step w).c1Hdr, (σ.afu.step w).c1Data⟩ = p.resultWrite bitmap k := by
  have hs := hc.state
  have hp := hc.clProcessed
  have hlen : p.lines.length = k + 1 := h.lines
  have hne : p.lines ≠ [] := List.ne_nil_of_length_pos (by omega)
  obtain ⟨hoffset, htag⟩ := h.offset hdim rfl (by decide)
  have hresult : σ.afu.resultAddress = p.result := by
    obtain ⟨v, hv⟩ := Option.isSome_iff_exists.mp (h.given rfl hkeys hne)
    rw [h.tracks rfl, hf.resultAddress v hv, hv]
    rfl
  have hhdr : (σ.afu.step w).c1Hdr = ⟨BitVec.ofNat 16 k, p.result + BitVec.ofNat 42 k⟩ := by
    simp [JoinAfu.step, JoinAfu.memoryWrite, hw.noReset, hready, hs, hp, JoinPoint.state, JoinAfu.writeHdr, hoffset,
      htag, hresult]
  have hdata : (σ.afu.step w).c1Data = joinLine bitmap (p.lines.getD k 0) := by
    simp [JoinAfu.step, JoinAfu.memoryWrite, hw.noReset, hready, hs, hp, JoinPoint.state, h.bitResult rfl hkeys]
  rw [hhdr, hdata]
  rfl

/-- The flags after a cycle of the current partition. -/
theorem Current.control_step (h : Current dim bitmap σ pt p k) (hc : Control σ pt) (hw : JoinProtocol dim bitmap σ w)
    (hdim : dim ≤ 2560) : Control (σ.step w) (pt.next w σ.last) :=
  hc.step hw fun hpt => (h.compare hdim hpt).2

section Record
variable (h : Current dim bitmap σ pt p k) (hc : Control σ pt) (hw : JoinProtocol dim bitmap σ w)
include h hc hw

theorem Current.reads_step (hdim : dim ≤ 2560) : (p.observe σ.afu w (σ.afu.step w)).reads =
    lineAddrs p.base (k + pt.passed + (pt.next w σ.last).asked) := by
  have hvalid : (σ.afu.step w).c0Valid = decide (pt.next w σ.last = .requested) := (h.control_step hc hw hdim).c0Valid
  by_cases hreq : pt = .requesting ∧ w.c0TxAlmFull = false
  · have hnext := (JoinPoint.next_requested σ.last).mpr hreq
    obtain ⟨rfl, hfull⟩ := hreq
    have haddr : (σ.afu.step w).c0Address = p.base + BitVec.ofNat 42 k := by
      have hs := hc.state
      have hbase := (h.holds rfl).base
      have hoff := (h.offset hdim rfl (by decide)).1
      simp only [JoinPoint.state] at hs
      simp [JoinAfu.step, JoinAfu.readRequest, JoinAfu.readReqAddress, hs, hw.noReset, hbase, hoff]
    rw [hnext] at hvalid ⊢
    simp only [JoinRun.observe, hvalid, haddr, decide_true, if_true, h.reads]
    exact (lineAddrs_succ p.base k).symm
  · have hquiet : (σ.afu.step w).c0Valid = false := by
      rw [hvalid, decide_eq_false_iff_not, JoinPoint.next_requested σ.last]
      exact hreq
    have hfull : pt ≠ .requesting ∨ w.c0TxAlmFull = true := by
      by_cases hpt : pt = .requesting
      · exact .inr (by simpa [hpt] using hreq)
      · exact .inl hpt
    have hasked := JoinPoint.next_asked σ.last hfull
    simp only [JoinRun.observe, hquiet, Bool.false_eq_true, if_false, h.reads]
    congr 1
    omega

theorem Current.lines_step : (p.observe σ.afu w (σ.afu.step w)).lines.length =
    k + pt.passed + (pt.next w σ.last).arrived := by
  have hlen : (p.observe σ.afu w (σ.afu.step w)).lines.length = k + pt.arrived + w.readRsp.toList.length := by
    simp [JoinRun.observe, h.lines]
  rw [hlen]
  by_cases hline : pt ≠ .awaiting ∨ w.readRsp = none
  · have hnone : w.readRsp = none := hline.elim (hc.no_response hw) id
    have harrived := JoinPoint.next_arrived σ.last hline
    rw [hnone, Option.toList_none, List.length_nil]
    omega
  · push Not at hline
    obtain ⟨rfl, hsome⟩ := hline
    obtain ⟨cl, hcl⟩ := Option.ne_none_iff_exists'.mp hsome
    simp [hcl, JoinPoint.next, JoinPoint.arrived, JoinPoint.passed]

theorem Current.rspData_step (hpt : pt.next w σ.last = .received ∨ pt.next w σ.last = .filtering) :
    (p.observe σ.afu w (σ.afu.step w)).lines[k + pt.passed]? = some (σ.afu.step w).rspData := by
  have hs := hc.state
  rcases hpt with hpt | hpt
  · obtain ⟨rfl, hsome⟩ := (JoinPoint.next_received σ.last).mp hpt
    obtain ⟨cl, hr⟩ := Option.isSome_iff_exists.mp hsome
    have hlines : p.lines.length = k := h.lines
    simp [JoinRun.observe, JoinAfu.step, JoinAfu.readResponse, JoinPoint.passed, JoinPoint.state, hs, hr, ← hlines]
  · obtain rfl := (JoinPoint.next_filtering σ.last).mp hpt
    have hnone := hc.no_response hw (by decide)
    have hold := h.rspData (.inl rfl)
    simpa [JoinRun.observe, JoinAfu.step, JoinAfu.readResponse, JoinPoint.passed, JoinPoint.state, hs, hnone] using hold

theorem Current.stored_step (hdim : dim ≤ 2560) (j : Nat) (hj : j < dim)
    (hrow : p.bitmap = true → j < 512 * (k + pt.passed + (pt.next w σ.last).passed)) :
    (σ.afu.step w).loDateJoin.bitMap.getLsbD j = bitmap j := by
  show (σ.afu.lineorderDate w).bitMap.getLsbD j = bitmap j
  by_cases hpt : pt = .filtering
  · subst hpt
    have hreading := (h.holds rfl).readingBitmap
    have hcount := h.count
    have hbound := (h.cls_lt hdim).2
    simp only [JoinPoint.busy, if_true] at hcount
    rw [hc.unit_filter hw, hreading]
    cases hb : p.bitmap with
    | false => exact h.stored j hj fun htrue => by rw [hb] at htrue; cases htrue
    | true =>
      have hgood := h.good k _ (h.rspData (.inr rfl))
      simp only [JoinRun.Good, hb, if_true] at hgood
      have hlt : j < 512 * (k + 1) := hrow hb
      rw [h.clsProcessed rfl (by decide), getLsbD_bitMap_store _ _ _ (by omega) _ (by omega)]
      by_cases hline : 512 * k ≤ j
      · have hbit := hgood (j - 512 * k) (by omega) (by omega)
        rw [if_pos (by omega), hbit]
        congr 1
        omega
      · rw [if_neg (by omega)]
        exact h.stored j hj fun _ => by simp only [JoinPoint.passed]; omega
  · have hnext : (pt.next w σ.last).passed = 0 := by
      rw [JoinPoint.passed_eq, if_neg]
      rwa [JoinPoint.next_posting σ.last]
    rw [hc.unit_keep hw hpt]
    exact h.stored j hj fun hb => by
      have := hrow hb
      omega

/-- The lookup result is registered in the cycle before the post. -/
theorem Current.bitResult_step (hf : JoinFed σ) (hpt : pt.next w σ.last = .posting) (hkeys : p.bitmap = false) :
    (σ.afu.step w).loDateJoin.bitResult =
      joinLine bitmap ((p.observe σ.afu w (σ.afu.step w)).lines.getD (k + pt.passed) 0) := by
  obtain rfl := (JoinPoint.next_posting σ.last).mp hpt
  have hnone := hc.no_response hw (by decide)
  have hline := h.rspData (.inr rfl)
  have hgood := h.good k _ hline
  have hready := (h.holds rfl).bitmapReady
  simp only [JoinRun.Good, hkeys, Bool.false_eq_true, if_false] at hgood
  have hlast : (p.observe σ.afu w (σ.afu.step w)).lines.getD (k + JoinPoint.filtering.passed) 0 = σ.afu.rspData := by
    simp [JoinRun.observe, hnone, JoinPoint.passed, hline]
  rw [hlast]
  show (σ.afu.lineorderDate w).bitResult = _
  rw [hc.unit_filter hw, hready, hkeys]
  apply BitVec.eq_of_getLsbD_eq
  intro l _
  rw [Bool.not_false, getLsbD_bitResult_lookup, getLsbD_joinLine]
  by_cases hl : l < 32
  · have hkey := h.stored _ (hgood l hl) fun htrue => by rw [hkeys] at htrue; cases htrue
    simp [hl, hkey]
  · simp [hl, hf.bitResult l (by omega)]

/-- A post of a line of keys is the only write request. -/
theorem Current.writes_step (hf : JoinFed σ) (hdim : dim ≤ 2560) : ∃ is : List Nat,
    is.Sublist (List.range (k + pt.passed)) ∧ (p.bitmap = true → is = []) ∧
    (p.observe σ.afu w (σ.afu.step w)).writes =
      is.map ((p.observe σ.afu w (σ.afu.step w)).resultWrite bitmap) := by
  obtain ⟨is, hsub, hnil, hwrites⟩ := h.writes
  have hvalid := hc.c1Valid_step hw
  have hkeep := h.writes_keep hw hsub hnil (σ.afu.step w)
  cases hv : (σ.afu.step w).c1Valid with
  | false =>
    refine ⟨is, hsub.trans ?_, hnil, ?_⟩
    · exact List.range_sublist.mpr (Nat.le_add_right k pt.passed)
    · rw [hkeep, ← hwrites]
      simp [JoinRun.observe, hv]
  | true =>
    rw [hv, eq_comm, Bool.and_eq_true, Bool.and_eq_true, decide_eq_true_iff] at hvalid
    obtain ⟨⟨rfl, hready⟩, _⟩ := hvalid
    have hkeys : p.bitmap = false := by
      have hmode := (h.holds rfl).bitmapReady
      rw [hready] at hmode
      simpa using hmode.symm
    have hlen : p.lines.length = k + 1 := h.lines
    have hpost := h.resultWrite_step hw hkeys (show k < p.lines.length by omega) (σ.afu.step w)
    rw [← h.post_write hc hw hf hdim hready hkeys] at hpost
    refine ⟨is ++ [k], ?_, ?_, ?_⟩
    · show (is ++ [k]).Sublist (List.range (k + 1))
      rw [List.range_succ]
      exact hsub.append (List.Sublist.refl [k])
    · intro hb
      rw [hkeys] at hb
      cases hb
    · rw [List.map_append, hkeep, ← hwrites, List.map_singleton, hpost]
      simp [JoinRun.observe, hv]

variable (h4 : (w.wrCsrs 4).en = false)
include h4

theorem Current.processed_step (hdim : dim ≤ 2560) :
    (p.observe σ.afu w (σ.afu.step w)).processed = !(pt.next w σ.last).busy := by
  have hold := h.processed
  have hflag := hc.flag
  have hnext : pt.next w σ.last ≠ .waiting → pt.next w σ.last ≠ .announced →
      (σ.afu.step w).partitionProcessed = decide (pt.next w σ.last = .done) := (h.control_step hc hw hdim).flag
  cases pt <;> simp only [JoinPoint.next, h4, Bool.false_eq_true, if_false] at hnext ⊢
  case waiting => simp [JoinRun.observe, hold, JoinPoint.busy]
  case done => simp [JoinRun.observe, hold, JoinPoint.busy]
  case requesting => cases hfull : w.c0TxAlmFull <;> simp_all [JoinRun.observe, JoinPoint.busy]
  case awaiting => cases hr : w.readRsp <;> simp_all [JoinRun.observe, JoinPoint.busy]
  case posting => cases hl : σ.last <;> simp_all [JoinRun.observe, JoinPoint.busy]
  all_goals simp_all [JoinRun.observe, JoinPoint.busy]

omit hc hw in
theorem Current.count_step (hdim : dim ≤ 2560) :
    if (pt.next w σ.last).busy then k + pt.passed < p.cls else k + pt.passed = p.cls := by
  have hcount := h.count
  rw [JoinPoint.next_busy σ.last h4, JoinPoint.passed_eq]
  by_cases hpt : pt = .posting
  · have hlast := (h.compare hdim hpt).1
    subst hpt
    change k < p.cls at hcount
    cases hl : σ.last with
    | false =>
      rw [hl, eq_comm, decide_eq_false_iff_not] at hlast
      show k + 1 < p.cls
      omega
    | true =>
      rw [hl, eq_comm, decide_eq_true_iff] at hlast
      exact hlast
  · simpa [hpt] using hcount

theorem Current.clsProcessed_step (hb : (pt.next w σ.last).busy = true) :
    (σ.afu.step w).clsProcessed = BitVec.ofNat 32 (k + pt.passed) := by
  have hbusy := JoinPoint.busy_of_next σ.last h4 hb
  show (σ.afu.stateMachine w).clsProcessed = _
  rw [hc.stateMachine_eq hw]
  cases pt with
  | waiting => cases hbusy
  | announced =>
    rw [h.fresh rfl]
    rfl
  | posting => simp [JoinPoint.advance, JoinPoint.passed, h.clsProcessed rfl (by decide), BitVec.ofNat_add]
  | done => cases hbusy
  | _ => exact h.clsProcessed rfl (by decide)

omit hc in
theorem Current.holds_step (hb : (pt.next w σ.last).busy = true) :
    JoinHolds (σ.afu.step w) (p.observe σ.afu w (σ.afu.step w)) := by
  have hbusy := JoinPoint.busy_of_next σ.last h4 hb
  have hsys : σ.busy = true := by simp [JoinSys.busy, h.cur, h.processed, hbusy]
  obtain ⟨h0, h6⟩ := hw.stable (.inr hsys)
  obtain ⟨hbase, hcls, hreading, hready⟩ := h.holds hbusy
  constructor
  · show (σ.afu.step w).clAddress = p.base
    simpa [JoinAfu.step, JoinAfu.csrRegs, h4] using hbase
  · show (σ.afu.step w).clsToProcess.toNat = p.cls
    simpa [JoinAfu.step, JoinAfu.csrRegs, h0] using hcls
  · show (σ.afu.step w).readingBitmap = p.bitmap
    simpa [JoinAfu.step, JoinAfu.csrRegs, h6] using hreading
  · show (σ.afu.step w).bitmapReady = !p.bitmap
    simpa [JoinAfu.step, JoinAfu.csrRegs, h6] using hready

omit hc hw in
theorem Current.tracks_step (hb : (pt.next w σ.last).busy = true) :
    (p.observe σ.afu w (σ.afu.step w)).result = csrClAddr (((σ.step w).csrs 5).getD 0) := by
  have hbusy := JoinPoint.busy_of_next σ.last h4 hb
  have hopen : p.processed = false := by rw [h.processed, hbusy]; rfl
  cases h5 : (w.wrCsrs 5).en <;> simp [JoinRun.observe, JoinSys.step, h5, hopen, h.tracks hbusy]

omit hc in
theorem Current.given_step (hb : (pt.next w σ.last).busy = true) (hkeys : p.bitmap = false)
    (hl : (p.observe σ.afu w (σ.afu.step w)).lines ≠ []) : ((σ.step w).csrs 5).isSome = true := by
  have hbusy := JoinPoint.busy_of_next σ.last h4 hb
  have hopen : p.processed = false := by rw [h.processed, hbusy]; rfl
  have hgiven : (σ.csrs 5).isSome = true := by
    by_cases hn : p.lines = []
    · cases hr : w.readRsp with
      | none => simp [JoinRun.observe, hr, hn] at hl
      | some d => exact (hw.resultFirst p h.cur hopen hkeys).1 (by rw [hr]; rfl)
    · exact h.given hbusy hkeys hn
  simp only [JoinSys.step]
  split
  · rfl
  · exact hgiven

/-- One cycle of the current partition: every field of its record and every register it depends on. -/
theorem Current.step (hf : JoinFed σ) (hdim : dim ≤ 2560) :
    Current dim bitmap (σ.step w) (pt.next w σ.last) (p.observe σ.afu w (σ.afu.step w)) (k + pt.passed) where
  cur := by simp [JoinSys.step, h4, h.cur]
  processed := h.processed_step hc hw h4 hdim
  size := h.size
  count := h.count_step h4 hdim
  fresh := fun hpt => absurd hpt (JoinPoint.next_ne_announced σ.last h4)
  clsProcessed := fun hb _ => h.clsProcessed_step hc hw h4 hb
  holds := h.holds_step hw h4
  reads := h.reads_step hc hw hdim
  lines := h.lines_step hc hw
  good := h.good_step hw _
  rspData := h.rspData_step hc hw
  stored := h.stored_step hc hw hdim
  bitResult := h.bitResult_step hc hw hf
  tracks := h.tracks_step h4
  given := h.given_step hw h4
  writes := h.writes_step hc hw hf hdim

end Record

end Cycle

end SdbFpga.Fpga
