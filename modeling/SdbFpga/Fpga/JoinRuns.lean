import SdbFpga.Fpga.JoinInvariant

/-!
# The reads and writes of `join_afu` over whole runs

* `Current.start` : a partition is announced;
* `JoinRun.Sound` : the record of a partition at any time; `JoinInv`, `joinInv_of_reachable` : the invariant of a run;
* `join_runs` : the bitmap is stored and kept, the partitions of keys are read and joined.
-/

namespace SdbFpga.Fpga
open Transition Bits

section Announce
variable {dim : Nat} {bitmap : Nat → Bool} {σ : JoinSys} {w : Wires}

/-- A partition is announced where the unit waits. -/
theorem Control.waiting_of_announce {pt : JoinPoint} (hc : Control σ pt) (hw : JoinProtocol dim bitmap σ w)
    (h4 : (w.wrCsrs 4).en = true) : pt = .waiting := by
  by_contra hpt
  have hoff := hc.no_announce hw hpt
  rw [h4] at hoff
  cases hoff

/-- The parameters that are written for the next partition. -/
theorem JoinSys.Ready.start (h : σ.Ready dim) (hdim : dim ≤ 2560) (address : MmioData) :
    (JoinRun.start σ.csrs address).bitmap = !σ.cur.isSome ∧
      (JoinRun.start σ.csrs address).cls = (if σ.cur.isSome then 64 else dim / 512 + 1) ∧
      σ.csrs 0 = some (BitVec.ofNat 64 (JoinRun.start σ.csrs address).cls) ∧
      σ.csrs 6 = some (if σ.cur.isSome then 0 else 1) := by
  unfold JoinSys.Ready at h
  cases hc : σ.cur.isSome with
  | true =>
    rw [hc, if_pos rfl] at h
    obtain ⟨h0, h6⟩ := h
    simp [JoinRun.start, h0, h6]
  | false =>
    rw [hc, if_neg (by decide)] at h
    obtain ⟨h0, h6⟩ := h
    have hsmall : (BitVec.ofNat 64 (dim / 512 + 1)).toNat = dim / 512 + 1 := by
      rw [BitVec.toNat_ofNat]
      omega
    simp only [JoinRun.start, h0, h6, Option.getD_some, hsmall]
    simp

theorem JoinSys.Ready.start_cls (h : σ.Ready dim) (hdim : dim ≤ 2560) (address : MmioData) :
    0 < (JoinRun.start σ.csrs address).cls ∧ (JoinRun.start σ.csrs address).cls < 128 := by
  rw [(h.start hdim address).2.1]
  split <;> omega

/-- In the cycle after the announcement the registers hold the partition's parameters. -/
theorem JoinHolds.start (hf : JoinFed σ) (hw : JoinProtocol dim bitmap σ w) (hdim : dim ≤ 2560)
    (h4 : (w.wrCsrs 4).en = true) : JoinHolds (σ.afu.step w) (JoinRun.start σ.csrs (w.wrCsrs 4).data) := by
  obtain ⟨_, _, hready⟩ := hw.announce h4
  obtain ⟨h0, h6⟩ := hw.stable (.inl h4)
  obtain ⟨hbitmap, _, hcsr0, hcsr6⟩ := hready.start hdim (w.wrCsrs 4).data
  have hbound := (hready.start_cls hdim (w.wrCsrs 4).data).2
  have hcls := hf.clsToProcess _ hcsr0
  have hreading := hf.readingBitmap _ hcsr6
  have hbitmapReady := hf.bitmapReady _ hcsr6
  constructor
  · simp [JoinAfu.step, JoinAfu.csrRegs, hw.active, h4, JoinRun.start]
  · simp only [JoinAfu.step, JoinAfu.csrRegs, h0, Bool.and_false, Bool.false_eq_true, if_false, hcls,
      BitVec.toNat_setWidth, BitVec.toNat_ofNat]
    omega
  · simp only [JoinAfu.step, JoinAfu.csrRegs, h6, Bool.and_false, Bool.false_eq_true, if_false, hreading, hbitmap]
    cases σ.cur.isSome <;> rfl
  · simp only [JoinAfu.step, JoinAfu.csrRegs, h6, Bool.and_false, Bool.false_eq_true, if_false, hbitmapReady, hbitmap]
    cases σ.cur.isSome <;> rfl

/-- The first cycle of a partition; the bitmap of an earlier one is stored. -/
theorem Current.start (hc : Control σ .waiting) (hf : JoinFed σ) (hw : JoinProtocol dim bitmap σ w) (hdim : dim ≤ 2560)
    (h4 : (w.wrCsrs 4).en = true)
    (hstored : σ.cur.isSome = true → ∀ j < dim, σ.afu.loDateJoin.bitMap.getLsbD j = bitmap j) :
    Current dim bitmap (σ.step w) .announced
      ((JoinRun.start σ.csrs (w.wrCsrs 4).data).observe σ.afu w (σ.afu.step w)) 0 := by
  obtain ⟨_, _, hready⟩ := hw.announce h4
  obtain ⟨hbitmap, hcls, _, _⟩ := hready.start hdim (w.wrCsrs 4).data
  have hnone := hc.no_response hw (by decide)
  have hnext : Control (σ.step w) .announced := by
    have hstep := hc.step hw fun hpt => by cases hpt
    simpa [JoinPoint.next, h4] using hstep
  have hvalid : (σ.afu.step w).c0Valid = false := hnext.c0Valid
  have hpost : (σ.afu.step w).c1Valid = false := hnext.c1Valid (by decide)
  have hlines : ((JoinRun.start σ.csrs (w.wrCsrs 4).data).observe σ.afu w (σ.afu.step w)).lines = [] := by
    simp [JoinRun.observe, JoinRun.start, hnone]
  constructor
  case cur => simp [JoinSys.step, h4]
  case processed =>
    have hflag : (σ.afu.step w).partitionProcessed = σ.afu.partitionProcessed := by
      show (σ.afu.stateMachine w).partitionProcessed = _
      rw [hc.stateMachine_eq hw]
      rfl
    cases hpp : σ.afu.partitionProcessed <;> simp [JoinRun.observe, JoinRun.start, JoinPoint.busy, hflag, hpp]
  case size =>
    show (JoinRun.start σ.csrs (w.wrCsrs 4).data).cls =
      if (JoinRun.start σ.csrs (w.wrCsrs 4).data).bitmap then dim / 512 + 1 else 64
    rw [hcls, hbitmap]
    cases σ.cur.isSome <;> rfl
  case count => exact (hready.start_cls hdim (w.wrCsrs 4).data).1
  case fresh => exact fun _ => rfl
  case clsProcessed => exact fun _ hpt => absurd rfl hpt
  case holds =>
    intro _
    obtain ⟨hbase, hnum, hreading, hbitmapReady⟩ := JoinHolds.start hf hw hdim h4
    exact ⟨hbase, hnum, hreading, hbitmapReady⟩
  case reads => simp [JoinRun.observe, JoinRun.start, hvalid, lineAddrs, JoinPoint.asked]
  case lines =>
    rw [hlines]
    rfl
  case good =>
    intro i cl hi
    rw [hlines] at hi
    cases hi
  case rspData => exact fun hpt => by cases hpt <;> contradiction
  case stored =>
    intro j hj hrow
    show (σ.afu.lineorderDate w).bitMap.getLsbD j = bitmap j
    rw [hc.unit_keep hw (by decide)]
    apply hstored _ j hj
    -- row `j` of the first partition is not stored yet
    by_contra hfirst
    have hb : (JoinRun.start σ.csrs (w.wrCsrs 4).data).bitmap = true := by
      rw [hbitmap, Bool.eq_false_iff.mpr hfirst]
      rfl
    exact absurd (hrow hb) (Nat.not_lt_zero j)
  case bitResult => exact fun hpt => by cases hpt
  case tracks =>
    intro _
    cases h5 : (w.wrCsrs 5).en <;> simp [JoinRun.observe, JoinRun.start, JoinSys.step, h5]
  case given => exact fun _ _ hl => absurd hlines hl
  case writes =>
    exact ⟨[], List.Sublist.refl [], fun _ => rfl, by simp [JoinRun.observe, JoinRun.start, hpost]⟩

end Announce

/-! ## The invariant of a run -/

/-- The record of a partition at any time. -/
structure JoinRun.Sound (dim : Nat) (bitmap : Nat → Bool) (p : JoinRun) : Prop where
  size : p.cls = if p.bitmap then dim / 512 + 1 else 64
  reads : p.processed = true → p.reads = lineAddrs p.base p.cls
  lines : p.lines.length ≤ p.cls
  writes : ∃ is : List Nat, is.Sublist (List.range p.lines.length) ∧ (p.bitmap = true → is = []) ∧
    p.writes = is.map (p.resultWrite bitmap)

/-- What holds in every state of a run. -/
structure JoinInv (dim : Nat) (bitmap : Nat → Bool) (σ : JoinSys) : Prop where
  fed : JoinFed σ
  past : ∀ p ∈ σ.past, p.Sound dim bitmap
  order : σ.runs.map JoinRun.bitmap = (List.range σ.runs.length).map fun i => decide (i = 0)
  stage : σ.runs = [] ∧ Control σ .waiting ∨ ∃ pt p k, Control σ pt ∧ Current dim bitmap σ pt p k
  post : σ.afu.c1Valid = true → ∃ p ∈ σ.cur, p.bitmap = false

section Invariant
variable {dim : Nat} {bitmap : Nat → Bool} {σ : JoinSys} {w : Wires} {pt : JoinPoint} {p : JoinRun} {k : Nat}

theorem Current.sound (h : Current dim bitmap σ pt p k) : p.Sound dim bitmap where
  size := h.size
  reads := by
    intro hd
    have hcount := h.count
    have hreads := h.reads
    rw [h.processed] at hd
    cases pt with
    | waiting => exact hreads.trans (by rw [← show k = p.cls from hcount]; rfl)
    | done => exact hreads.trans (by rw [← show k = p.cls from hcount]; rfl)
    | _ => cases hd
  lines := by
    have hcount := h.count
    rw [h.lines]
    cases pt <;> simp only [JoinPoint.busy, JoinPoint.arrived, if_true, Bool.false_eq_true, if_false] at hcount ⊢ <;>
      omega
  writes := by
    obtain ⟨is, hsub, hnil, hwrites⟩ := h.writes
    refine ⟨is, hsub.trans (List.range_sublist.mpr ?_), hnil, hwrites⟩
    rw [h.lines]
    exact Nat.le_add_right k pt.arrived

theorem JoinSys.runs_stay (h4 : (w.wrCsrs 4).en = false) :
    (σ.step w).runs = σ.past ++ (σ.cur.map fun p => p.observe σ.afu w (σ.afu.step w)).toList := by
  simp [JoinSys.runs, JoinSys.step, h4]

theorem JoinSys.runs_announce (h4 : (w.wrCsrs 4).en = true) :
    (σ.step w).runs = σ.runs ++ [(JoinRun.start σ.csrs (w.wrCsrs 4).data).observe σ.afu w (σ.afu.step w)] := by
  simp [JoinSys.runs, JoinSys.step, h4]

theorem JoinInv.current (h : JoinInv dim bitmap σ) (hp : σ.cur = some p) :
    ∃ pt k, Control σ pt ∧ Current dim bitmap σ pt p k := by
  rcases h.stage with ⟨hnil, _⟩ | ⟨pt, q, k, hc, hq⟩
  · simp [JoinSys.runs, hp] at hnil
  · obtain rfl : q = p := Option.some.inj (hq.cur.symm.trans hp)
    exact ⟨pt, k, hc, hq⟩

/-- The current partition is the bitmap exactly when it is the first. -/
theorem JoinInv.cur_bitmap (h : JoinInv dim bitmap σ) (hp : σ.cur = some p) : p.bitmap = decide (σ.past = []) := by
  have horder := congrArg (fun bs => bs[σ.past.length]?) h.order
  simpa [JoinSys.runs, hp] using horder

theorem JoinInv.stored (h : JoinInv dim bitmap σ) (hp : σ.cur = some p) (hd : p.processed = true ∨ p.bitmap = false) :
    ∀ j < dim, σ.afu.loDateJoin.bitMap.getLsbD j = bitmap j := by
  intro j hj
  obtain ⟨pt, k, _, hcur⟩ := h.current hp
  apply hcur.stored j hj
  intro hb
  have hidle : pt.busy = false := by
    have hd := hd.resolve_right (by rw [hb]; decide)
    rw [hcur.processed] at hd
    simpa using hd
  have hcount := hcur.count
  have hsize := hcur.size
  rw [hidle, if_neg (by decide)] at hcount
  rw [hb, if_pos rfl] at hsize
  omega

theorem JoinInv.order_step (h : JoinInv dim bitmap σ) (hw : JoinProtocol dim bitmap σ w) (hdim : dim ≤ 2560) :
    (σ.step w).runs.map JoinRun.bitmap = (List.range (σ.step w).runs.length).map fun i => decide (i = 0) := by
  cases h4 : (w.wrCsrs 4).en with
  | false =>
    have hmap : (σ.step w).runs.map JoinRun.bitmap = σ.runs.map JoinRun.bitmap := by
      rw [JoinSys.runs_stay h4]
      cases hc : σ.cur <;> simp [JoinSys.runs, hc, JoinRun.observe]
    have hlen : (σ.step w).runs.length = σ.runs.length := by
      rw [JoinSys.runs_stay h4]
      cases hc : σ.cur <;> simp [JoinSys.runs, hc]
    rw [hmap, hlen, h.order]
  | true =>
    obtain ⟨_, _, hready⟩ := hw.announce h4
    have hfirst : (!σ.cur.isSome) = decide (σ.runs.length = 0) := by
      rcases h.stage with ⟨hnil, _⟩ | ⟨_, q, _, _, hq⟩
      · rw [hnil]
        cases hc : σ.cur with
        | none => rfl
        | some q => simp [JoinSys.runs, hc] at hnil
      · simp [JoinSys.runs, hq.cur]
    rw [JoinSys.runs_announce h4, List.map_append, h.order, List.length_append, List.length_singleton, List.range_succ,
      List.map_append, List.map_singleton, List.map_singleton, ← hfirst]
    exact congrArg (fun b => _ ++ [b]) (hready.start hdim (w.wrCsrs 4).data).1

theorem JoinInv.past_step (h : JoinInv dim bitmap σ) : ∀ q ∈ (σ.step w).past, q.Sound dim bitmap := by
  intro q hq
  have hruns : q ∈ σ.past ∨ σ.cur = some q := by
    simp only [JoinSys.step] at hq
    split at hq
    · exact (List.mem_append.mp hq).imp_right Option.mem_toList.mp
    · exact .inl hq
  rcases hruns with hq | hq
  · exact h.past q hq
  · obtain ⟨_, _, _, hcur⟩ := h.current hq
    exact hcur.sound

theorem JoinInv.stage_announce (h : JoinInv dim bitmap σ) (hw : JoinProtocol dim bitmap σ w) (hdim : dim ≤ 2560)
    (h4 : (w.wrCsrs 4).en = true) : ∃ p, Control (σ.step w) .announced ∧ Current dim bitmap (σ.step w) .announced p 0 := by
  have hwaiting : Control σ .waiting := by
    rcases h.stage with ⟨_, hc⟩ | ⟨pt, p, k, hc, _⟩
    · exact hc
    · rwa [hc.waiting_of_announce hw h4] at hc
  have hstep := hwaiting.step hw fun hpt => by cases hpt
  refine ⟨_, by simpa [JoinPoint.next, h4] using hstep, Current.start hwaiting h.fed hw hdim h4 ?_⟩
  intro hsome
  obtain ⟨p, hp⟩ := Option.isSome_iff_exists.mp hsome
  obtain ⟨pt, k, hc, hcur⟩ := h.current hp
  refine h.stored hp (.inl ?_)
  rw [hcur.processed, hc.waiting_of_announce hw h4]
  rfl

theorem JoinInv.stage_stay (h : JoinInv dim bitmap σ) (hw : JoinProtocol dim bitmap σ w) (hdim : dim ≤ 2560)
    (h4 : (w.wrCsrs 4).en = false) : (σ.step w).runs = [] ∧ Control (σ.step w) .waiting ∨
      ∃ pt p k, Control (σ.step w) pt ∧ Current dim bitmap (σ.step w) pt p k := by
  rcases h.stage with ⟨hnil, hc⟩ | ⟨pt, p, k, hc, hp⟩
  · left
    obtain ⟨hpast, hcur⟩ := List.append_eq_nil_iff.mp hnil
    have hstep := hc.step hw fun hpt => by cases hpt
    refine ⟨?_, by simpa [JoinPoint.next, h4] using hstep⟩
    rw [JoinSys.runs_stay h4, hpast, Option.toList_eq_nil_iff.mp hcur]
    rfl
  · exact .inr ⟨_, _, _, hp.control_step hc hw hdim, hp.step hc hw h4 h.fed hdim⟩

/-- Only a line of keys is posted. -/
theorem JoinInv.post_step (h : JoinInv dim bitmap σ) (hw : JoinProtocol dim bitmap σ w) (hdim : dim ≤ 2560)
    (hv : (σ.afu.step w).c1Valid = true) : ∃ p ∈ (σ.step w).cur, p.bitmap = false := by
  rcases h.stage with ⟨_, hc⟩ | ⟨pt, p, k, hc, hp⟩
  · have hvalid := hc.c1Valid_step hw
    rw [hv] at hvalid
    simp at hvalid
  · have hvalid := hc.c1Valid_step hw
    rw [hv, eq_comm, Bool.and_eq_true, Bool.and_eq_true, decide_eq_true_iff] at hvalid
    obtain ⟨⟨rfl, hready⟩, _⟩ := hvalid
    have h4 := hc.no_announce hw (by decide)
    have hmode := (hp.holds rfl).bitmapReady
    rw [hready, eq_comm, Bool.not_eq_true'] at hmode
    exact ⟨_, (hp.step hc hw h4 h.fed hdim).cur, hmode⟩

/-- One cycle. -/
theorem JoinInv.step (h : JoinInv dim bitmap σ) (hw : JoinProtocol dim bitmap σ w) (hdim : dim ≤ 2560) :
    JoinInv dim bitmap (σ.step w) where
  fed := h.fed.step hw
  past := h.past_step
  order := h.order_step hw hdim
  stage := by
    cases h4 : (w.wrCsrs 4).en with
    | false => exact h.stage_stay hw hdim h4
    | true =>
      obtain ⟨p, hc, hp⟩ := h.stage_announce hw hdim h4
      exact .inr ⟨_, p, 0, hc, hp⟩
  post := h.post_step hw hdim

end Invariant

/-! ## Power-on -/

/-- What the reset establishes. -/
structure JoinResetDone (s : JoinAfu) : Prop where
  state : s.state = .waiting
  newPartitionReady : s.newPartitionReady = false
  clReqIssued : s.clReqIssued = false
  clReceived : s.clReceived = false
  clProcessed : s.clProcessed = false
  c0Valid : s.c0Valid = false
  c1Valid : s.c1Valid = false
  bitResult : s.loDateJoin.bitResult = 0

theorem joinResetDone_step {s : JoinAfu} {w : Wires} (hr : w.reset = true) (hk : ∀ k, (w.wrCsrs k).en = false)
    (hn : w.readRsp = none) (hnew : s.newPartitionReady = false) (hissued : s.clReqIssued = false)
    (hreceived : s.clReceived = false) (hprocessed : s.clProcessed = false) : JoinResetDone (s.step w) := by
  constructor
  · simp [JoinAfu.step, JoinAfu.stateMachine, hr]
  · simp [JoinAfu.step, JoinAfu.csrRegs, hk, hnew]
  · simpa [JoinAfu.step, JoinAfu.readRequest, hr] using hissued
  · cases hs : s.state <;> simp [JoinAfu.step, JoinAfu.readResponse, hs, hn, hreceived]
  · simpa [JoinAfu.step, JoinAfu.stateMachine, hr] using hprocessed
  · simp [JoinAfu.step, JoinAfu.readRequest, hr]
  · simp [JoinAfu.step, JoinAfu.memoryWrite, hr]
  · simp [JoinAfu.step, JoinAfu.lineorderDate, LineorderDate.clock, hr]

theorem joinResetDone_foldl (ws : List Wires) (s : JoinAfu)
    (hw : ∀ w ∈ ws, w.reset = true ∧ (∀ k, (w.wrCsrs k).en = false) ∧ w.readRsp = none) (hs : JoinResetDone s) :
    JoinResetDone (ws.foldl JoinAfu.step s) := by
  induction ws generalizing s with
  | nil => exact hs
  | cons w ws ih =>
    rw [List.forall_mem_cons] at hw
    obtain ⟨⟨hr, hk, hn⟩, hrest⟩ := hw
    exact ih _ hrest
      (joinResetDone_step hr hk hn hs.newPartitionReady hs.clReqIssued hs.clReceived hs.clProcessed)

theorem JoinBooted.resetDone {σ : JoinSys} (h : JoinBooted σ) : JoinResetDone σ.afu := by
  obtain ⟨s, ws, hs, hne, hw, he⟩ := h.afu
  rw [he]
  cases ws with
  | nil => exact absurd rfl hne
  | cons w ws =>
    rw [List.forall_mem_cons] at hw
    obtain ⟨⟨hr, hk, hn⟩, hrest⟩ := hw
    exact joinResetDone_foldl ws _ hrest
      (joinResetDone_step hr hk hn hs.newPartitionReady hs.clReqIssued hs.clReceived hs.clProcessed)

theorem JoinBooted.inv {σ : JoinSys} (h : JoinBooted σ) (dim : Nat) (bitmap : Nat → Bool) : JoinInv dim bitmap σ := by
  obtain ⟨hs, hn, hi, hr, hp, h0, h1, hb⟩ := h.resetDone
  have hruns : σ.runs = [] := by simp [JoinSys.runs, h.past, h.cur]
  have hcontrol : Control σ .waiting :=
    ⟨hs, hn, h0, hi, hr, hp, h.outstanding, fun hpt => absurd hpt (by decide), fun hpt => absurd rfl hpt, fun _ => h1⟩
  refine ⟨⟨?_, ?_, ?_, ?_, ?_⟩, ?_, ?_, .inl ⟨hruns, hcontrol⟩, ?_⟩
  all_goals simp [h.csrs, h.past, hruns, hb, h1]

/-- The invariant holds in every run. -/
theorem joinInv_of_reachable {dim : Nat} {bitmap : Nat → Bool} {σ : JoinSys} (hdim : dim ≤ 2560)
    (h : Reachable (joinSystem dim bitmap) σ) : JoinInv dim bitmap σ := by
  refine Reachable.invariant (P := JoinInv dim bitmap) ?_ ?_ h
  · intro σ h0
    exact JoinBooted.inv h0 dim bitmap
  · intro σ w _ hi hw
    exact hi.step hw hdim

/-! ## The reads and the writes -/

/-- The two phases of a semi-join, as seen in one state of a run. -/
structure SemiJoined (dim : Nat) (bitmap : Nat → Bool) (σ : JoinSys) : Prop where
  /-- The first partition is the bitmap, the others are keys. -/
  order : ∀ i p, σ.runs[i]? = some p → p.bitmap = decide (i = 0)
  /-- After the bitmap phase the unit holds the bitmap. -/
  stored : ∀ p, σ.runs[0]? = some p → p.processed = true →
    ∀ j < dim, σ.afu.loDateJoin.bitMap.getLsbD j = bitmap j
  /-- No cycle of a partition of keys changes what it holds. -/
  kept : ∀ w, JoinProtocol dim bitmap σ w → 1 < σ.runs.length →
    (σ.step w).afu.loDateJoin.bitMap = σ.afu.loDateJoin.bitMap
  /-- No write request in the bitmap phase. -/
  silent : σ.afu.c1Valid = true → 1 < σ.runs.length
  silentRun : ∀ p, σ.runs[0]? = some p → p.writes = []
  /-- 64 consecutive lines are read for a partition of keys. -/
  reads : ∀ i p, σ.runs[i + 1]? = some p → p.processed = true → p.reads = lineAddrs p.base 64
  /-- The write of line `n` goes to `result + n`; bit `l` is the bitmap at key `l` of the line. -/
  writes : ∀ i p, σ.runs[i + 1]? = some p → ∀ r ∈ p.writes, ∃ n < 64, ∃ cl, p.lines[n]? = some cl ∧
    r.hdr = ⟨BitVec.ofNat 16 n, p.result + BitVec.ofNat 42 n⟩ ∧
    ∀ l < 512, r.data.getLsbD l = (decide (l < 32) && bitmap (lane 16 l cl).toNat)

section SemiJoined
variable {dim : Nat} {bitmap : Nat → Bool} {σ : JoinSys} {p : JoinRun}

theorem JoinInv.order_getElem (h : JoinInv dim bitmap σ) {i : Nat} (hp : σ.runs[i]? = some p) :
    p.bitmap = decide (i = 0) := by
  obtain ⟨hlt, rfl⟩ := List.getElem?_eq_some_iff.mp hp
  have horder := congrArg (fun bs => bs[i]?) h.order
  simpa [hlt] using horder

theorem JoinInv.sound (h : JoinInv dim bitmap σ) (hp : p ∈ σ.runs) : p.Sound dim bitmap := by
  rcases List.mem_append.mp hp with hp | hp
  · exact h.past p hp
  · obtain ⟨_, _, _, hcur⟩ := h.current (Option.mem_toList.mp hp)
    exact hcur.sound

/-- A later partition is current when there are two. -/
theorem JoinInv.cur_keys (h : JoinInv dim bitmap σ) (hlen : 1 < σ.runs.length) :
    ∃ p, σ.cur = some p ∧ p.bitmap = false := by
  rcases h.stage with ⟨hnil, _⟩ | ⟨_, p, _, _, hp⟩
  · rw [hnil] at hlen
    cases hlen
  · refine ⟨p, hp.cur, ?_⟩
    have hpast : σ.past ≠ [] := by
      rintro hnil
      simp [JoinSys.runs, hp.cur, hnil] at hlen
    simpa [hpast] using h.cur_bitmap hp.cur

theorem JoinInv.kept (h : JoinInv dim bitmap σ) {w : Wires} (hw : JoinProtocol dim bitmap σ w)
    (hlen : 1 < σ.runs.length) : (σ.step w).afu.loDateJoin.bitMap = σ.afu.loDateJoin.bitMap := by
  obtain ⟨p, hp, hkeys⟩ := h.cur_keys hlen
  obtain ⟨pt, k, hc, hcur⟩ := h.current hp
  show (σ.afu.lineorderDate w).bitMap = _
  by_cases hpt : pt = .filtering
  · subst hpt
    have hmode := (hcur.holds rfl).readingBitmap
    rw [hc.unit_filter hw, hmode, hkeys]
    rfl
  · rw [hc.unit_keep hw hpt]

theorem JoinInv.stored_first (h : JoinInv dim bitmap σ) (hp : σ.runs[0]? = some p) (hd : p.processed = true) :
    ∀ j < dim, σ.afu.loDateJoin.bitMap.getLsbD j = bitmap j := by
  by_cases hlen : 1 < σ.runs.length
  · obtain ⟨q, hcur, hkeys⟩ := h.cur_keys hlen
    exact h.stored hcur (.inr hkeys)
  · -- the bitmap is still the current partition
    rcases h.stage with ⟨hnil, _⟩ | ⟨_, q, _, _, hq⟩
    · rw [hnil] at hp
      cases hp
    · have hpast : σ.past = [] := by
        apply List.length_eq_zero_iff.mp
        simp only [JoinSys.runs, hq.cur, List.length_append, Option.toList_some, List.length_singleton] at hlen
        omega
      have hqp : q = p := by simpa [JoinSys.runs, hq.cur, hpast] using hp
      exact h.stored (hqp ▸ hq.cur) (.inl hd)

/-- A write request is visible only with a partition of keys behind the bitmap. -/
theorem JoinInv.silent (h : JoinInv dim bitmap σ) (hv : σ.afu.c1Valid = true) : 1 < σ.runs.length := by
  obtain ⟨p, hcur, hkeys⟩ := h.post hv
  have hpast : σ.past ≠ [] := by
    intro hnil
    have hfirst := h.cur_bitmap hcur
    rw [hkeys, hnil] at hfirst
    cases hfirst
  have hpos := List.length_pos_of_ne_nil hpast
  simp only [JoinSys.runs, show σ.cur = some p from hcur, List.length_append, Option.toList_some,
    List.length_singleton]
  omega

theorem JoinRun.Sound.writes_keys (h : p.Sound dim bitmap) (hkeys : p.bitmap = false) :
    ∀ r ∈ p.writes, ∃ n < 64, ∃ cl, p.lines[n]? = some cl ∧
      r.hdr = ⟨BitVec.ofNat 16 n, p.result + BitVec.ofNat 42 n⟩ ∧
      ∀ l < 512, r.data.getLsbD l = (decide (l < 32) && bitmap (lane 16 l cl).toNat) := by
  intro r hr
  obtain ⟨is, hsub, _, hwrites⟩ := h.writes
  have hsize := h.size
  have hlines := h.lines
  rw [hkeys, if_neg (by decide)] at hsize
  rw [hwrites] at hr
  obtain ⟨n, hn, rfl⟩ := List.mem_map.mp hr
  have hlt := List.mem_range.mp (hsub.subset hn)
  refine ⟨n, by omega, p.lines[n], List.getElem?_eq_getElem hlt, rfl, ?_⟩
  intro l _
  have hline : p.lines.getD n 0 = p.lines[n] := by simp [hlt]
  show (joinLine bitmap (p.lines.getD n 0)).getLsbD l = _
  rw [getLsbD_joinLine, hline]

end SemiJoined

/-- Every run of a semi-join, whatever the back-pressure, the latency and the number of partitions. -/
theorem join_runs {dim : Nat} {bitmap : Nat → Bool} {σ : JoinSys} (hdim : dim ≤ 2560)
    (h : Reachable (joinSystem dim bitmap) σ) : SemiJoined dim bitmap σ := by
  have hi := joinInv_of_reachable hdim h
  constructor
  case order => exact fun i p hp => hi.order_getElem hp
  case stored => exact fun p hp hd => hi.stored_first hp hd
  case kept => exact fun w hw hlen => hi.kept hw hlen
  case silent => exact hi.silent
  case silentRun =>
    intro p hp
    obtain ⟨is, _, hnil, hwrites⟩ := (hi.sound (List.mem_of_getElem? hp)).writes
    rw [hwrites, hnil (hi.order_getElem hp)]
    rfl
  case reads =>
    intro i p hp hd
    have hsound := hi.sound (List.mem_of_getElem? hp)
    have hkeys : p.bitmap = false := hi.order_getElem hp
    have hsize := hsound.size
    rw [hkeys, if_neg (by decide)] at hsize
    rw [hsound.reads hd, hsize]
  case writes =>
    intro i p hp
    exact (hi.sound (List.mem_of_getElem? hp)).writes_keys (hi.order_getElem hp)

/-- All registers zero but `cl_req_allowed`. -/
def JoinAfu.zero : JoinAfu where
  readingBitmap := false
  bitmapReady := false
  newPartitionReady := false
  clAddress := 0
  resultAddress := 0
  clsToProcess := 0
  state := .waiting
  partitionProcessed := false
  clReqAllowed := true
  clReqIssued := false
  clReceived := false
  clProcessed := false
  clsProcessed := 0
  rspData := 0
  loDateJoin := ⟨0, 0⟩
  c0Valid := false
  c0Address := 0
  c1Valid := false
  c1Data := 0
  c1Hdr := ⟨0, 0⟩

/-- One cycle after a reset from these registers. -/
def JoinSys.boot : JoinSys where
  afu := JoinAfu.zero.step { Wires.quiet with reset := true }
  csrs := fun _ => none
  past := []
  cur := none
  outstanding := 0

theorem joinBooted_boot : JoinBooted JoinSys.boot where
  afu := ⟨.zero, [{ Wires.quiet with reset := true }], ⟨rfl, rfl, rfl, rfl, rfl, rfl⟩, by simp,
    by simp [Wires.quiet], rfl⟩
  csrs := fun _ => rfl
  past := rfl
  cur := rfl
  outstanding := rfl

/-- The bitmap in one line, then the first line of a partition of keys. -/
def joinScript (bits keys : ClData) : List Wires :=
  [.csr 0 1, .csr 6 1] ++ lineScript 0x40 bits .quiet ++
    [.quiet, .quiet, .csr 0 64, .csr 6 0, .csr 4 0x80, .csr 5 0x1000] ++
    [.quiet, .quiet, .quiet, .respond keys, .quiet, .quiet, .quiet]

theorem join_runs_two :
    let σ := (joinSystem 3 (· == 1)).run .boot (joinScript 2 1)
    SemiJoined 3 (· == 1) σ ∧ σ.runs.map (fun p => (p.processed, p.reads.length, p.writes.length)) =
      [(true, 1, 0), (false, 1, 1)] :=
  ⟨join_runs (by decide) (Reachable.run (.init joinBooted_boot) (by decide +kernel)), by decide +kernel⟩

end SdbFpga.Fpga
