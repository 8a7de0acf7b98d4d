import SdbFpga.Fpga.BlockSystem
import SdbFpga.Fpga.ScanInvariant

/-!
# The handshake invariant of `block_read`

One read at a time: `reads_allowed` is set by the announcement and by each response that is not the last, `c0.valid`
follows it in the first cycle in which the channel takes the request, and clears it.

* `BlockProgress p r l` : `r` requests issued and `l` responses received, in order;
* `BlockPhase`, `BlockInv` : the points of the handshake, `BlockInv.step`, `blockInv_of_reachable`;
* `Counted`, `counted` : no request and no response of a run is lost to the counters.
-/

namespace SdbFpga.Fpga
open Transition

/-! ## The record of a block -/

/-- The first `r` requests of block `p`. -/
def BlockRun.requests (p : BlockRun) (r : Nat) : List ReadHdr :=
  (List.range r).map fun i => ⟨BitVec.ofNat 16 i, p.base + BitVec.ofNat 42 i⟩

/-- The first `r` lines of block `p`. -/
def BlockRun.lineAddrs (p : BlockRun) (r : Nat) : List ClAddr :=
  (List.range r).map fun i => p.base + BitVec.ofNat 42 i

theorem BlockRun.requests_address (p : BlockRun) (r : Nat) :
    (p.requests r).map ReadHdr.address = p.lineAddrs r := by
  simp [BlockRun.requests, BlockRun.lineAddrs]

@[simp] theorem BlockRun.length_requests (p : BlockRun) (r : Nat) : (p.requests r).length = r := by
  simp [BlockRun.requests]

/-- `r` requests issued and `l` responses received. -/
structure BlockProgress (p : BlockRun) (r l : Nat) : Prop where
  pos : 0 < p.cls
  lt : p.cls < 128
  reads : p.reads = p.requests r
  lines : p.lines.length = l

/-- Every line of the block was requested and received. -/
def BlockComplete (p : BlockRun) : Prop := BlockProgress p p.cls p.cls

section Observe
variable {p : BlockRun} {w : BlockWires} {s' : BlockRead} {r l : Nat}

@[simp] theorem BlockRun.observe_base : (p.observe w s').base = p.base := rfl

@[simp] theorem BlockRun.observe_cls : (p.observe w s').cls = p.cls := rfl

theorem BlockProgress.quiet (h : BlockProgress p r l) (h0 : s'.c0Valid = false) (hr : w.readRsp = none) :
    BlockProgress (p.observe w s') r l := by
  obtain ⟨hpos, hlt, hreads, hlines⟩ := h
  refine ⟨hpos, hlt, ?_, ?_⟩
  · simp [BlockRun.observe, h0, hreads, BlockRun.requests]
  · simp [BlockRun.observe, hr, hlines]

theorem BlockProgress.read (h : BlockProgress p r l) (h0 : s'.c0Valid = true) (hr : w.readRsp = none)
    (hh : s'.c0Hdr = ⟨BitVec.ofNat 16 r, p.base + BitVec.ofNat 42 r⟩) : BlockProgress (p.observe w s') (r + 1) l := by
  obtain ⟨hpos, hlt, hreads, hlines⟩ := h
  refine ⟨hpos, hlt, ?_, ?_⟩
  · simp [BlockRun.observe, h0, hreads, BlockRun.requests, List.range_succ, hh]
  · simp [BlockRun.observe, hr, hlines]

theorem BlockProgress.line (h : BlockProgress p r l) (h0 : s'.c0Valid = false) {rsp : ReadRsp}
    (hr : w.readRsp = some rsp) : BlockProgress (p.observe w s') r (l + 1) := by
  obtain ⟨hpos, hlt, hreads, hlines⟩ := h
  refine ⟨hpos, hlt, ?_, ?_⟩
  · simp [BlockRun.observe, h0, hreads, BlockRun.requests]
  · simp [BlockRun.observe, hr, hlines]

end Observe

/-! ## The invariant -/

/-- The registers of the handshake and the reads in flight. -/
structure Handshake (σ : BlockSys) (new allowed valid : Bool) (out : Nat) : Prop where
  newBlock : σ.afu.newBlockReceived = new
  allowed : σ.afu.readsAllowed = allowed
  c0Valid : σ.afu.c0Valid = valid
  outstanding : σ.outstanding = out

/-- Block `p` is current and the AFU holds its parameters. -/
structure BlockCurrent (σ : BlockSys) (p : BlockRun) : Prop where
  cur : σ.cur = some p
  same : p.rewritten = false
  base : σ.afu.readBuffAddress = p.base
  cls : σ.afu.totalCls = BitVec.ofNat 7 p.cls

/-- The two line counters. -/
structure Counts (s : BlockRead) (o k : Nat) : Prop where
  offset : s.clOffset = BitVec.ofNat 7 o
  processed : s.clsProcessed = BitVec.ofNat 7 k

/-- The points of the handshake. -/
inductive BlockPhase (σ : BlockSys) : Prop
  | idle (hl : Handshake σ false false false 0)
      (hc : ∀ p ∈ σ.cur, BlockComplete p ∧ Counts σ.afu p.cls p.cls ∧
        (p.rewritten = false → σ.afu.totalCls = BitVec.ofNat 7 p.cls))
  | announced {p : BlockRun} (hl : Handshake σ true false false 0) (hc : BlockCurrent σ p)
      (hp : BlockProgress p 0 0)
  | allowed {p : BlockRun} {k : Nat} (hl : Handshake σ false true false 0) (hc : BlockCurrent σ p)
      (hn : Counts σ.afu k k) (hk : k < p.cls) (hp : BlockProgress p k k)
  | requested {p : BlockRun} {k : Nat} (hl : Handshake σ false false true 0) (hc : BlockCurrent σ p)
      (hn : Counts σ.afu k k) (hk : k < p.cls) (hp : BlockProgress p (k + 1) k)
  | awaiting {p : BlockRun} {k : Nat} (hl : Handshake σ false false false 1) (hc : BlockCurrent σ p)
      (hn : Counts σ.afu (k + 1) k) (hk : k < p.cls) (hp : BlockProgress p (k + 1) k)

/-- The invariant of a run. -/
structure BlockInv (σ : BlockSys) : Prop where
  fed : ∀ v, σ.csrs 0 = some v → σ.afu.totalCls = v.setWidth 7
  past : ∀ p ∈ σ.past, BlockComplete p
  phase : BlockPhase σ

/-! ## One cycle -/

theorem ofNat7_beq {a b : Nat} (ha : a < 128) (hb : b < 128) :
    (BitVec.ofNat 7 a == BitVec.ofNat 7 b) = decide (a = b) := by
  rw [Bool.eq_iff_iff, beq_iff_eq, decide_eq_true_iff, ← BitVec.toNat_inj, BitVec.toNat_ofNat, BitVec.toNat_ofNat,
    Nat.mod_eq_of_lt (by omega), Nat.mod_eq_of_lt (by omega)]

section Edge
variable {s : BlockRead} {w : BlockWires}

theorem step_allowed (hr : w.reset = false) (ha : s.readsAllowed = true) :
    (s.step w).readsAllowed = w.c0TxAlmFull := by
  simp [BlockRead.step, BlockRead.allowReads, hr, ha]

theorem step_not_allowed (hr : w.reset = false) (ha : s.readsAllowed = false) :
    (s.step w).readsAllowed = (s.newBlockReceived || (!s.readsDone && !s.requestsDone && w.readRsp.isSome)) := by
  simp [BlockRead.step, BlockRead.allowReads, hr, ha]

theorem step_c0Valid (hr : w.reset = false) :
    (s.step w).c0Valid = (!s.readsDone && s.readsAllowed && !w.c0TxAlmFull) := by
  simp [BlockRead.step, BlockRead.readRequest, hr]

theorem step_c0Hdr (hr : w.reset = false) : (s.step w).c0Hdr = s.readReqHdr := by
  simp [BlockRead.step, BlockRead.readRequest, hr]

/-- No announcement, no request and no response: the counters stand. -/
theorem Counts.stand {o k : Nat} (h : Counts s o k) (hn : s.newBlockReceived = false) (h0 : s.c0Valid = false)
    (hr : w.readRsp = none) : Counts (s.step w) o k := by
  constructor
  · simpa [BlockRead.step, BlockRead.counters, hn, h0, hr] using h.offset
  · simpa [BlockRead.step, BlockRead.counters, hn, h0, hr] using h.processed

theorem Counts.request {o k : Nat} (h : Counts s o k) (hn : s.newBlockReceived = false) (h0 : s.c0Valid = true) :
    Counts (s.step w) (o + 1) k := by
  constructor
  · simp [BlockRead.step, BlockRead.counters, hn, h0, h.offset, BitVec.ofNat_add]
  · simpa [BlockRead.step, BlockRead.counters, hn, h0] using h.processed

theorem Counts.response {o k : Nat} (h : Counts s o k) (hn : s.newBlockReceived = false) (h0 : s.c0Valid = false)
    {rsp : ReadRsp} (hr : w.readRsp = some rsp) : Counts (s.step w) o (k + 1) := by
  constructor
  · simpa [BlockRead.step, BlockRead.counters, hn, h0, hr] using h.offset
  · simp [BlockRead.step, BlockRead.counters, hn, h0, hr, h.processed, BitVec.ofNat_add]

theorem Counts.clear (hn : s.newBlockReceived = true) : Counts (s.step w) 0 0 := by
  constructor <;> simp [BlockRead.step, BlockRead.counters, hn]

end Edge

section Cycle
variable {σ : BlockSys} {w : BlockWires} {p : BlockRun} {k o : Nat}

theorem BlockProtocol.no_response (hw : BlockProtocol σ w) (h : σ.outstanding = 0) : w.readRsp = none := by
  apply Option.not_isSome_iff_eq_none.mp
  intro hr
  have := hw.response hr
  omega

theorem BlockCurrent.busy (h : BlockCurrent σ p) (hl : p.lines.length < p.cls) : σ.busy = true := by
  have : p.lines.length ≠ p.cls := by omega
  simp [BlockSys.busy, h.cur, BlockRun.done, this]

/-- While a block is read its parameters stay. -/
theorem BlockCurrent.no_write (h : BlockCurrent σ p) (hw : BlockProtocol σ w) (hl : p.lines.length < p.cls) :
    (w.wrCsrs 0).en = false ∧ (w.wrCsrs 3).en = false := by
  have hb := h.busy hl
  refine ⟨hw.stable (.inr hb), ?_⟩
  rw [Bool.eq_false_iff]
  intro h3
  have := (hw.announce h3).2.2
  rw [hb] at this
  cases this

theorem BlockCurrent.step (h : BlockCurrent σ p) (h0 : (w.wrCsrs 0).en = false) (h3 : (w.wrCsrs 3).en = false) :
    BlockCurrent (σ.step w) (p.observe w (σ.afu.step w)) := by
  constructor
  · simp [BlockSys.step, h3, h.cur]
  · simp [BlockRun.observe, h.same, h0]
  · simpa [BlockSys.step, BlockRead.step, BlockRead.csrRegs, h3] using h.base
  · simpa [BlockSys.step, BlockRead.step, BlockRead.csrRegs, h0] using h.cls

theorem BlockCurrent.readsDone (h : BlockCurrent σ p) (hn : Counts σ.afu o k) (hk : k < 128) (hp : p.cls < 128) :
    σ.afu.readsDone = decide (k = p.cls) := by
  rw [BlockRead.readsDone, hn.processed, h.cls, ofNat7_beq hk hp]

theorem BlockCurrent.requestsDone (h : BlockCurrent σ p) (hn : Counts σ.afu o k) (ho : o < 128) (hp : p.cls < 128) :
    σ.afu.requestsDone = decide (o = p.cls) := by
  rw [BlockRead.requestsDone, hn.offset, h.cls, ofNat7_beq ho hp]

/-- The header of the next request. -/
theorem BlockCurrent.readReqHdr (h : BlockCurrent σ p) (hn : Counts σ.afu o k) (ho : o < 128) :
    σ.afu.readReqHdr = ⟨BitVec.ofNat 16 o, p.base + BitVec.ofNat 42 o⟩ := by
  have h16 : (BitVec.ofNat 7 o).setWidth 16 = BitVec.ofNat 16 o :=
    BitVec.setWidth_ofNat_of_le_of_lt (by omega) (by omega)
  have h42 : (BitVec.ofNat 7 o).setWidth 42 = BitVec.ofNat 42 o :=
    BitVec.setWidth_ofNat_of_le_of_lt (by omega) (by omega)
  rw [BlockRead.readReqHdr, hn.offset, h.base, h16, h42]

theorem step_inFlight : (σ.step w).outstanding =
    σ.outstanding - (if w.readRsp.isSome then 1 else 0) + (if σ.afu.c0Valid then 1 else 0) := rfl

/-- Nothing is going on: the last block is complete, or the next one is announced. -/
theorem blockPhase_idle (hfed : ∀ v, σ.csrs 0 = some v → σ.afu.totalCls = v.setWidth 7) (hw : BlockProtocol σ w)
    (hl : Handshake σ false false false 0)
    (hc : ∀ p ∈ σ.cur, BlockComplete p ∧ Counts σ.afu p.cls p.cls ∧
      (p.rewritten = false → σ.afu.totalCls = BitVec.ofNat 7 p.cls)) : BlockPhase (σ.step w) := by
  have hr := hw.no_response hl.outstanding
  have hl' : Handshake (σ.step w) (w.wrCsrs 3).en false false 0 := by
    refine ⟨rfl, ?_, ?_, ?_⟩
    · exact (step_not_allowed hw.noReset hl.allowed).trans (by simp [hl.newBlock, hr])
    · exact (step_c0Valid hw.noReset).trans (by simp [hl.allowed])
    · simp [step_inFlight, hl.outstanding, hl.c0Valid]
  cases h3 : (w.wrCsrs 3).en
  · rw [h3] at hl'
    refine .idle hl' ?_
    intro q hq
    simp only [BlockSys.step, h3, Bool.false_eq_true, if_false, Option.mem_map] at hq
    obtain ⟨p, hp, rfl⟩ := hq
    obtain ⟨hcomp, hn, hcls⟩ := hc p hp
    refine ⟨hcomp.quiet hl'.c0Valid hr, hn.stand hl.newBlock hl.c0Valid hr, ?_⟩
    intro hrw
    simp only [BlockRun.observe, Bool.or_eq_false_iff] at hrw
    simpa [BlockSys.step, BlockRead.step, BlockRead.csrRegs, hrw.2] using hcls hrw.1
  · rw [h3] at hl'
    have h0 := hw.stable (.inl h3)
    obtain ⟨hready, _, _⟩ := hw.announce h3
    simp only [BlockSys.ready, Option.any_eq_true, Bool.and_eq_true, decide_eq_true_eq] at hready
    obtain ⟨t, ht, hpos, hlt⟩ := hready
    have hcls : (BlockRun.start σ.csrs (w.wrCsrs 3).data).cls = t.toNat := by simp [BlockRun.start, ht]
    refine .announced hl' (p := (BlockRun.start σ.csrs (w.wrCsrs 3).data).observe w (σ.afu.step w)) ⟨?_, ?_, ?_, ?_⟩ ?_
    · simp [BlockSys.step, h3]
    · simp [BlockRun.observe, BlockRun.start, h0]
    · simp [BlockSys.step, BlockRead.step, BlockRead.csrRegs, h3, BlockRun.observe, BlockRun.start]
    · rw [BlockRun.observe_cls, hcls, BitVec.ofNat_toNat, ← hfed t ht]
      simp [BlockSys.step, BlockRead.step, BlockRead.csrRegs, h0]
    · refine BlockProgress.quiet ⟨?_, ?_, rfl, rfl⟩ hl'.c0Valid hr
      · omega
      · omega

/-- The announcement clears the counters and allows the first read. -/
theorem blockPhase_announced (hw : BlockProtocol σ w) (hl : Handshake σ true false false 0) (hc : BlockCurrent σ p)
    (hp : BlockProgress p 0 0) : BlockPhase (σ.step w) ∧ (w.wrCsrs 3).en = false := by
  have hr := hw.no_response hl.outstanding
  obtain ⟨h0, h3⟩ := hc.no_write hw (by rw [hp.lines]; exact hp.pos)
  have hv : (σ.afu.step w).c0Valid = false := (step_c0Valid hw.noReset).trans (by simp [hl.allowed])
  refine ⟨.allowed ⟨h3, ?_, hv, ?_⟩ (hc.step h0 h3) (Counts.clear hl.newBlock) hp.pos (hp.quiet hv hr), h3⟩
  · exact (step_not_allowed hw.noReset hl.allowed).trans (by simp [hl.newBlock])
  · simp [step_inFlight, hl.outstanding, hl.c0Valid]

/-- A read is allowed: it is issued in the first cycle in which the channel takes it. -/
theorem blockPhase_allowed (hw : BlockProtocol σ w) (hl : Handshake σ false true false 0) (hc : BlockCurrent σ p)
    (hn : Counts σ.afu k k) (hk : k < p.cls) (hp : BlockProgress p k k) :
    BlockPhase (σ.step w) ∧ (w.wrCsrs 3).en = false := by
  have hr := hw.no_response hl.outstanding
  obtain ⟨h0, h3⟩ := hc.no_write hw (by rw [hp.lines]; exact hk)
  have hlt := hp.lt
  have hdone : σ.afu.readsDone = false := by
    rw [hc.readsDone hn (by omega) hlt]
    simp [Nat.ne_of_lt hk]
  have hv : (σ.afu.step w).c0Valid = !w.c0TxAlmFull := (step_c0Valid hw.noReset).trans (by simp [hdone, hl.allowed])
  have ha : (σ.afu.step w).readsAllowed = w.c0TxAlmFull := step_allowed hw.noReset hl.allowed
  have ho : (σ.step w).outstanding = 0 := by simp [step_inFlight, hl.outstanding, hl.c0Valid]
  have hn' : Counts (σ.step w).afu k k := hn.stand hl.newBlock hl.c0Valid hr
  refine ⟨?_, h3⟩
  cases hfull : w.c0TxAlmFull <;> rw [hfull] at hv ha
  · refine .requested ⟨h3, ha, hv, ho⟩ (hc.step h0 h3) hn' hk (hp.read hv hr ?_)
    rw [step_c0Hdr hw.noReset]
    exact hc.readReqHdr hn (by omega)
  · exact .allowed ⟨h3, ha, hv, ho⟩ (hc.step h0 h3) hn' hk (hp.quiet hv hr)

/-- The request is out; no read is allowed before its response. -/
theorem blockPhase_requested (hw : BlockProtocol σ w) (hl : Handshake σ false false true 0) (hc : BlockCurrent σ p)
    (hn : Counts σ.afu k k) (hk : k < p.cls) (hp : BlockProgress p (k + 1) k) :
    BlockPhase (σ.step w) ∧ (w.wrCsrs 3).en = false := by
  have hr := hw.no_response hl.outstanding
  obtain ⟨h0, h3⟩ := hc.no_write hw (by rw [hp.lines]; exact hk)
  have hv : (σ.afu.step w).c0Valid = false := (step_c0Valid hw.noReset).trans (by simp [hl.allowed])
  refine ⟨.awaiting ⟨h3, ?_, hv, ?_⟩ (hc.step h0 h3) (hn.request hl.newBlock hl.c0Valid) hk (hp.quiet hv hr), h3⟩
  · exact (step_not_allowed hw.noReset hl.allowed).trans (by simp [hl.newBlock, hr])
  · simp [step_inFlight, hl.outstanding, hl.c0Valid, hr]

/-- The response arrives: the next read is allowed, or the block is complete. -/
theorem blockPhase_awaiting (hw : BlockProtocol σ w) (hl : Handshake σ false false false 1) (hc : BlockCurrent σ p)
    (hn : Counts σ.afu (k + 1) k) (hk : k < p.cls) (hp : BlockProgress p (k + 1) k) :
    BlockPhase (σ.step w) ∧ (w.wrCsrs 3).en = false := by
  obtain ⟨h0, h3⟩ := hc.no_write hw (by rw [hp.lines]; exact hk)
  have hlt := hp.lt
  have hv : (σ.afu.step w).c0Valid = false := (step_c0Valid hw.noReset).trans (by simp [hl.allowed])
  have ha := step_not_allowed (w := w) hw.noReset hl.allowed
  have hdone : σ.afu.readsDone = false := by
    rw [hc.readsDone hn (by omega) hlt]
    simp [Nat.ne_of_lt hk]
  have hreq : σ.afu.requestsDone = decide (k + 1 = p.cls) := hc.requestsDone hn (by omega) hlt
  refine ⟨?_, h3⟩
  cases hr : w.readRsp with
  | none =>
    refine .awaiting ⟨h3, ?_, hv, ?_⟩ (hc.step h0 h3) (hn.stand hl.newBlock hl.c0Valid hr) hk (hp.quiet hv hr)
    · exact ha.trans (by simp [hl.newBlock, hr])
    · simp [step_inFlight, hl.outstanding, hl.c0Valid, hr]
  | some rsp =>
    have ho : (σ.step w).outstanding = 0 := by simp [step_inFlight, hl.outstanding, hl.c0Valid, hr]
    have hn' : Counts (σ.step w).afu (k + 1) (k + 1) := hn.response hl.newBlock hl.c0Valid hr
    have hp' : BlockProgress (p.observe w (σ.afu.step w)) (k + 1) (k + 1) := hp.line hv hr
    have hc' := hc.step h0 h3
    by_cases hlast : k + 1 = p.cls
    · have ha' : (σ.afu.step w).readsAllowed = false := ha.trans (by simp [hl.newBlock, hdone, hreq, hlast])
      refine .idle ⟨h3, ha', hv, ho⟩ ?_
      intro q hq
      rw [hc'.cur, Option.mem_some_iff] at hq
      subst hq
      rw [hlast] at hp' hn'
      exact ⟨hp', hn', fun _ => hc'.cls⟩
    · have ha' : (σ.afu.step w).readsAllowed = true := ha.trans (by simp [hl.newBlock, hdone, hreq, hlast, hr])
      refine .allowed ⟨h3, ha', hv, ho⟩ hc' hn' ?_ hp'
      show k + 1 < p.cls
      omega

end Cycle

/-- The step lemma: one case per point of the handshake. -/
theorem BlockInv.step {σ : BlockSys} {w : BlockWires} (h : BlockInv σ) (hw : BlockProtocol σ w) :
    BlockInv (σ.step w) := by
  obtain ⟨hfed, hpast, hph⟩ := h
  have hfed' : ∀ v, (σ.step w).csrs 0 = some v → (σ.step w).afu.totalCls = v.setWidth 7 := register_step hfed
  have keep : BlockPhase (σ.step w) ∧ (w.wrCsrs 3).en = false → BlockInv (σ.step w) := by
    rintro ⟨hph', h3⟩
    refine ⟨hfed', ?_, hph'⟩
    simpa [BlockSys.step, h3] using hpast
  cases hph with
  | idle hl hc =>
    refine ⟨hfed', ?_, blockPhase_idle hfed hw hl hc⟩
    intro q hq
    simp only [BlockSys.step] at hq
    split at hq
    · rcases List.mem_append.mp hq with hq | hq
      · exact hpast q hq
      · exact (hc q (Option.mem_toList.mp hq)).1
    · exact hpast q hq
  | announced hl hc hp => exact keep (blockPhase_announced hw hl hc hp)
  | allowed hl hc hn hk hp => exact keep (blockPhase_allowed hw hl hc hn hk hp)
  | requested hl hc hn hk hp => exact keep (blockPhase_requested hw hl hc hn hk hp)
  | awaiting hl hc hn hk hp => exact keep (blockPhase_awaiting hw hl hc hn hk hp)

/-- What a reset without arrivals leaves: nothing announced, no request. -/
theorem BlockBooted.handshake {σ : BlockSys} (h : BlockBooted σ) : Handshake σ false false false 0 := by
  obtain ⟨s, ws, _, hne, hws, he⟩ := h.afu
  obtain ⟨ws, w, rfl⟩ := (List.eq_nil_or_concat ws).resolve_left hne
  obtain ⟨hr, hk, _⟩ := hws w (by simp)
  rw [List.concat_eq_append, List.foldl_append] at he
  refine ⟨?_, ?_, ?_, h.outstanding⟩ <;> rw [he]
  · exact hk 3
  · simp [BlockRead.step, BlockRead.allowReads, hr]
  · simp [BlockRead.step, BlockRead.readRequest, hr]

theorem BlockBooted.inv {σ : BlockSys} (h : BlockBooted σ) : BlockInv σ := by
  refine ⟨?_, ?_, .idle h.handshake ?_⟩
  · simp [h.csrs]
  · simp [h.past]
  · simp [h.cur]

/-- The invariant holds in every run. -/
theorem blockInv_of_reachable {σ : BlockSys} (h : Reachable blockSystem σ) : BlockInv σ := by
  refine Reachable.invariant (P := BlockInv) ?_ ?_ h
  · intro σ h0
    exact BlockBooted.inv h0
  · intro σ w _ hi hw
    exact hi.step hw

/-! ## What the counters count -/

/-- What holds of the AFU and its blocks at every moment of a run. -/
structure Counted (σ : BlockSys) : Prop where
  /-- the requests of each block are its lines from the first on, in order and none twice -/
  requests : ∀ p ∈ σ.runs, ∃ m ≤ p.cls, p.reads.map ReadHdr.address = p.lineAddrs m
  /-- all of them for the blocks before the current one -/
  past : ∀ p ∈ σ.past, p.reads.map ReadHdr.address = p.lineAddrs p.cls ∧ p.lines.length = p.cls
  /-- and for the current one once its `reads_done` is 1 -/
  all : ∀ p ∈ σ.cur, σ.afu.newBlockReceived = false → σ.afu.readsDone = true →
    p.reads.map ReadHdr.address = p.lineAddrs p.cls
  one : σ.inFlight ≤ 1
  /-- a response reaches its branch of the priority chain -/
  response : ∀ w, blockSystem.permits σ w → w.readRsp.isSome = true →
    σ.afu.c0Valid = false ∧ σ.afu.newBlockReceived = false ∧
      (σ.afu.step w).clsProcessed.toNat = σ.afu.clsProcessed.toNat + 1
  /-- the counters are the numbers of requests and responses of earlier cycles -/
  counters : ∀ p ∈ σ.cur, σ.afu.newBlockReceived = false →
    σ.afu.clOffset.toNat + (if σ.afu.c0Valid then 1 else 0) = p.reads.length ∧
      σ.afu.clsProcessed.toNat = p.lines.length
  done : ∀ p ∈ σ.cur, σ.afu.newBlockReceived = false → p.rewritten = false →
    (σ.afu.readsDone = true ↔ p.lines.length = p.cls)

section View
variable {σ : BlockSys} {p : BlockRun}

/-- The counters of the current block at `l` responses and `r` requests. -/
structure BlockView (σ : BlockSys) (p : BlockRun) (r l : Nat) : Prop where
  counts : ∃ o, Counts σ.afu o l ∧ o + (if σ.afu.c0Valid then 1 else 0) = r
  cls : p.rewritten = false → σ.afu.totalCls = BitVec.ofNat 7 p.cls
  rewritten : p.rewritten = true → l = p.cls

/-- How far the current block is. -/
theorem BlockPhase.progress (h : BlockPhase σ) (hc : p ∈ σ.cur) :
    ∃ r l, l ≤ r ∧ r ≤ p.cls ∧ BlockProgress p r l ∧ (σ.afu.newBlockReceived = false → BlockView σ p r l) := by
  have same : ∀ {q : BlockRun}, BlockCurrent σ q → q = p := fun hq => Option.some.inj (hq.cur.symm.trans hc)
  cases h with
  | idle hl hcur =>
    obtain ⟨hp, hn, hcls⟩ := hcur p hc
    exact ⟨p.cls, p.cls, le_rfl, le_rfl, hp, fun _ => ⟨⟨p.cls, hn, by simp [hl.c0Valid]⟩, hcls, fun _ => rfl⟩⟩
  | announced hl hq hp =>
    obtain rfl := same hq
    refine ⟨0, 0, le_rfl, Nat.zero_le _, hp, fun hnew => ?_⟩
    rw [hl.newBlock] at hnew
    cases hnew
  | @allowed q k hl hq hn hk hp =>
    obtain rfl := same hq
    refine ⟨k, k, le_rfl, hk.le, hp, fun _ => ⟨⟨k, hn, by simp [hl.c0Valid]⟩, fun _ => hq.cls, ?_⟩⟩
    simp [hq.same]
  | @requested q k hl hq hn hk hp =>
    obtain rfl := same hq
    refine ⟨k + 1, k, Nat.le_succ k, hk, hp, fun _ => ⟨⟨k, hn, by simp [hl.c0Valid]⟩, fun _ => hq.cls, ?_⟩⟩
    simp [hq.same]
  | @awaiting q k hl hq hn hk hp =>
    obtain rfl := same hq
    refine ⟨k + 1, k, Nat.le_succ k, hk, hp, fun _ => ⟨⟨k + 1, hn, by simp [hl.c0Valid]⟩, fun _ => hq.cls, ?_⟩⟩
    simp [hq.same]

theorem BlockPhase.inFlight_le (h : BlockPhase σ) : σ.inFlight ≤ 1 := by
  cases h with
  | idle hl _ => simp [BlockSys.inFlight, hl.outstanding, hl.c0Valid]
  | announced hl => simp [BlockSys.inFlight, hl.outstanding, hl.c0Valid]
  | allowed hl => simp [BlockSys.inFlight, hl.outstanding, hl.c0Valid]
  | requested hl => simp [BlockSys.inFlight, hl.outstanding, hl.c0Valid]
  | awaiting hl => simp [BlockSys.inFlight, hl.outstanding, hl.c0Valid]

/-- A response finds the handshake waiting for it. -/
theorem BlockPhase.of_response {w : BlockWires} (h : BlockPhase σ) (hw : BlockProtocol σ w)
    (hr : w.readRsp.isSome = true) :
    ∃ p k, Handshake σ false false false 1 ∧ BlockCurrent σ p ∧ Counts σ.afu (k + 1) k ∧ k < p.cls ∧
      BlockProgress p (k + 1) k := by
  have hout := hw.response hr
  have quiet : ∀ {new allowed valid}, Handshake σ new allowed valid 0 → False := by
    intro new allowed valid hl
    rw [hl.outstanding] at hout
    exact Nat.lt_irrefl 0 hout
  cases h with
  | awaiting hl hq hn hk hp => exact ⟨_, _, hl, hq, hn, hk, hp⟩
  | idle hl _ => exact (quiet hl).elim
  | announced hl => exact (quiet hl).elim
  | allowed hl => exact (quiet hl).elim
  | requested hl => exact (quiet hl).elim

theorem BlockView.toNat_counts {r l : Nat} (h : BlockView σ p r l) (hr : r < 128) (hl : l < 128) :
    σ.afu.clOffset.toNat + (if σ.afu.c0Valid then 1 else 0) = r ∧ σ.afu.clsProcessed.toNat = l := by
  obtain ⟨o, hn, ho⟩ := h.counts
  rw [hn.offset, hn.processed, BitVec.toNat_ofNat, BitVec.toNat_ofNat, Nat.mod_eq_of_lt (by omega),
    Nat.mod_eq_of_lt (by omega)]
  exact ⟨ho, rfl⟩

theorem BlockView.readsDone {r l : Nat} (h : BlockView σ p r l) (hl : l < 128) (hp : p.cls < 128)
    (hs : p.rewritten = false) : σ.afu.readsDone = true ↔ l = p.cls := by
  obtain ⟨o, hn, _⟩ := h.counts
  rw [BlockRead.readsDone, hn.processed, h.cls hs, ofNat7_beq hl hp, decide_eq_true_iff]

end View

theorem BlockProgress.addresses {p : BlockRun} {r l : Nat} (h : BlockProgress p r l) :
    p.reads.map ReadHdr.address = p.lineAddrs r := by
  rw [h.reads, p.requests_address]

/-- No request and no response of a run is lost to the counters. -/
theorem counted (σ : BlockSys) (h : Reachable blockSystem σ) : Counted σ := by
  obtain ⟨_, hpast, hph⟩ := blockInv_of_reachable h
  constructor
  · intro p hp
    rcases List.mem_append.mp hp with hp | hp
    · exact ⟨p.cls, le_rfl, (hpast p hp).addresses⟩
    · obtain ⟨r, l, _, hr, hprog, _⟩ := hph.progress (Option.mem_toList.mp hp)
      exact ⟨r, hr, hprog.addresses⟩
  · intro p hp
    exact ⟨(hpast p hp).addresses, (hpast p hp).lines⟩
  · intro p hp hnew hdone
    obtain ⟨r, l, hlr, hr, hprog, hview⟩ := hph.progress hp
    have hlt := hprog.lt
    have hlast : l = p.cls := by
      cases hs : p.rewritten
      · exact ((hview hnew).readsDone (by omega) hlt hs).mp hdone
      · exact (hview hnew).rewritten hs
    rw [hprog.addresses, Nat.le_antisymm hr (by omega)]
  · exact hph.inFlight_le
  · intro w hw hr
    obtain ⟨p, k, hl, _, hn, hk, hprog⟩ := hph.of_response hw hr
    obtain ⟨rsp, hrsp⟩ := Option.isSome_iff_exists.mp hr
    have hlt := hprog.lt
    refine ⟨hl.c0Valid, hl.newBlock, ?_⟩
    rw [(hn.response hl.newBlock hl.c0Valid hrsp).processed, hn.processed, BitVec.toNat_ofNat, BitVec.toNat_ofNat,
      Nat.mod_eq_of_lt (by omega), Nat.mod_eq_of_lt (by omega)]
  · intro p hp hnew
    obtain ⟨r, l, hlr, hr, hprog, hview⟩ := hph.progress hp
    have hlt := hprog.lt
    have hc := (hview hnew).toNat_counts (by omega) (by omega)
    rw [hprog.reads, BlockRun.length_requests, hprog.lines]
    exact hc
  · intro p hp hnew hs
    obtain ⟨r, l, hlr, hr, hprog, hview⟩ := hph.progress hp
    have hlt := hprog.lt
    rw [hprog.lines]
    exact (hview hnew).readsDone (by omega) hlt hs

/-- A block of one line from the announcement to its response. -/
def oneLineBlock : List BlockWires :=
  [.csr 0 1, .csr 3 640, .quiet, .quiet, .quiet, .respond 0 5]

/-- After it the line was requested, received and counted. -/
theorem counted_oneLine :
    Counted (blockSystem.run .boot oneLineBlock) ∧
      (blockSystem.run .boot oneLineBlock).afu.readsDone = true ∧
      (blockSystem.run .boot oneLineBlock).cur.map (fun p => (p.cls, p.reads.map ReadHdr.address, p.lines.length)) =
        some (1, [10], 1) := by
  have hperm : blockSystem.Steps blockSystem.permits .boot oneLineBlock := by decide +kernel
  exact ⟨counted _ (Reachable.run (.init blockBooted_boot) hperm), by decide +kernel, by decide +kernel⟩

end SdbFpga.Fpga
