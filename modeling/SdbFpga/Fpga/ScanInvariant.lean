import SdbFpga.Fpga.ScanSystem

/-!
# The handshake invariant of `scan_afu`

One line at a time: a request, its response, the filter cycle, the post. `Phase` lists the nine points of that
handshake together with what the registers and the current partition's record hold there; each `phase_*` theorem moves
one phase to the next under `Protocol`, whatever the back-pressure and the latency.

* `Fed`, `Holds` : the parameter registers hold what the host wrote, and what the partition was announced with;
* `Progress p r l k` : `r` requests issued, `l` lines received and `k` lines processed, in order;
* `Phase`, `Inv` : the invariant; `Inv.step`, `inv_of_reachable` : it holds in every run.
-/

namespace SdbFpga.Fpga
open Transition

/-! ## The parameter registers -/

/-- A CSR the host has written has reached its register. -/
structure Fed (σ : Sys) : Prop where
  totalCls : ∀ v, σ.csrs 0 = some v → σ.afu.totalCls = v.setWidth 7
  filterPred : ∀ v, σ.csrs 1 = some v → σ.afu.filterPred = v.setWidth 8
  scanColumn : ∀ v, σ.csrs 2 = some v → σ.afu.scanColumn = v.setWidth 2
  writeBuffAddress : ∀ v, σ.csrs 5 = some v → σ.afu.writeBuffAddress = csrClAddr v

/-- The registers hold the parameters of partition `p`. -/
structure Holds (s : ScanAfu) (p : PartitionRun) : Prop where
  base : s.readBuffAddress = p.base
  cls : s.totalCls.toNat = p.cls
  pred : s.filterPred = p.pred
  column : s.scanColumn = p.column

/-- A register that takes a CSR in the cycle in which it is written. -/
theorem register_step {α : Type} {en : Bool} {data : MmioData} {csr : Option MmioData} {reg : α} {f : MmioData → α}
    (h : ∀ v, csr = some v → reg = f v) :
    ∀ v, (if en then some data else csr) = some v → (if en then f data else reg) = f v := by
  intro v hv
  by_cases hen : en = true
  · rw [if_pos hen] at hv ⊢
    rw [Option.some.inj hv]
  · rw [if_neg hen] at hv ⊢
    exact h v hv

theorem Fed.step {σ : Sys} {w : Wires} (h : Fed σ) (hw : Protocol σ w) : Fed (σ.step w) := by
  constructor
  · simp only [Sys.step, ScanAfu.step, ScanAfu.csrRegs, hw.active, Bool.and_true]
    exact register_step h.totalCls
  · simp only [Sys.step, ScanAfu.step, ScanAfu.csrRegs, hw.active, Bool.and_true]
    exact register_step h.filterPred
  · simp only [Sys.step, ScanAfu.step, ScanAfu.csrRegs, hw.active, Bool.and_true]
    exact register_step h.scanColumn
  · simp only [Sys.step, ScanAfu.step, ScanAfu.csrRegs, hw.active, Bool.and_true]
    exact register_step h.writeBuffAddress

/-- While no parameter is rewritten, the registers keep a partition's parameters. -/
theorem Holds.step {s : ScanAfu} {p : PartitionRun} {w : Wires} (h : Holds s p) (h0 : (w.wrCsrs 0).en = false)
    (h1 : (w.wrCsrs 1).en = false) (h2 : (w.wrCsrs 2).en = false) (h4 : (w.wrCsrs 4).en = false) :
    Holds (s.step w) p := by
  constructor
  · simp only [ScanAfu.step, ScanAfu.csrRegs, h4, Bool.and_false]; exact h.base
  · simp only [ScanAfu.step, ScanAfu.csrRegs, h0, Bool.false_and]; exact h.cls
  · simp only [ScanAfu.step, ScanAfu.csrRegs, h1, Bool.false_and]; exact h.pred
  · simp only [ScanAfu.step, ScanAfu.csrRegs, h2, Bool.false_and]; exact h.column

theorem Holds.observe {s : ScanAfu} {p : PartitionRun} (h : Holds s p) (s₀ : ScanAfu) (w : Wires)
    (s₁ : ScanAfu) : Holds s (p.observe s₀ w s₁) := ⟨h.base, h.cls, h.pred, h.column⟩

/-! ## The record of a partition -/

/-- A write request without its address. -/
def WriteReq.tagged (r : WriteReq) : BitVec 16 × ClData := (r.hdr.mdata, r.data)

/-- The result line `i` of partition `p`, with its index. -/
def PartitionRun.post (p : PartitionRun) (i : Nat) : BitVec 16 × ClData :=
  (BitVec.ofNat 16 i, scanLine p.column p.pred (p.lines.getD i 0))

/-- The first `r` lines of partition `p` in request order. -/
def PartitionRun.lineAddrs (p : PartitionRun) (r : Nat) : List ClAddr :=
  (List.range r).map fun i => p.base + BitVec.ofNat 42 i

/-- `r` requests issued, `l` lines received, `k` lines processed. Every request is the next line; the posted lines
are some of the processed ones in order, all of them exactly when the write channel never refused one. -/
structure Progress (p : PartitionRun) (r l k : Nat) : Prop where
  pos : 0 < p.cls
  lt : p.cls < 128
  column : p.column.toNat ≤ 2
  reads : p.reads = p.lineAddrs r
  lines : p.lines.length = l
  passes : p.passes = k
  posts : ∃ is : List Nat, is.Sublist (List.range k) ∧ (p.swallowed = false ↔ is = List.range k) ∧
    p.writes.map WriteReq.tagged = is.map p.post

/-- The partition is processed: all of its lines were requested, received and processed. -/
structure Complete (p : PartitionRun) : Prop where
  processed : p.processed = true
  progress : Progress p p.cls p.cls p.cls

theorem PartitionRun.lineAddrs_succ (p : PartitionRun) (r : Nat) :
    p.lineAddrs (r + 1) = p.lineAddrs r ++ [p.base + BitVec.ofNat 42 r] := by
  simp [PartitionRun.lineAddrs, List.range_succ]

section Observe
variable {p : PartitionRun} {s s' : ScanAfu} {w : Wires} {r l k : Nat}

theorem observe_reads_quiet (h0 : s'.c0Valid = false) : (p.observe s w s').reads = p.reads := by
  simp [PartitionRun.observe, h0]

theorem observe_lines_quiet (hr : w.readRsp = none) : (p.observe s w s').lines = p.lines := by
  simp [PartitionRun.observe, hr]

theorem observe_writes_quiet (h1 : s'.c1Valid = false) : (p.observe s w s').writes = p.writes := by
  simp [PartitionRun.observe, h1]

theorem observe_passes_stay (h : s.state ≠ .processing ∨ s'.state ≠ .idle) :
    (p.observe s w s').passes = p.passes := by
  have : ¬ (s.state = .processing ∧ s'.state = .idle) := fun ⟨a, b⟩ => h.elim (· a) (· b)
  simp [PartitionRun.observe, this]

theorem observe_swallowed_stay (h : s.state ≠ .processing ∨ s.units.clProcessed = false) :
    (p.observe s w s').swallowed = p.swallowed := by
  rcases h with h | h <;> simp [PartitionRun.observe, h]

/-- A result line depends on its own cache line only. -/
theorem post_observe (i : Nat) (hi : i < p.lines.length) : (p.observe s w s').post i = p.post i := by
  simp [PartitionRun.post, PartitionRun.observe, List.getElem?_append_left hi]

/-- The lines posted so far stay the lines posted when nothing is posted. -/
theorem map_post_observe {is : List Nat} (hsub : is.Sublist (List.range k)) (hk : k ≤ p.lines.length) :
    is.map (p.observe s w s').post = is.map p.post := by
  apply List.map_congr_left
  intro i hi
  have hlt := List.mem_range.mp (hsub.subset hi)
  exact post_observe i (by omega)

/-- An edge at which nothing is issued, received or processed. -/
theorem Progress.quiet (h : Progress p r l k) (hk : k ≤ l) (h0 : s'.c0Valid = false) (h1 : s'.c1Valid = false)
    (hr : w.readRsp = none) (hs : s.state ≠ .processing ∨ s.units.clProcessed = false ∧ s'.state ≠ .idle) :
    Progress (p.observe s w s') r l k := by
  obtain ⟨a, b, c, d, e, f, is, hsub, hsw, hw⟩ := h
  refine ⟨a, b, c, ?_, ?_, ?_, is, hsub, ?_, ?_⟩
  · rw [observe_reads_quiet h0, d]
    rfl
  · rw [observe_lines_quiet hr, e]
  · rw [observe_passes_stay (hs.imp_right And.right), f]
  · rw [observe_swallowed_stay (hs.imp_right And.left), hsw]
  · rw [observe_writes_quiet h1, map_post_observe hsub (by omega), hw]

/-- A read request becomes visible. -/
theorem Progress.read (h : Progress p r l k) (hk : k ≤ l) (h0 : s'.c0Valid = true)
    (ha : s'.c0Address = p.base + BitVec.ofNat 42 r) (h1 : s'.c1Valid = false) (hr : w.readRsp = none)
    (hs : s.state ≠ .processing) : Progress (p.observe s w s') (r + 1) l k := by
  obtain ⟨a, b, c, d, e, f, is, hsub, hsw, hw⟩ := h
  refine ⟨a, b, c, ?_, ?_, ?_, is, hsub, ?_, ?_⟩
  · have : (p.observe s w s').reads = p.reads ++ [s'.c0Address] := by simp [PartitionRun.observe, h0]
    rw [this, d, ha]
    exact (PartitionRun.lineAddrs_succ p r).symm
  · rw [observe_lines_quiet hr, e]
  · rw [observe_passes_stay (.inl hs), f]
  · rw [observe_swallowed_stay (.inl hs), hsw]
  · rw [observe_writes_quiet h1, map_post_observe hsub (by omega), hw]

/-- A line arrives; the lines posted before keep their data. -/
theorem Progress.line (h : Progress p r l k) (hk : k ≤ l) (h0 : s'.c0Valid = false) (h1 : s'.c1Valid = false)
    {d : ClData} (hr : w.readRsp = some d) (hs : s.state ≠ .processing) :
    Progress (p.observe s w s') r (l + 1) k := by
  obtain ⟨a, b, c, e, f, g, is, hsub, hsw, hw⟩ := h
  refine ⟨a, b, c, ?_, ?_, ?_, is, hsub, ?_, ?_⟩
  · rw [observe_reads_quiet h0, e]
    rfl
  · simp [PartitionRun.observe, hr, f]
  · rw [observe_passes_stay (.inl hs), g]
  · rw [observe_swallowed_stay (.inl hs), hsw]
  · rw [observe_writes_quiet h1, map_post_observe hsub (by omega), hw]

/-- The unit leaves `STATE_PROCESSING`: the line is posted or refused. -/
theorem Progress.pass (h : Progress p r l k) (hk : k < l) (h0 : s'.c0Valid = false) (hr : w.readRsp = none)
    (hs : s.state = .processing) (hu : s.units.clProcessed = true) (hs' : s'.state = .idle)
    (h1 : s'.c1Valid = !w.c1TxAlmFull) (hm : s'.c1Hdr.mdata = BitVec.ofNat 16 k)
    (hd : s'.c1Data = scanLine p.column p.pred (p.lines.getD k 0)) :
    Progress (p.observe s w s') r l (k + 1) := by
  obtain ⟨a, b, c, d, e, f, is, hsub, hsw, hw⟩ := h
  have hold : is.map (p.observe s w s').post = is.map p.post := map_post_observe hsub (by omega)
  have hsw' : (p.observe s w s').swallowed = (p.swallowed || w.c1TxAlmFull) := by
    simp [PartitionRun.observe, hs, hu]
  have hlen := hsub.length_le
  refine ⟨a, b, c, ?_, ?_, ?_, ?_⟩
  · rw [observe_reads_quiet h0, d]
    rfl
  · rw [observe_lines_quiet hr, e]
  · simp [PartitionRun.observe, hs, hs', f]
  · rw [hsw']
    cases hf : w.c1TxAlmFull
    · have hone : (p.observe s w s').writes = p.writes ++ [⟨s'.c1Hdr, s'.c1Data⟩] := by
        simp [PartitionRun.observe, h1, hf]
      have hpost : (p.observe s w s').post k = (s'.c1Hdr.mdata, s'.c1Data) := by
        rw [post_observe k (by omega), hm, hd]
        rfl
      refine ⟨is ++ [k], ?_, ?_, ?_⟩
      · rw [List.range_succ]
        exact hsub.append (List.Sublist.refl [k])
      · simpa [List.range_succ] using hsw
      · rw [hone, List.map_append, List.map_append, hold, hw]
        simp [hpost, WriteReq.tagged]
    · refine ⟨is, hsub.trans (by simp [List.range_succ]), ?_, ?_⟩
      · constructor
        · simp
        · intro he
          rw [he, List.length_range, List.length_range] at hlen
          omega
      · rw [observe_writes_quiet (by rw [h1, hf]; rfl), hold, hw]

end Observe

/-! ## The handshake -/

/-- The read channel: a request is being issued, a line has just arrived, `pending` requests are out. -/
structure Link (σ : Sys) (issued received : Bool) (pending : Nat) : Prop where
  c0Valid : σ.afu.c0Valid = issued
  clReqIssued : σ.afu.clReqIssued = issued
  clReceived : σ.afu.clReceived = received
  outstanding : σ.outstanding = pending

/-- Partition `p` is being processed and `k` of its lines are. -/
structure Active (σ : Sys) (p : PartitionRun) (k : Nat) : Prop where
  ready : σ.afu.newPartitionReady = false
  flag : σ.afu.partitionProcessed = false
  total : σ.afu.totalClsProcessed = BitVec.ofNat 32 k
  lt : k < p.cls
  cur : σ.cur = some p
  fresh : p.processed = false
  holds : Holds σ.afu p

/-- The points of the handshake. -/
inductive Phase (σ : Sys) : Prop
  | waiting (hs : σ.afu.state = .waiting) (hn : σ.afu.newPartitionReady = false) (hl : Link σ false false 0)
      (hv : σ.afu.c1Valid = false) (hf : σ.afu.partitionProcessed = σ.cur.isSome)
      (hc : ∀ p ∈ σ.cur, Complete p)
  | announced {p : PartitionRun} (hs : σ.afu.state = .waiting) (hn : σ.afu.newPartitionReady = true)
      (hl : Link σ false false 0) (hv : σ.afu.c1Valid = false) (hc : σ.cur = some p) (ho : p.processed = false)
      (hh : Holds σ.afu p) (hp : Progress p 0 0 0)
  | idle {p : PartitionRun} {k : Nat} (hs : σ.afu.state = .idle) (hl : Link σ false false 0)
      (hq : σ.afu.clReqAllowed = true) (ha : Active σ p k) (hp : Progress p k k k)
  | requesting {p : PartitionRun} {k : Nat} (hs : σ.afu.state = .req) (hl : Link σ false false 0)
      (hv : σ.afu.c1Valid = false) (hu : σ.afu.units = .cleared) (ha : Active σ p k) (hp : Progress p k k k)
  | requested {p : PartitionRun} {k : Nat} (hs : σ.afu.state = .req) (hl : Link σ true false 0)
      (hv : σ.afu.c1Valid = false) (hu : σ.afu.units = .cleared) (ha : Active σ p k) (hp : Progress p (k + 1) k k)
  | awaiting {p : PartitionRun} {k : Nat} (hs : σ.afu.state = .rsp) (hl : Link σ false false 1)
      (hv : σ.afu.c1Valid = false) (hu : σ.afu.units = .cleared) (ha : Active σ p k) (hp : Progress p (k + 1) k k)
  | received {p : PartitionRun} {k : Nat} (hs : σ.afu.state = .rsp) (hl : Link σ false true 0)
      (hv : σ.afu.c1Valid = false) (hu : σ.afu.units = .cleared) (hd : σ.afu.rspData = p.lines.getD k 0)
      (ha : Active σ p k) (hp : Progress p (k + 1) (k + 1) k)
  | filtering {p : PartitionRun} {k : Nat} (hs : σ.afu.state = .processing) (hl : Link σ false false 0)
      (hv : σ.afu.c1Valid = false) (hu : σ.afu.units = .cleared) (hd : σ.afu.rspData = p.lines.getD k 0)
      (ha : Active σ p k) (hp : Progress p (k + 1) (k + 1) k)
  | posting {p : PartitionRun} {k : Nat} (hs : σ.afu.state = .processing) (hl : Link σ false false 0)
      (hv : σ.afu.c1Valid = false) (hu : σ.afu.units = .filtered p.column p.pred (p.lines.getD k 0))
      (ha : Active σ p k) (hp : Progress p (k + 1) (k + 1) k)
  | done {p : PartitionRun} (hs : σ.afu.state = .idle) (hn : σ.afu.newPartitionReady = false)
      (hl : Link σ false false 0) (hq : σ.afu.clReqAllowed = false) (hf : σ.afu.partitionProcessed = true)
      (hc : σ.cur = some p) (hp : Complete p)

/-- The invariant of a run. -/
structure Inv (σ : Sys) : Prop where
  fed : Fed σ
  past : ∀ p ∈ σ.past, Complete p
  phase : Phase σ

/-! ## One cycle -/

section Cycle
variable {σ : Sys} {w : Wires} {p : PartitionRun} {k : Nat}

theorem Protocol.no_announce (hw : Protocol σ w) (h : σ.afu.state ≠ .waiting ∨ σ.afu.newPartitionReady = true) :
    (w.wrCsrs 4).en = false := by
  rw [Bool.eq_false_iff]
  intro he
  obtain ⟨hs, hn, _⟩ := hw.announce he
  rcases h with h | h
  · exact h hs
  · rw [hn] at h
    cases h

theorem Protocol.no_response (hw : Protocol σ w) (h : σ.outstanding = 0) : w.readRsp = none := by
  apply Option.not_isSome_iff_eq_none.mp
  intro hr
  have := hw.response hr
  omega

theorem step_cur (h4 : (w.wrCsrs 4).en = false) (hc : σ.cur = some p) :
    (σ.step w).cur = some (p.observe σ.afu w (σ.afu.step w)) := by
  simp [Sys.step, h4, hc]

theorem step_past (h4 : (w.wrCsrs 4).en = false) : (σ.step w).past = σ.past := by
  simp [Sys.step, h4]

theorem step_outstanding (h4 : σ.afu.c0Valid = false) (hr : w.readRsp = none) :
    (σ.step w).outstanding = σ.outstanding := by
  simp [Sys.step, h4, hr]

theorem step_newPartitionReady (ha : w.isActive = true) (s : ScanAfu) :
    (s.step w).newPartitionReady = (w.wrCsrs 4).en := by
  simp [ScanAfu.step, ScanAfu.csrRegs, ha]

/-- The record does not change its mind about being processed while the flag stays as it is. -/
theorem observe_processed_stay {s s' : ScanAfu} (h : s'.partitionProcessed = s.partitionProcessed) :
    (p.observe s w s').processed = p.processed := by
  cases hs : s.partitionProcessed <;> simp [PartitionRun.observe, h, hs]

theorem Active.params (h : Active σ p k) (hw : Protocol σ w) :
    (w.wrCsrs 0).en = false ∧ (w.wrCsrs 1).en = false ∧ (w.wrCsrs 2).en = false := by
  refine hw.stable (.inr ?_)
  simp [Sys.busy, h.cur, h.fresh]

/-- The line counter, extended to an address offset and truncated to a tag. -/
theorem Active.clsOffset (h : Active σ p k) (hlt : p.cls < 128) :
    σ.afu.totalClsProcessed.setWidth 42 = BitVec.ofNat 42 k := by
  have hk := h.lt
  rw [h.total, BitVec.setWidth_ofNat_of_le_of_lt (by omega) (by omega)]

theorem Active.clsTag (h : Active σ p k) : σ.afu.totalClsProcessed.setWidth 16 = BitVec.ofNat 16 k := by
  rw [h.total, BitVec.setWidth_ofNat_of_le (by omega)]

/-- A cycle that processes no line keeps the partition active. -/
theorem Active.step (h : Active σ p k) (hw : Protocol σ w) (h4 : (w.wrCsrs 4).en = false)
    (hf : (σ.afu.step w).partitionProcessed = false)
    (ht : (σ.afu.step w).totalClsProcessed = σ.afu.totalClsProcessed) :
    Active (σ.step w) (p.observe σ.afu w (σ.afu.step w)) k := by
  obtain ⟨h0, h1, h2⟩ := h.params hw
  constructor
  · show (σ.afu.step w).newPartitionReady = false
    rw [step_newPartitionReady hw.active, h4]
  · exact hf
  · show (σ.afu.step w).totalClsProcessed = _
    rw [ht, h.total]
  · exact h.lt
  · exact step_cur h4 h.cur
  · rw [observe_processed_stay (hf.trans h.flag.symm), h.fresh]
  · exact (h.holds.step h0 h1 h2 h4).observe _ _ _

theorem link_step {i r : Bool} {o : Nat} (hv : (σ.afu.step w).c0Valid = i) (hi : (σ.afu.step w).clReqIssued = i)
    (hr : (σ.afu.step w).clReceived = r) (ho : (σ.step w).outstanding = o) : Link (σ.step w) i r o :=
  ⟨hv, hi, hr, ho⟩

/-- `STATE_WAITING`: nothing happens, or a partition is announced. -/
theorem phase_waiting (hfed : Fed σ) (hw : Protocol σ w) (hs : σ.afu.state = .waiting)
    (hn : σ.afu.newPartitionReady = false) (hl : Link σ false false 0)
    (hf : σ.afu.partitionProcessed = σ.cur.isSome) (hc : ∀ p ∈ σ.cur, Complete p) : Phase (σ.step w) := by
  have hr := hw.no_response hl.outstanding
  have ho := (step_outstanding hl.c0Valid hr).trans hl.outstanding
  have e := step_waiting hw.noReset hs
  have hl' : Link (σ.step w) false false 0 := by
    refine link_step ?_ ?_ ?_ ho <;> rw [e]
    · exact hl.c0Valid
    · exact hl.clReqIssued
    · exact hl.clReceived
  have hs' : (σ.afu.step w).state = .waiting := by rw [e, hn]; rfl
  have hv' : (σ.afu.step w).c1Valid = false := by rw [e]
  have h0' : (σ.afu.step w).c0Valid = false := hl'.c0Valid
  have hf' : (σ.afu.step w).partitionProcessed = σ.afu.partitionProcessed := by rw [e, hn]; rfl
  cases h4 : (w.wrCsrs 4).en
  · refine .waiting hs' (by rw [← h4]; exact step_newPartitionReady hw.active _) hl' hv' ?_ ?_
    · show (σ.afu.step w).partitionProcessed = _
      rw [hf', hf]
      simp [Sys.step, h4]
    · intro q hq
      simp only [Sys.step, h4, Bool.false_eq_true, if_false, Option.mem_map] at hq
      obtain ⟨p, hp, rfl⟩ := hq
      obtain ⟨hd, hg⟩ := hc p hp
      refine ⟨?_, hg.quiet le_rfl h0' hv' hr (.inl (by rw [hs]; simp))⟩
      rw [observe_processed_stay hf', hd]
  · obtain ⟨_, _, hready⟩ := hw.announce h4
    obtain ⟨h0, h1, h2⟩ := hw.stable (.inl h4)
    simp only [Sys.ready, Bool.and_eq_true, Option.any_eq_true, decide_eq_true_eq] at hready
    obtain ⟨⟨⟨n, hn0, hpos, hlt⟩, hp1⟩, c, hc2, hcol⟩ := hready
    obtain ⟨f, hf1⟩ := Option.isSome_iff_exists.mp hp1
    have hcur : (σ.step w).cur = some ((PartitionRun.start σ.csrs (w.wrCsrs 4).data).observe σ.afu w
        (σ.afu.step w)) := by simp [Sys.step, h4]
    refine .announced hs' (by rw [← h4]; exact step_newPartitionReady hw.active _) hl' hv' hcur ?_ ?_ ?_
    · exact observe_processed_stay hf'
    · apply Holds.observe
      show Holds (σ.afu.step w) _
      constructor
      · simp [ScanAfu.step, ScanAfu.csrRegs, hw.active, h4, PartitionRun.start]
      · simp only [ScanAfu.step, ScanAfu.csrRegs, h0, Bool.false_and, PartitionRun.start, hn0, Option.getD_some]
        rw [if_neg (by simp), hfed.totalCls n hn0]
        simp only [BitVec.toNat_setWidth]
        omega
      · simp [ScanAfu.step, ScanAfu.csrRegs, h1, PartitionRun.start, hf1, hfed.filterPred f hf1]
      · simp [ScanAfu.step, ScanAfu.csrRegs, h2, PartitionRun.start, hc2, hfed.scanColumn c hc2]
    · refine Progress.quiet ?_ le_rfl h0' hv' hr (.inl (by rw [hs]; simp))
      refine ⟨?_, ?_, ?_, rfl, rfl, rfl, [], List.Sublist.refl _, by simp [PartitionRun.start], rfl⟩
      · simpa [PartitionRun.start, hn0] using hpos
      · simpa [PartitionRun.start, hn0] using hlt
      · simp only [PartitionRun.start, hc2, Option.getD_some, BitVec.toNat_setWidth]
        omega

/-- The announcement reaches the state machine. -/
theorem phase_announced (hw : Protocol σ w) (hs : σ.afu.state = .waiting) (hn : σ.afu.newPartitionReady = true)
    (hl : Link σ false false 0) (hc : σ.cur = some p) (ho : p.processed = false) (hh : Holds σ.afu p)
    (hp : Progress p 0 0 0) : Phase (σ.step w) ∧ (σ.step w).past = σ.past := by
  have hr := hw.no_response hl.outstanding
  have h4 := hw.no_announce (.inr hn)
  have e := step_waiting hw.noReset hs
  have hbusy : σ.busy = true := by simp [Sys.busy, hc, ho]
  obtain ⟨h0, h1, h2⟩ := hw.stable (.inr hbusy)
  have hl' : Link (σ.step w) false false 0 := by
    refine link_step ?_ ?_ ?_ ((step_outstanding hl.c0Valid hr).trans hl.outstanding) <;> rw [e]
    · exact hl.c0Valid
    · exact hl.clReqIssued
    · exact hl.clReceived
  have hf' : (σ.afu.step w).partitionProcessed = false := by rw [e, hn]; rfl
  have hv' : (σ.afu.step w).c1Valid = false := by rw [e]
  have ha' : Active (σ.step w) (p.observe σ.afu w (σ.afu.step w)) 0 := by
    refine ⟨?_, hf', ?_, hp.pos, step_cur h4 hc, ?_, (hh.step h0 h1 h2 h4).observe _ _ _⟩
    · exact (step_newPartitionReady hw.active _).trans h4
    · show (σ.afu.step w).totalClsProcessed = _
      rw [e]
      rfl
    · simp [PartitionRun.observe, ho, hf']
  exact ⟨.idle (by show (σ.afu.step w).state = _; rw [e, hn]; rfl) hl'
    (by show (σ.afu.step w).clReqAllowed = _; rw [e, hn]; rfl) ha'
    (hp.quiet le_rfl hl'.c0Valid hv' hr (.inl (by rw [hs]; simp))), step_past h4⟩

/-- `STATE_IDLE` with a line left: the units are cleared and the next request is due. -/
theorem phase_idle (hw : Protocol σ w) (hs : σ.afu.state = .idle) (hl : Link σ false false 0)
    (hq : σ.afu.clReqAllowed = true) (ha : Active σ p k) (hp : Progress p k k k) :
    Phase (σ.step w) ∧ (σ.step w).past = σ.past := by
  have hr := hw.no_response hl.outstanding
  have h4 := hw.no_announce (.inl (by rw [hs]; simp))
  have e := step_idle hw.noReset ha.ready hs
  have hl' : Link (σ.step w) false false 0 := by
    refine link_step ?_ ?_ ?_ ((step_outstanding hl.c0Valid hr).trans hl.outstanding) <;> rw [e]
    · exact hl.c0Valid
    · exact hl.clReqIssued
    · exact hl.clReceived
  have hv' : (σ.afu.step w).c1Valid = false := by rw [e]
  refine ⟨.requesting (by show (σ.afu.step w).state = _; rw [e, hq]; rfl) hl' hv'
    (by show (σ.afu.step w).units = _; rw [e]) (ha.step hw h4 (by rw [e]; exact ha.flag) (by rw [e]; rfl))
    (hp.quiet le_rfl hl'.c0Valid hv' hr (.inl (by rw [hs]; simp))), step_past h4⟩

/-- `STATE_REQ`: the request is issued in the first cycle in which the channel takes it. -/
theorem phase_requesting (hw : Protocol σ w) (hs : σ.afu.state = .req) (hl : Link σ false false 0)
    (hu : σ.afu.units = .cleared) (ha : Active σ p k) (hp : Progress p k k k) :
    Phase (σ.step w) ∧ (σ.step w).past = σ.past := by
  have hr := hw.no_response hl.outstanding
  have h4 := hw.no_announce (.inl (by rw [hs]; simp))
  have e := step_req hw.noReset ha.ready hs
  have ho := (step_outstanding hl.c0Valid hr).trans hl.outstanding
  have hs' : (σ.afu.step w).state = .req := by rw [e, hl.clReqIssued]; rfl
  have hv' : (σ.afu.step w).c1Valid = false := by rw [e]
  have hu' : (σ.afu.step w).units = .cleared := by rw [e]; exact hu
  have hrec : (σ.afu.step w).clReceived = false := by rw [e]; exact hl.clReceived
  have ha' := ha.step hw h4 (by rw [e]; exact ha.flag) (by rw [e]; rfl)
  have hns : σ.afu.state ≠ .processing := by rw [hs]; simp
  have hc0 : (σ.afu.step w).c0Valid = !w.c0TxAlmFull := by rw [e, hl.clReqIssued]; simp
  have hci : (σ.afu.step w).clReqIssued = !w.c0TxAlmFull := by rw [e, hl.clReqIssued]; simp
  refine ⟨?_, step_past h4⟩
  cases hfull : w.c0TxAlmFull <;> rw [hfull] at hc0 hci
  · refine .requested hs' (link_step hc0 hci hrec ho) hv' hu' ha' (hp.read le_rfl hc0 ?_ hv' hr hns)
    rw [e]
    rw [ScanAfu.readReqAddress, ha.clsOffset hp.lt, ha.holds.base]
  · exact .requesting hs' (link_step hc0 hci hrec ho) hv' hu' ha' (hp.quiet le_rfl hc0 hv' hr (.inl hns))

/-- The request is out: `STATE_RSP` follows, whatever the channel says. -/
theorem phase_requested (hw : Protocol σ w) (hs : σ.afu.state = .req) (hl : Link σ true false 0)
    (hu : σ.afu.units = .cleared) (ha : Active σ p k) (hp : Progress p (k + 1) k k) :
    Phase (σ.step w) ∧ (σ.step w).past = σ.past := by
  have hr := hw.no_response hl.outstanding
  have h4 := hw.no_announce (.inl (by rw [hs]; simp))
  have e := step_req hw.noReset ha.ready hs
  have ho : (σ.step w).outstanding = 1 := by simp [Sys.step, hl.c0Valid, hr, hl.outstanding]
  have hc0 : (σ.afu.step w).c0Valid = false := by rw [e, hl.clReqIssued]; simp
  have hv' : (σ.afu.step w).c1Valid = false := by rw [e]
  refine ⟨.awaiting (by show (σ.afu.step w).state = _; rw [e, hl.clReqIssued]; rfl)
    (link_step hc0 (by rw [e, hl.clReqIssued]; simp) (by rw [e]; exact hl.clReceived) ho) hv'
    (by show (σ.afu.step w).units = _; rw [e]; exact hu)
    (ha.step hw h4 (by rw [e]; exact ha.flag) (by rw [e]; rfl))
    (hp.quiet le_rfl hc0 hv' hr (.inl (by rw [hs]; simp))), step_past h4⟩

/-- `STATE_RSP`: the line is latched in the cycle in which it arrives. -/
theorem phase_awaiting (hw : Protocol σ w) (hs : σ.afu.state = .rsp) (hl : Link σ false false 1)
    (hu : σ.afu.units = .cleared) (ha : Active σ p k) (hp : Progress p (k + 1) k k) :
    Phase (σ.step w) ∧ (σ.step w).past = σ.past := by
  have h4 := hw.no_announce (.inl (by rw [hs]; simp))
  have e := step_rsp hw.noReset ha.ready hs
  have hs' : (σ.afu.step w).state = .rsp := by rw [e, hl.clReceived]; rfl
  have hv' : (σ.afu.step w).c1Valid = false := by rw [e]
  have hc0 : (σ.afu.step w).c0Valid = false := by rw [e]; exact hl.c0Valid
  have hci : (σ.afu.step w).clReqIssued = false := by rw [e]
  have hu' : (σ.afu.step w).units = .cleared := by rw [e]; exact hu
  have hrec : (σ.afu.step w).clReceived = w.readRsp.isSome := by rw [e]
  have hdat : (σ.afu.step w).rspData = w.readRsp.getD σ.afu.rspData := by rw [e]
  have ha' := ha.step hw h4 (by rw [e]; exact ha.flag) (by rw [e]; rfl)
  have hns : σ.afu.state ≠ .processing := by rw [hs]; simp
  refine ⟨?_, step_past h4⟩
  cases hr : w.readRsp with
  | none =>
    rw [hr] at hrec
    have ho : (σ.step w).outstanding = 1 := (step_outstanding hl.c0Valid hr).trans hl.outstanding
    exact .awaiting hs' (link_step hc0 hci hrec ho) hv' hu' ha' (hp.quiet le_rfl hc0 hv' hr (.inl hns))
  | some d =>
    rw [hr] at hrec hdat
    have ho : (σ.step w).outstanding = 0 := by simp [Sys.step, hl.c0Valid, hr, hl.outstanding]
    refine .received hs' (link_step hc0 hci hrec ho) hv' hu' ?_ ha' (hp.line le_rfl hc0 hv' hr hns)
    show (σ.afu.step w).rspData = _
    have hlen := hp.lines
    rw [hdat]
    simp [PartitionRun.observe, hr, ← hlen]

/-- The line is in `rsp_data`; `STATE_PROCESSING` follows. -/
theorem phase_received (hw : Protocol σ w) (hs : σ.afu.state = .rsp) (hl : Link σ false true 0)
    (hu : σ.afu.units = .cleared) (hd : σ.afu.rspData = p.lines.getD k 0) (ha : Active σ p k)
    (hp : Progress p (k + 1) (k + 1) k) : Phase (σ.step w) ∧ (σ.step w).past = σ.past := by
  have hr := hw.no_response hl.outstanding
  have h4 := hw.no_announce (.inl (by rw [hs]; simp))
  have e := step_rsp hw.noReset ha.ready hs
  have ho := (step_outstanding hl.c0Valid hr).trans hl.outstanding
  have hv' : (σ.afu.step w).c1Valid = false := by rw [e]
  have hc0 : (σ.afu.step w).c0Valid = false := by rw [e]; exact hl.c0Valid
  refine ⟨.filtering (by show (σ.afu.step w).state = _; rw [e, hl.clReceived]; rfl)
    (link_step hc0 (by rw [e]) (by rw [e, hr]; rfl) ho) hv' (by show (σ.afu.step w).units = _; rw [e]; exact hu) ?_
    (ha.step hw h4 (by rw [e]; exact ha.flag) (by rw [e]; rfl))
    (hp.quiet (Nat.le_succ k) hc0 hv' hr (.inl (by rw [hs]; simp))), step_past h4⟩
  show (σ.afu.step w).rspData = _
  rw [e, observe_lines_quiet hr, ← hd, hr]
  rfl

/-- First cycle of `STATE_PROCESSING`. -/
theorem phase_filtering (hw : Protocol σ w) (hs : σ.afu.state = .processing) (hl : Link σ false false 0)
    (hu : σ.afu.units = .cleared) (hd : σ.afu.rspData = p.lines.getD k 0) (ha : Active σ p k)
    (hp : Progress p (k + 1) (k + 1) k) : Phase (σ.step w) ∧ (σ.step w).past = σ.past := by
  have hr := hw.no_response hl.outstanding
  have h4 := hw.no_announce (.inl (by rw [hs]; simp))
  have e := step_processing_filter hw.noReset ha.ready hs hu
  have ho := (step_outstanding hl.c0Valid hr).trans hl.outstanding
  have hs' : (σ.afu.step w).state = .processing := by rw [e]; exact hs
  have hv' : (σ.afu.step w).c1Valid = false := by rw [e]
  have hc0 : (σ.afu.step w).c0Valid = false := by rw [e]; exact hl.c0Valid
  refine ⟨.posting hs' (link_step hc0 (by rw [e]; exact hl.clReqIssued) (by rw [e]) ho) hv' ?_
    (ha.step hw h4 (by rw [e]; exact ha.flag) (by rw [e]; rfl)) (hp.quiet (Nat.le_succ k) hc0 hv' hr (.inr ?_)),
    step_past h4⟩
  · show (σ.afu.step w).units = _
    rw [e, observe_lines_quiet hr, hd, ha.holds.column, ha.holds.pred]
    rfl
  · rw [hu, hs']
    exact ⟨rfl, by simp⟩

/-- The last line is processed: `STATE_IDLE` is left for `STATE_WAITING`. -/
theorem phase_done (hw : Protocol σ w) (hs : σ.afu.state = .idle) (hn : σ.afu.newPartitionReady = false)
    (hl : Link σ false false 0) (hq : σ.afu.clReqAllowed = false) (hf : σ.afu.partitionProcessed = true)
    (hc : σ.cur = some p) (hp : Complete p) : Phase (σ.step w) ∧ (σ.step w).past = σ.past := by
  have hr := hw.no_response hl.outstanding
  have h4 := hw.no_announce (.inl (by rw [hs]; simp))
  have e := step_idle hw.noReset hn hs
  have ho := (step_outstanding hl.c0Valid hr).trans hl.outstanding
  have hl' : Link (σ.step w) false false 0 := by
    refine link_step ?_ ?_ ?_ ho <;> rw [e]
    · exact hl.c0Valid
    · exact hl.clReqIssued
    · exact hl.clReceived
  have hf' : (σ.afu.step w).partitionProcessed = σ.afu.partitionProcessed := by rw [e]; rfl
  have hv' : (σ.afu.step w).c1Valid = false := by rw [e]
  have hc' := step_cur h4 hc
  refine ⟨.waiting (by show (σ.afu.step w).state = _; rw [e, hq, hf]; rfl)
    ((step_newPartitionReady hw.active _).trans h4) hl' hv' (by rw [hc']; exact hf'.trans hf) ?_, step_past h4⟩
  intro q hq'
  rw [hc'] at hq'
  cases hq'
  refine ⟨(observe_processed_stay hf').trans hp.processed, ?_⟩
  exact hp.progress.quiet le_rfl hl'.c0Valid hv' hr (.inl (by rw [hs]; simp))

/-- Last cycle of `STATE_PROCESSING`: the next line, or the partition is processed. -/
theorem phase_posting (hw : Protocol σ w) (hs : σ.afu.state = .processing) (hl : Link σ false false 0)
    (hu : σ.afu.units = .filtered p.column p.pred (p.lines.getD k 0)) (ha : Active σ p k)
    (hp : Progress p (k + 1) (k + 1) k) : Phase (σ.step w) ∧ (σ.step w).past = σ.past := by
  have hr := hw.no_response hl.outstanding
  have h4 := hw.no_announce (.inl (by rw [hs]; simp))
  have hdone : σ.afu.units.clProcessed = true := by rw [hu]; exact clProcessed_filtered _ _ _ hp.column
  have e := step_processing_post hw.noReset ha.ready hs hdone
  have ho := (step_outstanding hl.c0Valid hr).trans hl.outstanding
  have hs' : (σ.afu.step w).state = .idle := by rw [e]
  have hc0 : (σ.afu.step w).c0Valid = false := by rw [e]; exact hl.c0Valid
  have hl' : Link (σ.step w) false false 0 :=
    link_step hc0 (by rw [e]; exact hl.clReqIssued) (by rw [e]) ho
  have hmdata : (σ.afu.step w).c1Hdr.mdata = BitVec.ofNat 16 k := by
    rw [e]
    exact ha.clsTag
  have hdata : (σ.afu.step w).c1Data = scanLine p.column p.pred (p.lines.getD k 0) := by
    rw [e, hu]
    rfl
  have hp' : Progress (p.observe σ.afu w (σ.afu.step w)) (k + 1) (k + 1) (k + 1) :=
    hp.pass (Nat.lt_succ_self k) hc0 hr hs hdone hs' (by rw [e]) hmdata hdata
  have hcls : (σ.afu.totalCls.setWidth 32).toNat = p.cls := by
    rw [BitVec.toNat_setWidth, ha.holds.cls]
    have := hp.lt
    omega
  have htot : (σ.afu.step w).totalClsProcessed = BitVec.ofNat 32 (k + 1) := by
    rw [e]
    show σ.afu.totalClsProcessed + 1 = _
    rw [ha.total, BitVec.ofNat_add]
    rfl
  have htot' : (BitVec.ofNat 32 (k + 1)).toNat = k + 1 := by
    have := hp.lt
    have := ha.lt
    rw [BitVec.toNat_ofNat]
    omega
  have hallow : (σ.afu.step w).clReqAllowed = decide (k + 1 < p.cls) := by
    have : (σ.afu.step w).clReqAllowed
        = decide ((σ.afu.step w).totalClsProcessed < σ.afu.totalCls.setWidth 32) := by rw [e]
    simp only [this, htot, BitVec.lt_def, htot', hcls]
  have hflag : (σ.afu.step w).partitionProcessed = decide (k + 1 = p.cls) := by
    have : (σ.afu.step w).partitionProcessed
        = ((σ.afu.step w).totalClsProcessed == σ.afu.totalCls.setWidth 32) := by rw [e]
    rw [this, htot, Bool.eq_iff_iff, beq_iff_eq, ← BitVec.toNat_inj, htot', hcls, decide_eq_true_eq]
  have hn' := (step_newPartitionReady hw.active σ.afu).trans h4
  have hc' := step_cur h4 ha.cur
  refine ⟨?_, step_past h4⟩
  by_cases hlast : k + 1 = p.cls
  · have hf' : (σ.afu.step w).partitionProcessed = true := by rw [hflag]; exact decide_eq_true hlast
    refine .done hs' hn' hl' ?_ hf' hc' ⟨?_, ?_⟩
    · show (σ.afu.step w).clReqAllowed = _
      rw [hallow]
      exact decide_eq_false (by omega)
    · simp [PartitionRun.observe, ha.flag, hf']
    · rw [hlast] at hp'
      exact hp'
  · have hlt : k + 1 < p.cls := by have := ha.lt; omega
    have hf' : (σ.afu.step w).partitionProcessed = false := by rw [hflag]; exact decide_eq_false hlast
    obtain ⟨h0, h1, h2⟩ := ha.params hw
    have ha' : Active (σ.step w) (p.observe σ.afu w (σ.afu.step w)) (k + 1) := by
      refine ⟨hn', hf', htot, hlt, hc', ?_, (ha.holds.step h0 h1 h2 h4).observe _ _ _⟩
      rw [observe_processed_stay (hf'.trans ha.flag.symm), ha.fresh]
    exact .idle hs' hl' (by rw [← decide_eq_true hlt]; exact hallow) ha' hp'

end Cycle

/-! ## Runs -/

/-- At rest: the flag says whether a partition has been processed, and the last one is complete. -/
theorem Phase.at_rest {σ : Sys} (h : Phase σ) (hs : σ.afu.state = .waiting)
    (hn : σ.afu.newPartitionReady = false) :
    σ.afu.partitionProcessed = σ.cur.isSome ∧ ∀ p ∈ σ.cur, Complete p := by
  cases h with
  | waiting _ _ _ _ hf hc => exact ⟨hf, hc⟩
  | announced _ hn' => rw [hn] at hn'; cases hn'
  | _ hs' => exact absurd (hs.symm.trans hs') (by decide)

/-- A read request is visible only while no other one is out. -/
theorem Phase.of_c0Valid {σ : Sys} (h : Phase σ) (h0 : σ.afu.c0Valid = true) :
    σ.outstanding = 0 ∧ σ.cur.isSome = true := by
  have hquiet : ∀ {received pending}, Link σ false received pending → False := by
    intro received pending hl
    rw [hl.c0Valid] at h0
    cases h0
  cases h with
  | requested _ hl _ _ ha => exact ⟨hl.outstanding, by rw [ha.cur]; rfl⟩
  | waiting _ _ hl => exact (hquiet hl).elim
  | announced _ _ hl => exact (hquiet hl).elim
  | done _ _ hl => exact (hquiet hl).elim
  | _ _ hl => exact (hquiet hl).elim

/-- A write request is visible only in `STATE_IDLE`, while its partition is the current one. -/
theorem Phase.of_c1Valid {σ : Sys} (h : Phase σ) (h1 : σ.afu.c1Valid = true) : σ.cur.isSome = true := by
  have hquiet : σ.afu.c1Valid = false → False := by
    intro hv
    rw [hv] at h1
    cases h1
  cases h with
  | idle _ _ _ ha => rw [ha.cur]; rfl
  | done _ _ _ _ _ hc => rw [hc]; rfl
  | waiting _ _ _ hv => exact (hquiet hv).elim
  | announced _ _ _ hv => exact (hquiet hv).elim
  | _ _ _ hv => exact (hquiet hv).elim

/-- No request is out in `STATE_WAITING`. -/
theorem Phase.outstanding_waiting {σ : Sys} (h : Phase σ) (hs : σ.afu.state = .waiting) : σ.outstanding = 0 := by
  cases h with
  | waiting _ _ hl => exact hl.outstanding
  | announced _ _ hl => exact hl.outstanding
  | _ hs' => exact absurd (hs.symm.trans hs') (by decide)

/-- Once the flag is up and the announcement gone, the unit is back in `STATE_WAITING` a cycle later. -/
theorem Phase.flag {σ : Sys} {w : Wires} (h : Phase σ) (hw : Protocol σ w)
    (hn : σ.afu.newPartitionReady = false) (hf : σ.afu.partitionProcessed = true) :
    (σ.afu.step w).state = .waiting ∧ σ.cur.isSome = true := by
  have hactive : ∀ {p k}, Active σ p k → False := by
    intro p k ha
    rw [ha.flag] at hf
    cases hf
  cases h with
  | waiting hs _ _ _ hc => exact ⟨by rw [step_waiting hw.noReset hs, hn]; rfl, by rw [← hc, hf]⟩
  | announced _ hn' => rw [hn] at hn'; cases hn'
  | idle _ _ _ ha => exact (hactive ha).elim
  | requesting _ _ _ _ ha => exact (hactive ha).elim
  | requested _ _ _ _ ha => exact (hactive ha).elim
  | awaiting _ _ _ _ ha => exact (hactive ha).elim
  | received _ _ _ _ _ ha => exact (hactive ha).elim
  | filtering _ _ _ _ _ ha => exact (hactive ha).elim
  | posting _ _ _ _ ha => exact (hactive ha).elim
  | done hs _ _ hq _ hc => exact ⟨by rw [step_idle hw.noReset hn hs, hq, hf]; rfl, by rw [hc]; rfl⟩

/-- How far the current partition is. -/
theorem Phase.progress {σ : Sys} {p : PartitionRun} (h : Phase σ) (hc : σ.cur = some p) :
    Complete p ∨ p.processed = false ∧ ∃ r l k, k ≤ l ∧ l ≤ r ∧ r ≤ p.cls ∧ Progress p r l k := by
  have mid : ∀ {q : PartitionRun} {r l k j : Nat}, Active σ q j → k ≤ l → l ≤ r → r ≤ j + 1 → Progress q r l k →
      p.processed = false ∧ ∃ r l k, k ≤ l ∧ l ≤ r ∧ r ≤ p.cls ∧ Progress p r l k := by
    intro q r l k j ha hk hl hr hp
    have hqp : q = p := Option.some.inj (ha.cur.symm.trans hc)
    subst hqp
    exact ⟨ha.fresh, r, l, k, hk, hl, by have := ha.lt; omega, hp⟩
  cases h with
  | waiting _ _ _ _ _ hcomp => exact .inl (hcomp p hc)
  | announced _ _ _ _ hc' ho _ hp =>
    have hqp := Option.some.inj (hc'.symm.trans hc)
    subst hqp
    exact .inr ⟨ho, 0, 0, 0, le_rfl, le_rfl, Nat.zero_le _, hp⟩
  | idle _ _ _ ha hp => exact .inr (mid ha le_rfl le_rfl (Nat.le_succ _) hp)
  | requesting _ _ _ _ ha hp => exact .inr (mid ha le_rfl le_rfl (Nat.le_succ _) hp)
  | requested _ _ _ _ ha hp => exact .inr (mid ha le_rfl (Nat.le_succ _) le_rfl hp)
  | awaiting _ _ _ _ ha hp => exact .inr (mid ha le_rfl (Nat.le_succ _) le_rfl hp)
  | received _ _ _ _ _ ha hp => exact .inr (mid ha (Nat.le_succ _) le_rfl le_rfl hp)
  | filtering _ _ _ _ _ ha hp => exact .inr (mid ha (Nat.le_succ _) le_rfl le_rfl hp)
  | posting _ _ _ _ ha hp => exact .inr (mid ha (Nat.le_succ _) le_rfl le_rfl hp)
  | done _ _ _ _ _ hc' hp =>
    have hqp := Option.some.inj (hc'.symm.trans hc)
    subst hqp
    exact .inl hp

/-- The step lemma: one case per point of the handshake. -/
theorem Inv.step {σ : Sys} {w : Wires} (h : Inv σ) (hw : Protocol σ w) : Inv (σ.step w) := by
  obtain ⟨hfed, hpast, hph⟩ := h
  have keep : Phase (σ.step w) ∧ (σ.step w).past = σ.past → Inv (σ.step w) := by
    rintro ⟨hph', he⟩
    exact ⟨hfed.step hw, by rw [he]; exact hpast, hph'⟩
  cases hph with
  | waiting hs hn hl hv hf hc =>
    refine ⟨hfed.step hw, ?_, phase_waiting hfed hw hs hn hl hf hc⟩
    intro q hq
    simp only [Sys.step] at hq
    split at hq
    · rcases List.mem_append.mp hq with hq | hq
      · exact hpast q hq
      · exact hc q (Option.mem_toList.mp hq)
    · exact hpast q hq
  | announced hs hn hl hv hc ho hh hp => exact keep (phase_announced hw hs hn hl hc ho hh hp)
  | idle hs hl hq ha hp => exact keep (phase_idle hw hs hl hq ha hp)
  | requesting hs hl hv hu ha hp => exact keep (phase_requesting hw hs hl hu ha hp)
  | requested hs hl hv hu ha hp => exact keep (phase_requested hw hs hl hu ha hp)
  | awaiting hs hl hv hu ha hp => exact keep (phase_awaiting hw hs hl hu ha hp)
  | received hs hl hv hu hd ha hp => exact keep (phase_received hw hs hl hu hd ha hp)
  | filtering hs hl hv hu hd ha hp => exact keep (phase_filtering hw hs hl hu hd ha hp)
  | posting hs hl hv hu ha hp => exact keep (phase_posting hw hs hl hu ha hp)
  | done hs hn hl hq hf hc hp => exact keep (phase_done hw hs hn hl hq hf hc hp)

/-- How far each announced partition is. -/
theorem Inv.progress {σ : Sys} {p : PartitionRun} (h : Inv σ) (hp : p ∈ σ.runs) :
    Complete p ∨ p.processed = false ∧ ∃ r l k, k ≤ l ∧ l ≤ r ∧ r ≤ p.cls ∧ Progress p r l k := by
  rcases List.mem_append.mp hp with hp | hp
  · exact .inl (h.past p hp)
  · exact h.phase.progress (Option.mem_toList.mp hp)

/-- What the power-on reset establishes. -/
structure ResetDone (s : ScanAfu) : Prop where
  state : s.state = .waiting
  ready : s.newPartitionReady = false
  flag : s.partitionProcessed = false
  c0Valid : s.c0Valid = false
  c1Valid : s.c1Valid = false
  clReqIssued : s.clReqIssued = false
  clReceived : s.clReceived = false

theorem resetDone_step {s : ScanAfu} {w : Wires} (hw : ResetCycle w) (hi : s.clReqIssued = false)
    (hc : s.clReceived = false) : ResetDone (s.step w) := by
  obtain ⟨hr, ha, hk, hn⟩ := hw
  constructor
  · simp [ScanAfu.step, ScanAfu.nextState, hr]
  · rw [step_newPartitionReady ha, hk]
  · simp [ScanAfu.step, ScanAfu.mainLogic, hr]
  · simp [ScanAfu.step, ScanAfu.readRequest, hr]
  · simp [ScanAfu.step, ScanAfu.memoryWrite, hr]
  · simpa [ScanAfu.step, ScanAfu.readRequest, hr] using hi
  · cases hs : s.state <;> simp [ScanAfu.step, ScanAfu.readResponse, hs, hn, hc]

theorem resetDone_foldl (ws : List Wires) (s : ScanAfu) (hw : ∀ w ∈ ws, ResetCycle w) (hs : ResetDone s) :
    ResetDone (ws.foldl ScanAfu.step s) := by
  induction ws generalizing s with
  | nil => exact hs
  | cons w ws ih =>
    rw [List.forall_mem_cons] at hw
    exact ih _ hw.2 (resetDone_step hw.1 hs.clReqIssued hs.clReceived)

theorem Booted.resetDone {σ : Sys} (h : Booted σ) : ResetDone σ.afu := by
  obtain ⟨s, ws, hs, hne, hw, he⟩ := h.afu
  rw [he]
  cases ws with
  | nil => exact absurd rfl hne
  | cons w ws =>
    rw [List.forall_mem_cons] at hw
    exact resetDone_foldl ws _ hw.2 (resetDone_step hw.1 hs.clReqIssued hs.clReceived)

theorem Booted.inv {σ : Sys} (h : Booted σ) : Inv σ := by
  obtain ⟨hs, hn, hf, h0, h1, hi, hc⟩ := h.resetDone
  refine ⟨⟨?_, ?_, ?_, ?_⟩, ?_, .waiting hs hn ⟨h0, hi, hc, h.outstanding⟩ h1 ?_ ?_⟩
  all_goals simp [h.csrs, h.past, h.cur, hf]

/-- The invariant holds in every run. -/
theorem inv_of_reachable {σ : Sys} (h : Reachable scanSystem σ) : Inv σ := by
  refine Reachable.invariant (P := Inv) ?_ ?_ h
  · intro σ h0
    exact Booted.inv h0
  · intro σ w _ hi hw
    exact hi.step hw

end SdbFpga.Fpga
