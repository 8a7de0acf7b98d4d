import SdbFpga.Fpga.DpScanRuns
import SdbFpga.Fpga.ScanSystem

/-!
# What the data-parallel `scan_afu` reads and writes over a run

* `DpTransfer` : the record of a partition with its parameters, lines and writes, `DpTransfer.observe`;
* `DpTransfers` : the unit with the records of all partitions, `dpTransfers` : its runs over partitions of up to 64
  lines, with the parameters left alone while they are used;
* `DpFlow`, `DpFlow.step` : the data at each point of the handshake;
* `DpTransfer.Sound` : every write is the filter of the line it belongs to, `sound_of_reachable`.
-/

namespace SdbFpga.Fpga
open Transition Bits

/-! ## Records -/

/-- The partition's record with its data. -/
structure DpTransfer where
  run : DpRun
  /-- `CSR[1]` at the announcement -/
  predicate : BitVec 4
  /-- line address last written to `CSR[5]` while the partition is not processed -/
  result : ClAddr
  lines : List ClData
  writes : List WriteReq
  /-- a pass ended in a cycle with `c1TxAlmFull` high -/
  swallowed : Bool
  deriving DecidableEq, Repr

/-- The record a `CSR[4]` write opens. -/
def DpTransfer.start (s : DpScanAfu) (address : MmioData) : DpTransfer where
  run := .start s address
  predicate := s.filterPred
  result := s.writeBuffAddress
  lines := []
  writes := []
  swallowed := false

/-- The edge from `s` to `s'` under the wires `w`, as seen by the partition being processed. -/
def DpTransfer.observe (p : DpTransfer) (s : DpScanAfu) (w : DpWires) (s' : DpScanAfu) : DpTransfer where
  run := p.run.observe s w s'
  predicate := p.predicate
  result := if (w.wrCsrs 5).en && !p.run.processed then csrClAddr (w.wrCsrs 5).data else p.result
  lines := p.lines ++ w.readRsp.toList
  writes := if s'.c1Valid then p.writes ++ [⟨s'.c1Hdr, s'.c1Data⟩] else p.writes
  swallowed := p.swallowed || (decide (s.state = .processing) && s.allProcessed && w.c1TxAlmFull)

/-- The unit and the records of its run. -/
structure DpTransfers where
  sys : DpSys
  past : List DpTransfer
  cur : Option DpTransfer

/-- The announced partitions, in order. -/
def DpTransfers.runs (σ : DpTransfers) : List DpTransfer := σ.past ++ σ.cur.toList

/-- One cycle. -/
def DpTransfers.step (σ : DpTransfers) (w : DpWires) : DpTransfers where
  sys := σ.sys.step w
  past := if (w.wrCsrs 4).en then σ.past ++ σ.cur.toList else σ.past
  cur := (if (w.wrCsrs 4).en then some (.start σ.sys.afu (w.wrCsrs 4).data) else σ.cur).map
    fun p => p.observe σ.sys.afu w (σ.sys.afu.step w)

/-- An announcement opens a record. -/
theorem DpTransfers.step_announce {σ : DpTransfers} {w : DpWires} (h4 : (w.wrCsrs 4).en = true) :
    (σ.step w).past = σ.runs ∧ (σ.step w).cur =
      some ((DpTransfer.start σ.sys.afu (w.wrCsrs 4).data).observe σ.sys.afu w (σ.sys.afu.step w)) := by
  unfold DpTransfers.step
  rw [h4]
  exact ⟨rfl, rfl⟩

theorem DpTransfers.step_stay {σ : DpTransfers} {w : DpWires} (h4 : (w.wrCsrs 4).en = false) :
    (σ.step w).past = σ.past ∧
      (σ.step w).cur = σ.cur.map fun p => p.observe σ.sys.afu w (σ.sys.afu.step w) := by
  unfold DpTransfers.step
  rw [h4]
  exact ⟨rfl, rfl⟩

/-- Beyond `DpProtocol`: at most 64 lines, the predicate stays until the partition is processed, and `CSR[5]` is not
written from its first read response on. -/
structure DpDataProtocol (σ : DpTransfers) (w : DpWires) : Prop where
  unit : DpProtocol σ.sys w
  size : (w.wrCsrs 4).en = true → σ.sys.afu.totalCls.toNat ≤ 64
  predicate : (w.wrCsrs 4).en = true ∨ σ.sys.busy = true → (w.wrCsrs 1).en = false
  result : ∀ p ∈ σ.cur, p.run.processed = false → w.readRsp.isSome = true ∨ p.lines ≠ [] → (w.wrCsrs 5).en = false

instance (σ : DpSys) (w : DpWires) : Decidable (DpProtocol σ w) :=
  decidable_of_iff
    (w.reset = false ∧
      ((w.wrCsrs 4).en = true → σ.afu.state = .waiting ∧ σ.afu.newPartitionReady = false ∧ σ.afu.totalCls ≠ 0) ∧
      ((w.wrCsrs 4).en = true ∨ σ.busy = true → (w.wrCsrs 0).en = false) ∧
      (w.readRsp.isSome = true → 0 < σ.outstanding))
    ⟨fun ⟨a, b, c, d⟩ => ⟨a, b, c, d⟩, fun ⟨a, b, c, d⟩ => ⟨a, b, c, d⟩⟩

instance (σ : DpTransfers) (w : DpWires) : Decidable (DpDataProtocol σ w) :=
  decidable_of_iff
    (DpProtocol σ.sys w ∧ ((w.wrCsrs 4).en = true → σ.sys.afu.totalCls.toNat ≤ 64) ∧
      ((w.wrCsrs 4).en = true ∨ σ.sys.busy = true → (w.wrCsrs 1).en = false) ∧
      ∀ p ∈ σ.cur, p.run.processed = false →
        w.readRsp.isSome = true ∨ p.lines ≠ [] → (w.wrCsrs 5).en = false)
    ⟨fun ⟨a, b, c, d⟩ => ⟨a, b, c, d⟩, fun ⟨a, b, c, d⟩ => ⟨a, b, c, d⟩⟩

/-- The power-on reset has ended. -/
structure DpDataBooted (σ : DpTransfers) : Prop where
  unit : DpBooted σ.sys
  past : σ.past = []
  cur : σ.cur = none

/-- The runs under `DpDataProtocol`. -/
def dpTransfers : System DpTransfers DpWires where
  init := DpDataBooted
  permits := DpDataProtocol
  step := DpTransfers.step

instance (σ : DpTransfers) (w : DpWires) : Decidable (dpTransfers.permits σ w) :=
  inferInstanceAs (Decidable (DpDataProtocol σ w))

/-! ## The result line -/

/-- A line filtered by one unit, in the low 128 bits. -/
def filteredLine (predicate : BitVec 4) (cl : ClData) : ClData :=
  (filterUnit false true predicate cl (.cleared 128)).bitResult.setWidth 512

theorem getLsbD_filteredLine (predicate : BitVec 4) (cl : ClData) (l : Nat) : (filteredLine predicate cl).getLsbD l =
    (decide (l < 128) && decide (predicate.toNat ≤ (lane 4 l cl).toNat)) := by
  rw [filteredLine, BitVec.getLsbD_setWidth]
  by_cases hl : l < 128
  · rw [getLsbD_filterUnit predicate cl _ hl, decide_eq_true hl, decide_eq_true (show l < 512 by omega)]
  · rw [BitVec.getLsbD_of_ge _ _ (by omega), decide_eq_false hl, Bool.and_false, Bool.false_and]

/-- Once all slices are done, `bit_result` is the line filtered. -/
theorem DpScanAfu.Chain.bitResult_eq {s : DpScanAfu} {predicate : BitVec 4} {cl : ClData} {j : Nat}
    (h : s.Chain predicate cl j) (hj : 8 ≤ j) (hhigh : s.bitResultHigh = 0) :
    s.bitResult = filteredLine predicate cl := by
  obtain ⟨hlanes, _, _, _, hrest⟩ := lineFiltered_of_chain h hj hhigh
  apply BitVec.eq_of_getLsbD_eq
  intro l _
  rw [getLsbD_filteredLine]
  by_cases hl : l < 128
  · rw [hlanes l hl, decide_eq_true hl, Bool.true_and]
  · rw [hrest l (by omega), decide_eq_false hl, Bool.false_and]

/-- The write request that belongs to line `i` of partition `p`. -/
def DpTransfer.resultWrite (p : DpTransfer) (i : Nat) : WriteReq where
  hdr := ⟨BitVec.ofNat 16 i, p.result + BitVec.ofNat 42 i⟩
  data := filteredLine p.predicate (p.lines.getD i 0)

/-- The writes of the first `k` passes, in order; the ones of refused passes are missing. -/
def DpTransfer.WrittenUpTo (p : DpTransfer) (k : Nat) : Prop :=
  ∃ is : List Nat, is.Sublist (List.range k) ∧ (p.swallowed = false ↔ is = List.range k) ∧
    p.writes = is.map p.resultWrite

/-! ## The data at a point of the handshake -/

/-- The data of partition `p` at point `pt` after `k` passes. -/
structure DpFlow (σ : DpTransfers) (pt : DpPoint) (p : DpTransfer) (k : Nat) : Prop where
  current : DpCurrent σ.sys pt p.run k
  small : p.run.cls ≤ 64
  predicate : pt.busy = true → σ.sys.afu.filterPred = p.predicate
  result : pt.busy = true → σ.sys.afu.writeBuffAddress = p.result
  lines : p.lines.length = p.run.answered
  data : pt.arrived = 1 → p.lines[k]? = some σ.sys.afu.rspData
  chain : ∀ j, pt = .filtering j → σ.sys.afu.Chain p.predicate σ.sys.afu.rspData j
  written : p.WrittenUpTo k

section Flow
variable {σ : DpTransfers} {w : DpWires} {pt : DpPoint} {p : DpTransfer} {k : Nat}

theorem DpFlow.length (h : DpFlow σ pt p k) : p.lines.length = k + pt.arrived := h.lines.trans h.current.answered

theorem DpPoint.arrived_of_passes (h : pt.passes = true) : pt.arrived = 1 := by
  obtain ⟨j, _, rfl⟩ := DpPoint.exists_of_passes h
  rfl

/-- A line is posted at the end of a pass, unless the channel is full. -/
theorem c1Valid_step (hc : DpControl σ.sys pt) (hw : DpProtocol σ.sys w) :
    (σ.sys.afu.step w).c1Valid = (pt.passes && !w.c1TxAlmFull) := by
  show (σ.sys.afu.memoryWrite w).c1Valid = _
  unfold DpScanAfu.memoryWrite
  rw [if_neg (by rw [hw.noReset]; decide)]
  show (decide (σ.sys.afu.state = .processing) && σ.sys.afu.allProcessed && !w.c1TxAlmFull) = _
  by_cases hs : σ.sys.afu.state = .processing
  · rw [hc.allProcessed_eq hs, decide_eq_true hs, Bool.true_and]
  · have hpass : pt.passes = false := by
      rw [Bool.eq_false_iff]
      intro hpass
      obtain ⟨j, _, rfl⟩ := DpPoint.exists_of_passes hpass
      exact hs hc.state
    rw [decide_eq_false hs, hpass, Bool.false_and]

theorem swallowed_step (hc : DpControl σ.sys pt) : (p.observe σ.sys.afu w (σ.sys.afu.step w)).swallowed =
    (p.swallowed || (pt.passes && w.c1TxAlmFull)) := by
  show (p.swallowed || (decide (σ.sys.afu.state = .processing) && σ.sys.afu.allProcessed && w.c1TxAlmFull)) = _
  by_cases hs : σ.sys.afu.state = .processing
  · rw [hc.allProcessed_eq hs, decide_eq_true hs, Bool.true_and]
  · have hpass : pt.passes = false := by
      rw [Bool.eq_false_iff]
      intro hpass
      obtain ⟨j, _, rfl⟩ := DpPoint.exists_of_passes hpass
      exact hs hc.state
    rw [decide_eq_false hs, hpass, Bool.false_and]

section Cycle
variable (h : DpFlow σ pt p k)
include h

/-- The buffer of a partition that has a line stays. -/
theorem DpFlow.result_eq (hcur : σ.cur = some p) (hw : DpDataProtocol σ w)
    (hk : 0 < k + pt.arrived ∨ w.readRsp.isSome = true) :
    (p.observe σ.sys.afu w (σ.sys.afu.step w)).result = p.result := by
  show (if (w.wrCsrs 5).en && !p.run.processed then csrClAddr (w.wrCsrs 5).data else p.result) = _
  cases hp : p.run.processed with
  | true => rw [Bool.not_true, Bool.and_false, if_neg Bool.false_ne_true]
  | false =>
    have h5 : (w.wrCsrs 5).en = false := by
      refine hw.result p hcur hp ?_
      rcases hk with hk | hr
      · refine .inr (List.ne_nil_of_length_pos ?_)
        rw [h.length]
        exact hk
      · exact .inl hr
    rw [h5, Bool.false_and, if_neg Bool.false_ne_true]

/-- The line that a pass ends with. -/
theorem DpFlow.line (hpass : pt.passes = true) : p.lines[k]? = some σ.sys.afu.rspData ∧ k < p.lines.length := by
  have hdata := h.data (DpPoint.arrived_of_passes hpass)
  exact ⟨hdata, (List.getElem?_eq_some_iff.mp hdata).1⟩

/-- The request a pass ends with is the write of its line. -/
theorem DpFlow.posted (hw : DpDataProtocol σ w) (hhigh : σ.sys.afu.bitResultHigh = 0) (hpass : pt.passes = true) :
    (⟨(σ.sys.afu.step w).c1Hdr, (σ.sys.afu.step w).c1Data⟩ : WriteReq) = p.resultWrite k := by
  obtain ⟨hbusy, hpt⟩ := DpPoint.busy_of_passes hpass
  have hk := h.current.count hbusy h.small
  have hsmall := h.small
  have hreset := hw.unit.noReset
  have htotal := h.current.total hbusy hpt
  have hresult := h.result hbusy
  have hline := (h.line hpass).1
  obtain ⟨j, hj, rfl⟩ := DpPoint.exists_of_passes hpass
  have hdata : (σ.sys.afu.step w).c1Data = filteredLine p.predicate σ.sys.afu.rspData := by
    show (σ.sys.afu.memoryWrite w).c1Data = _
    unfold DpScanAfu.memoryWrite
    rw [if_neg (by rw [hreset]; decide)]
    exact (h.chain j rfl).bitResult_eq hj hhigh
  have hmdata : (BitVec.ofNat 6 k).setWidth 16 = BitVec.ofNat 16 k := by
    apply BitVec.eq_of_toNat_eq
    rw [BitVec.toNat_setWidth, BitVec.toNat_ofNat, BitVec.toNat_ofNat]
    omega
  have hoff : (BitVec.ofNat 6 k).setWidth 42 = BitVec.ofNat 42 k := by
    apply BitVec.eq_of_toNat_eq
    rw [BitVec.toNat_setWidth, BitVec.toNat_ofNat, BitVec.toNat_ofNat]
    omega
  have hhdr : (σ.sys.afu.step w).c1Hdr = ⟨BitVec.ofNat 16 k, p.result + BitVec.ofNat 42 k⟩ := by
    show (σ.sys.afu.memoryWrite w).c1Hdr = _
    unfold DpScanAfu.memoryWrite
    rw [if_neg (by rw [hreset]; decide)]
    show σ.sys.afu.writeHdr = _
    rw [DpScanAfu.writeHdr, htotal, hresult, hmdata, hoff]
  rw [DpTransfer.resultWrite, hhdr, hdata, List.getD_eq_getElem?_getD, hline]
  rfl

theorem DpFlow.predicate_step (hw : DpDataProtocol σ w) (hnext : pt.busy = true) :
    (σ.sys.afu.step w).filterPred = p.predicate := by
  have hbusy : σ.sys.busy = true := by
    rw [DpSys.busy, h.current.cur, Option.any_some, h.current.processed, hnext]
    rfl
  rw [step_filterPred (hw.predicate (.inr hbusy))]
  exact h.predicate hnext

/-- The write address follows `CSR[5]` like the record. -/
theorem DpFlow.result_step (hbusy : pt.busy = true) :
    (σ.sys.afu.step w).writeBuffAddress = (p.observe σ.sys.afu w (σ.sys.afu.step w)).result := by
  have hprocessed : p.run.processed = false := by
    rw [h.current.processed, hbusy]
    rfl
  show (if (w.wrCsrs 5).en then csrClAddr (w.wrCsrs 5).data else σ.sys.afu.writeBuffAddress) =
    if (w.wrCsrs 5).en && !p.run.processed then csrClAddr (w.wrCsrs 5).data else p.result
  rw [hprocessed, Bool.not_false, Bool.and_true, h.result hbusy]

theorem DpFlow.data_step (hc : DpControl σ.sys pt) (hw : DpDataProtocol σ w)
    (hnext : (pt.next w σ.sys.last).arrived = 1) :
    (p.observe σ.sys.afu w (σ.sys.afu.step w)).lines[k + pt.passes.toNat]? = some (σ.sys.afu.step w).rspData := by
  have hs := hc.state
  show (p.lines ++ w.readRsp.toList)[k + pt.passes.toNat]? = some (σ.sys.afu.readResponse w).rspData
  by_cases hline : pt ≠ .awaiting ∨ w.readRsp = none
  · have hnone : w.readRsp = none := hline.elim (hc.no_response hw.unit) id
    have harrived := DpPoint.next_arrived σ.sys.last hline
    have hone : pt.arrived = 1 ∧ pt.passes.toNat = 0 := by
      have hle : pt.arrived ≤ 1 := by cases pt <;> simp [DpPoint.arrived]
      omega
    have hhold : (σ.sys.afu.readResponse w).rspData = σ.sys.afu.rspData := by
      unfold DpScanAfu.readResponse
      rw [hnone]
      split_ifs <;> rfl
    rw [hnone, hone.2, hhold, Option.toList_none, List.append_nil]
    exact h.data hone.1
  · push Not at hline
    obtain ⟨rfl, hsome⟩ := hline
    obtain ⟨cl, hcl⟩ := Option.ne_none_iff_exists'.mp hsome
    have hlen : p.lines.length = k := h.length
    have hstate : σ.sys.afu.state = .rsp := hs
    have hrsp : (σ.sys.afu.readResponse w).rspData = cl := by
      unfold DpScanAfu.readResponse
      rw [if_pos hstate, hcl]
      rfl
    rw [hrsp, hcl, ← hlen]
    exact List.getElem?_concat_length

theorem DpFlow.chain_step (hc : DpControl σ.sys pt) (j : Nat) (hnext : pt.next w σ.sys.last = .filtering j) :
    (σ.sys.afu.step w).Chain p.predicate (σ.sys.afu.step w).rspData j := by
  have hs := hc.state
  rcases (DpPoint.next_filtering σ.sys.last).mp hnext with ⟨rfl, rfl⟩ | ⟨i, hi, rfl, rfl⟩
  · have hhold : (σ.sys.afu.step w).units = σ.sys.afu.units :=
      units_step_hold (by rw [hs]; decide) (by rw [hs]; decide)
    exact ((hc.empty (.inr hs)).congr hhold).of_zero _ _
  · have hstate : σ.sys.afu.state = .processing := hs
    have hrsp : (σ.sys.afu.step w).rspData = σ.sys.afu.rspData := by
      show (σ.sys.afu.readResponse w).rspData = _
      unfold DpScanAfu.readResponse
      rw [if_neg (by rw [hstate]; decide), if_pos hstate]
    have hchain := (h.chain i rfl).step_processing w hs
    rwa [h.predicate rfl, ← hrsp] at hchain

/-- The lines of earlier passes keep their writes. -/
theorem DpFlow.resultWrite_eq (hcur : σ.cur = some p) (hw : DpDataProtocol σ w) {i : Nat} (hi : i < k) :
    (p.observe σ.sys.afu w (σ.sys.afu.step w)).resultWrite i = p.resultWrite i := by
  have hlen := h.length
  have hres := h.result_eq hcur hw (.inl (by omega))
  have hline : (p.lines ++ w.readRsp.toList).getD i 0 = p.lines.getD i 0 := by
    rw [List.getD_append _ _ _ _ (by omega)]
  unfold DpTransfer.resultWrite
  rw [hres]
  show (⟨_, filteredLine p.predicate ((p.lines ++ w.readRsp.toList).getD i 0)⟩ : WriteReq) = _
  rw [hline]

theorem DpFlow.map_resultWrite (hcur : σ.cur = some p) (hw : DpDataProtocol σ w) {is : List Nat}
    (his : is.Sublist (List.range k)) :
    is.map (p.observe σ.sys.afu w (σ.sys.afu.step w)).resultWrite = is.map p.resultWrite :=
  List.map_congr_left fun _ hi => h.resultWrite_eq hcur hw (List.mem_range.mp (his.subset hi))

theorem DpFlow.written_step (hc : DpControl σ.sys pt) (hcur : σ.cur = some p) (hw : DpDataProtocol σ w)
    (hhigh : σ.sys.afu.bitResultHigh = 0) :
    (p.observe σ.sys.afu w (σ.sys.afu.step w)).WrittenUpTo (k + pt.passes.toNat) := by
  obtain ⟨is, hsub, hsw, hwrites⟩ := h.written
  have hmap := h.map_resultWrite hcur hw hsub
  have hvalid := c1Valid_step hc hw.unit
  have hswallowed := swallowed_step (p := p) (w := w) hc
  have hposts : (p.observe σ.sys.afu w (σ.sys.afu.step w)).writes =
      if pt.passes && !w.c1TxAlmFull then p.writes ++ [⟨(σ.sys.afu.step w).c1Hdr, (σ.sys.afu.step w).c1Data⟩]
      else p.writes := by
    show (if (σ.sys.afu.step w).c1Valid then _ else _) = _
    rw [hvalid]
  cases hpass : pt.passes with
  | false =>
    rw [hpass] at hswallowed hposts
    rw [Bool.false_and, Bool.or_false] at hswallowed
    refine ⟨is, hsub, ?_, ?_⟩
    · rw [hswallowed]
      exact hsw
    · rw [hposts, Bool.false_and, if_neg Bool.false_ne_true, hmap, hwrites]
  | true =>
    rw [hpass, Bool.true_and] at hswallowed hposts
    rw [Bool.toNat_true]
    cases hfull : w.c1TxAlmFull with
    | true =>
      -- the line is lost: a list of at most `k` lines is not all of `k + 1`
      rw [hfull] at hswallowed hposts
      refine ⟨is, hsub.trans (List.range_sublist.mpr (Nat.le_succ k)), ?_, ?_⟩
      · rw [hswallowed, Bool.or_true]
        refine iff_of_false (by decide) ?_
        intro heq
        have hle := hsub.length_le
        rw [heq, List.length_range, List.length_range] at hle
        omega
      · rw [hposts, Bool.not_true, if_neg Bool.false_ne_true, hmap, hwrites]
    | false =>
      rw [hfull] at hswallowed hposts
      rw [Bool.or_false] at hswallowed
      have hlast : (p.observe σ.sys.afu w (σ.sys.afu.step w)).resultWrite k = p.resultWrite k := by
        have hlen := (h.line hpass).2
        have hres := h.result_eq hcur hw (.inl (by rw [DpPoint.arrived_of_passes hpass]; omega))
        unfold DpTransfer.resultWrite
        rw [hres]
        show (⟨_, filteredLine p.predicate ((p.lines ++ w.readRsp.toList).getD k 0)⟩ : WriteReq) = _
        rw [List.getD_append _ _ _ _ hlen]
      refine ⟨is ++ [k], ?_, ?_, ?_⟩
      · rw [List.range_succ]
        exact hsub.append (List.Sublist.refl [k])
      · rw [hswallowed, hsw, List.range_succ, List.append_left_inj]
      · rw [hposts, Bool.not_false, if_pos rfl, List.map_append, hmap, hwrites, List.map_singleton, hlast,
          h.posted hw hhigh hpass]

/-- One cycle without an announcement. -/
theorem DpFlow.step (hc : DpControl σ.sys pt) (hcur : σ.cur = some p) (hw : DpDataProtocol σ w)
    (hhigh : σ.sys.afu.bitResultHigh = 0) (h4 : (w.wrCsrs 4).en = false) :
    DpFlow (σ.step w) (pt.next w σ.sys.last) (p.observe σ.sys.afu w (σ.sys.afu.step w)) (k + pt.passes.toNat) := by
  have hsource : (pt.next w σ.sys.last).busy = true → pt.busy = true :=
    fun hb => (DpPoint.busy_of_next σ.sys.last h4 hb).1
  constructor
  case current => exact h.current.step hc hw.unit h4
  case small => exact h.small
  case predicate => exact fun hb => h.predicate_step hw (hsource hb)
  case result => exact fun hb => h.result_step (hsource hb)
  case lines =>
    show (p.lines ++ w.readRsp.toList).length = if w.readRsp.isSome then p.run.answered + 1 else p.run.answered
    rw [List.length_append, h.lines]
    cases w.readRsp <;> rfl
  case data => exact h.data_step hc hw
  case chain => exact h.chain_step hc
  case written => exact h.written_step hc hcur hw hhigh

end Cycle

/-- The cycle that announces a partition. -/
theorem dpFlow_start (hc : DpControl σ.sys .waiting) (hw : DpDataProtocol σ w) (h4 : (w.wrCsrs 4).en = true) :
    DpFlow (σ.step w) .announced
      ((DpTransfer.start σ.sys.afu (w.wrCsrs 4).data).observe σ.sys.afu w (σ.sys.afu.step w)) 0 := by
  have hquiet := hc.no_response hw.unit (by decide)
  have hvalid := c1Valid_step hc hw.unit
  constructor
  case current => exact dpCurrent_start hc hw.unit h4
  case small => exact hw.size h4
  case predicate => exact fun _ => step_filterPred (hw.predicate (.inl h4))
  case result =>
    intro _
    show (if (w.wrCsrs 5).en then csrClAddr (w.wrCsrs 5).data else σ.sys.afu.writeBuffAddress) =
      if (w.wrCsrs 5).en && !false then csrClAddr (w.wrCsrs 5).data else σ.sys.afu.writeBuffAddress
    rw [Bool.not_false, Bool.and_true]
  case lines =>
    show ([] ++ w.readRsp.toList).length = if w.readRsp.isSome then 0 + 1 else 0
    rw [hquiet]
    rfl
  case data => exact fun hone => by cases hone
  case chain => exact fun j hj => by cases hj
  case written =>
    refine ⟨[], List.Sublist.refl [], ?_, ?_⟩
    · rw [swallowed_step hc]
      exact iff_of_true rfl rfl
    · show (if (σ.sys.afu.step w).c1Valid then _ else _) = _
      rw [hvalid]
      rfl

end Flow

/-! ## Runs -/

/-- What a record says at any time. -/
structure DpTransfer.Sound (p : DpTransfer) : Prop where
  small : p.run.cls ≤ 64
  lines : p.lines.length ≤ p.run.cls
  writes : ∃ k ≤ p.lines.length, p.WrittenUpTo k ∧ (p.run.processed = true → k = p.run.cls)

theorem DpFlow.sound {σ : DpTransfers} {pt : DpPoint} {p : DpTransfer} {k : Nat} (h : DpFlow σ pt p k) : p.Sound := by
  have hlen := h.length
  have hprocessed := h.current.processed
  have hle : k + pt.arrived ≤ p.run.cls := by
    cases hb : pt.busy with
    | true =>
      have hlt := h.current.count hb h.small
      have hone : pt.arrived ≤ 1 := by cases pt <;> simp [DpPoint.arrived]
      omega
    | false =>
      have heq := (h.current.complete hb).2
      have hzero : pt.arrived = 0 := by cases pt <;> first | rfl | cases hb
      omega
  refine ⟨h.small, by omega, k, by omega, h.written, ?_⟩
  intro hp
  rw [hp, eq_comm, Bool.not_eq_true'] at hprocessed
  exact (h.current.complete hprocessed).2

/-- The invariant: a point of the handshake with the data of the partition announced last, and sound records. -/
structure DpDataInv (σ : DpTransfers) : Prop where
  high : σ.sys.afu.bitResultHigh = 0
  past : ∀ p ∈ σ.past, p.Sound
  at_point : ∃ pt, DpControl σ.sys pt ∧
    (pt = .waiting ∧ σ.cur = none ∨ ∃ p k, σ.cur = some p ∧ DpFlow σ pt p k)

section Runs
variable {σ : DpTransfers} {w : DpWires}

theorem DpDataInv.sound (h : DpDataInv σ) {p : DpTransfer} (hp : p ∈ σ.runs) : p.Sound := by
  rcases List.mem_append.mp hp with hp | hp
  · exact h.past p hp
  · rw [Option.mem_toList] at hp
    obtain ⟨pt, _, ⟨_, hnone⟩ | ⟨q, k, hq, hflow⟩⟩ := h.at_point
    · rw [hnone] at hp
      cases hp
    · rw [hq] at hp
      obtain rfl := Option.mem_some.mp hp
      exact hflow.sound

theorem DpDataInv.step (h : DpDataInv σ) (hw : DpDataProtocol σ w) : DpDataInv (σ.step w) := by
  have hhigh := step_bitResultHigh (w := w) (.inl h.high)
  obtain ⟨pt, hc, hp⟩ := h.at_point
  cases h4 : (w.wrCsrs 4).en with
  | true =>
    obtain ⟨hpast, hcur⟩ := DpTransfers.step_announce (σ := σ) h4
    have hpt : pt = .waiting := by
      by_contra hne
      rw [hc.no_announce hw.unit hne] at h4
      cases h4
    subst hpt
    have hc' := hc.step hw.unit (fun hpass => by cases hpass)
    rw [DpPoint.next, if_pos h4] at hc'
    refine ⟨hhigh, ?_, _, hc', .inr ⟨_, 0, hcur, dpFlow_start hc hw h4⟩⟩
    rw [hpast]
    exact fun p hp => h.sound hp
  | false =>
    obtain ⟨hpast, hcur⟩ := DpTransfers.step_stay (σ := σ) h4
    rcases hp with ⟨rfl, hnone⟩ | ⟨p, k, hp, hflow⟩
    · have hc' := hc.step hw.unit (fun hpass => by cases hpass)
      refine ⟨hhigh, ?_, _, hc', .inl ⟨by rw [DpPoint.next, h4]; rfl, by rw [hcur, hnone]; rfl⟩⟩
      rw [hpast]
      exact h.past
    · refine ⟨hhigh, ?_, _, hflow.current.control_step hc hw.unit,
        .inr ⟨_, _, by rw [hcur, hp]; rfl, hflow.step hc hp hw h.high h4⟩⟩
      rw [hpast]
      exact h.past

theorem bitResultHigh_foldl (ws : List DpWires) : ∀ s : DpScanAfu, ws ≠ [] → (∀ w ∈ ws, DpResetCycle w) →
    (ws.foldl DpScanAfu.step s).bitResultHigh = 0 := by
  induction ws with
  | nil => exact fun _ hne => absurd rfl hne
  | cons w ws ih =>
    intro s _ hws
    rw [List.forall_mem_cons] at hws
    cases ws with
    | nil => exact step_bitResultHigh (.inr hws.1.reset)
    | cons v ws => exact ih _ (List.cons_ne_nil v ws) hws.2

theorem dpDataInv_of_reachable (h : Reachable dpTransfers σ) : DpDataInv σ := by
  refine h.invariant (P := DpDataInv) ?_ fun σ w _ hσ hw => hσ.step hw
  intro σ h0
  obtain ⟨s, ws, _, hne, hws, hafu⟩ := h0.unit.afu
  refine ⟨?_, ?_, .waiting, h0.unit.control, .inl ⟨rfl, h0.cur⟩⟩
  · rw [hafu]
    exact bitResultHigh_foldl ws s hne hws
  · rw [h0.past]
    rintro p ⟨⟩

/-- Every record of every run is sound. -/
theorem sound_of_reachable (h : Reachable dpTransfers σ) {p : DpTransfer} (hp : p ∈ σ.runs) : p.Sound :=
  (dpDataInv_of_reachable h).sound hp

end Runs

end SdbFpga.Fpga
