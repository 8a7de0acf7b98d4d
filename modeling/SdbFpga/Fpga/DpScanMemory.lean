import SdbFpga.Fpga.DpScanData
import SdbFpga.Fpga.HostMemory

/-!
# The data-parallel `scan_afu` and the host memory

* `dpDevice`, `dpDevice_lawful` : the unit as a device in front of a memory;
* `DpApart` : the buffers of a partition are its own;
* `filtered_in_memory` : a processed partition whose writes are performed has its lines filtered in memory.
-/

namespace SdbFpga.Fpga
open Transition Bits PostedWrites

/-- Line `i` of the page of a partition. -/
def DpTransfer.pageLine (p : DpTransfer) (i : Nat) : ClAddr := p.run.base + BitVec.ofNat 42 i

/-- Line `i` of its result buffer. -/
def DpTransfer.resultLine (p : DpTransfer) (i : Nat) : ClAddr := p.result + BitVec.ofNat 42 i

/-- A line of a page or, once the partition has received a line, of its result buffer. -/
def DpTransfer.Uses (p : DpTransfer) (a : ClAddr) : Prop :=
  (∃ i < p.run.cls, p.pageLine i = a) ∨ p.lines ≠ [] ∧ ∃ i < p.run.cls, p.resultLine i = a

instance decidableDpUses (p : DpTransfer) (a : ClAddr) : Decidable (p.Uses a) :=
  inferInstanceAs (Decidable
    ((∃ i < p.run.cls, p.pageLine i = a) ∨ p.lines ≠ [] ∧ ∃ i < p.run.cls, p.resultLine i = a))

/-- The unit as a device: a response carries the line at the oldest requested address. -/
def dpDevice : Device DpTransfers DpWires ClAddr ClData where
  toSystem := dpTransfers
  posts := fun σ w => if (σ.sys.afu.step w).c1Valid then
    some (WriteReq.store ⟨(σ.sys.afu.step w).c1Hdr, (σ.sys.afu.step w).c1Data⟩) else none
  answers := fun σ w m =>
    w.readRsp.isSome = true → ∀ p ∈ σ.cur, w.readRsp = p.run.reads[p.lines.length]?.map m.mem
  Posted := fun σ e => ∃ p ∈ σ.runs, ∃ r ∈ p.writes, r.store = e
  Fetched := fun σ a cl => ∃ p ∈ σ.runs, ∃ i, p.lines[i]? = some cl ∧ p.pageLine i = a
  Uses := fun σ a => ∃ p ∈ σ.runs, p.Uses a

instance decidableDpPermits (σ : DpTransfers) (w : DpWires) : Decidable (dpDevice.permits σ w) :=
  inferInstanceAs (Decidable (dpTransfers.permits σ w))

instance decidableDpAnswers (σ : DpTransfers) (w : DpWires) (m : Memory ClAddr ClData) :
    Decidable (dpDevice.answers σ w m) :=
  inferInstanceAs (Decidable
    (w.readRsp.isSome = true → ∀ p ∈ σ.cur, w.readRsp = p.run.reads[p.lines.length]?.map m.mem))

instance decidableDpDeviceUses (σ : DpTransfers) (a : ClAddr) : Decidable (dpDevice.Uses σ a) :=
  inferInstanceAs (Decidable (∃ p ∈ σ.runs, p.Uses a))

/-! ## The records of a run -/

section Records
variable {σ : DpTransfers} {w : DpWires} {p : DpTransfer} {r : WriteReq}

/-- Every write is the filter of one of the lines received. -/
theorem DpTransfer.Sound.mem_writes (h : p.Sound) (hr : r ∈ p.writes) :
    p.lines ≠ [] ∧ ∃ i < p.run.cls, r = p.resultWrite i := by
  obtain ⟨k, hk, ⟨is, hsub, _, hw⟩, _⟩ := h.writes
  have hlines := h.lines
  rw [hw] at hr
  obtain ⟨i, hmem, rfl⟩ := List.mem_map.mp hr
  have hlt := List.mem_range.mp (hsub.subset hmem)
  exact ⟨List.ne_nil_of_length_pos (by omega), i, by omega, rfl⟩

/-- A processed partition whose lines were all taken has written every one of them. -/
theorem DpTransfer.Sound.all_writes (h : p.Sound) (hd : p.run.processed = true) (hs : p.swallowed = false) :
    p.lines.length = p.run.cls ∧ ∀ i < p.run.cls, p.resultWrite i ∈ p.writes := by
  obtain ⟨k, hk, ⟨is, _, hsw, hw⟩, hlast⟩ := h.writes
  have hkcls := hlast hd
  have hlines := h.lines
  refine ⟨by omega, ?_⟩
  intro i hi
  rw [hw, hsw.mp hs]
  exact List.mem_map_of_mem (List.mem_range.mpr (by omega))

/-- The records after a cycle: the current one observed, the one just opened, or an old one. -/
theorem DpTransfers.mem_runs_step {q : DpTransfer} (hq : q ∈ (σ.step w).runs) :
    (∃ p, σ.cur = some p ∧ q = p.observe σ.sys.afu w (σ.sys.afu.step w)) ∨ ((w.wrCsrs 4).en = true ∧
      q = (DpTransfer.start σ.sys.afu (w.wrCsrs 4).data).observe σ.sys.afu w (σ.sys.afu.step w)) ∨ q ∈ σ.runs := by
  unfold DpTransfers.runs at hq
  rw [List.mem_append, Option.mem_toList] at hq
  cases h4 : (w.wrCsrs 4).en with
  | false =>
    obtain ⟨hpast, hcur⟩ := DpTransfers.step_stay (σ := σ) h4
    rw [hpast, hcur] at hq
    rcases hq with hq | hq
    · exact .inr (.inr (List.mem_append_left _ hq))
    · obtain ⟨p, hc, rfl⟩ := Option.map_eq_some_iff.mp hq
      exact .inl ⟨p, hc, rfl⟩
  | true =>
    obtain ⟨hpast, hcur⟩ := DpTransfers.step_announce (σ := σ) h4
    rw [hpast, hcur] at hq
    rcases hq with hq | hq
    · exact .inr (.inr hq)
    · exact .inr (.inl ⟨rfl, (Option.some.inj hq).symm⟩)

theorem DpTransfer.mem_writes_observe : r ∈ (p.observe σ.sys.afu w (σ.sys.afu.step w)).writes ↔ r ∈ p.writes ∨
    (σ.sys.afu.step w).c1Valid = true ∧ r = ⟨(σ.sys.afu.step w).c1Hdr, (σ.sys.afu.step w).c1Data⟩ := by
  unfold DpTransfer.observe
  cases (σ.sys.afu.step w).c1Valid <;> simp

/-- A write stays in the record of its partition. -/
theorem DpTransfers.writes_kept (hp : p ∈ σ.runs) (hr : r ∈ p.writes) : ∃ q ∈ (σ.step w).runs, r ∈ q.writes := by
  unfold DpTransfers.runs
  cases h4 : (w.wrCsrs 4).en with
  | true =>
    rw [(DpTransfers.step_announce (σ := σ) h4).1]
    exact ⟨p, List.mem_append_left _ hp, hr⟩
  | false =>
    obtain ⟨hpast, hcur⟩ := DpTransfers.step_stay (σ := σ) h4
    rw [hpast, hcur]
    rcases List.mem_append.mp hp with hp | hp
    · exact ⟨p, List.mem_append_left _ hp, hr⟩
    · rw [Option.mem_toList] at hp
      exact ⟨_, List.mem_append_right _ (Option.mem_toList.mpr (Option.mem_map_of_mem _ hp)),
        DpTransfer.mem_writes_observe.mpr (.inl hr)⟩

/-- A write request belongs to the partition being processed. -/
theorem DpDataInv.posted_mem (hi : DpDataInv σ) (hw : DpDataProtocol σ w) (h1 : (σ.sys.afu.step w).c1Valid = true) :
    ∃ q ∈ (σ.step w).runs, ⟨(σ.sys.afu.step w).c1Hdr, (σ.sys.afu.step w).c1Data⟩ ∈ q.writes := by
  obtain ⟨pt, hc, hp⟩ := hi.at_point
  rw [c1Valid_step hc hw.unit, Bool.and_eq_true] at h1
  obtain ⟨j, _, rfl⟩ := DpPoint.exists_of_passes h1.1
  have h4 := hc.no_announce hw.unit (by simp)
  rcases hp with ⟨hpt, _⟩ | ⟨p, k, hp, _⟩
  · cases hpt
  · have hvalid : (σ.sys.afu.step w).c1Valid = true := by
      rw [c1Valid_step hc hw.unit, h1.1, h1.2]
      rfl
    refine ⟨p.observe σ.sys.afu w (σ.sys.afu.step w), List.mem_append_right _ ?_,
      DpTransfer.mem_writes_observe.mpr (.inr ⟨hvalid, rfl⟩)⟩
    rw [Option.mem_toList, (DpTransfers.step_stay (σ := σ) h4).2, hp]
    rfl

/-- Nothing arrives in the cycle of an announcement. -/
theorem DpDataInv.no_response (hi : DpDataInv σ) (hw : DpDataProtocol σ w) (h4 : (w.wrCsrs 4).en = true) :
    w.readRsp = none := by
  obtain ⟨pt, hc, _⟩ := hi.at_point
  refine hc.no_response hw.unit ?_
  rintro rfl
  rw [hc.no_announce hw.unit (by decide)] at h4
  cases h4

/-- After a cycle, a received line is an old one or the one that arrives, for the oldest open request. -/
theorem DpDataInv.lines_step (hi : DpDataInv σ) (hw : DpDataProtocol σ w) {q : DpTransfer}
    (hq : q ∈ (σ.step w).runs) {i : Nat} {cl : ClData} (hl : q.lines[i]? = some cl) :
    (∃ p ∈ σ.runs, p.run.base = q.run.base ∧ p.lines[i]? = some cl) ∨
      cl ∈ w.readRsp ∧ ∃ p ∈ σ.cur, p.run.base = q.run.base ∧ i = p.lines.length := by
  rcases DpTransfers.mem_runs_step hq with ⟨p, hc, rfl⟩ | ⟨h4, rfl⟩ | hold
  · have hl' : (p.lines ++ w.readRsp.toList)[i]? = some cl := hl
    rcases Nat.lt_or_ge i p.lines.length with hlt | hge
    · rw [List.getElem?_append_left hlt] at hl'
      exact .inl ⟨p, List.mem_append_right _ (Option.mem_toList.mpr hc), rfl, hl'⟩
    · rw [List.getElem?_append_right hge] at hl'
      have hlt := (List.getElem?_eq_some_iff.mp hl').1
      have hle : w.readRsp.toList.length ≤ 1 := by cases w.readRsp <;> simp
      exact .inr ⟨Option.mem_toList.mp (List.mem_of_getElem? hl'), p, hc, rfl, by omega⟩
  · simp [DpTransfer.observe, DpTransfer.start, hi.no_response hw h4] at hl
  · exact .inl ⟨q, hold, rfl, hl⟩

/-- The oldest open request asks for the next line of the page. -/
theorem DpDataInv.reads_next (hi : DpDataInv σ) (hp : σ.cur = some p) {a : ClAddr}
    (ha : p.run.reads[p.lines.length]? = some a) : a = p.pageLine p.lines.length := by
  obtain ⟨pt, _, ⟨_, hnone⟩ | ⟨q, k, hq, hflow⟩⟩ := hi.at_point
  · rw [hnone] at hp
    cases hp
  · obtain rfl := Option.some.inj (hq.symm.trans hp)
    have hle := hflow.current.asked_le_cls hflow.small
    have hsmall := hflow.small
    rw [hflow.current.reads, wrapAddrs_eq _ (by omega), List.getElem?_map] at ha
    obtain ⟨j, hj, rfl⟩ := Option.map_eq_some_iff.mp ha
    obtain ⟨_, rfl⟩ := List.getElem?_eq_some_iff.mp hj
    rw [List.getElem_range]
    rfl

theorem DpDataBooted.runs (h : DpDataBooted σ) : σ.runs = [] := by
  unfold DpTransfers.runs
  rw [h.past, h.cur]
  rfl

end Records

/-- The records of the unit keep up with its steps. -/
theorem dpDevice_lawful : dpDevice.Lawful where
  posted_init := by
    rintro σ hb e ⟨p, hp, _⟩
    rw [DpDataBooted.runs hb] at hp
    cases hp
  posted_step := by
    intro σ w hr hp e
    constructor
    · rintro ⟨q, hmem, r, hqr, rfl⟩
      have hnew : ∀ p : DpTransfer, r ∈ (p.observe σ.sys.afu w (σ.sys.afu.step w)).writes → r ∉ p.writes →
          dpDevice.posts σ w = some r.store := by
        intro p hp hold
        obtain ⟨h1, rfl⟩ := (DpTransfer.mem_writes_observe.mp hp).resolve_left hold
        exact if_pos h1
      rcases DpTransfers.mem_runs_step hmem with ⟨p, hc, rfl⟩ | ⟨_, rfl⟩ | hold
      · by_cases hpr : r ∈ p.writes
        · exact .inl ⟨p, List.mem_append_right _ (Option.mem_toList.mpr hc), r, hpr, rfl⟩
        · exact .inr (hnew p hqr hpr)
      · exact .inr (hnew _ hqr (by rintro ⟨⟩))
      · exact .inl ⟨q, hold, r, hqr, rfl⟩
    · rintro (⟨p, hmem, r, hpr, rfl⟩ | hpost)
      · obtain ⟨q, hq, hqr⟩ := DpTransfers.writes_kept (w := w) hmem hpr
        exact ⟨q, hq, r, hqr, rfl⟩
      · simp only [dpDevice, Option.ite_none_right_eq_some, Option.some.injEq] at hpost
        obtain ⟨h1, rfl⟩ := hpost
        obtain ⟨q, hq, hqr⟩ := (dpDataInv_of_reachable hr).posted_mem hp h1
        exact ⟨q, hq, _, hqr, rfl⟩
  posted_uses := by
    rintro σ hr e ⟨p, hmem, r, hpr, rfl⟩
    obtain ⟨hl, i, hi, rfl⟩ := (sound_of_reachable hr hmem).mem_writes hpr
    exact ⟨p, hmem, .inr ⟨hl, i, hi, rfl⟩⟩
  fetched_init := by
    rintro σ hb a v ⟨p, hp, _⟩
    rw [DpDataBooted.runs hb] at hp
    cases hp
  fetched_step := by
    rintro σ w m hr hp hrsp a cl ⟨q, hq, i, hl, rfl⟩
    have hi := dpDataInv_of_reachable hr
    have hline : ∀ p : DpTransfer, p.run.base = q.run.base → p.pageLine i = q.pageLine i := by
      intro p hbase
      unfold DpTransfer.pageLine
      rw [hbase]
    rcases hi.lines_step hp hq hl with ⟨p, hmem, hbase, hpl⟩ | ⟨hcl, p, hc, hbase, rfl⟩
    · exact .inl ⟨p, hmem, i, hpl, hline p hbase⟩
    · have hread := hrsp (Option.isSome_iff_exists.mpr ⟨cl, hcl⟩) p hc
      obtain ⟨a, ha, hval⟩ := Option.map_eq_some_iff.mp (hread.symm.trans hcl)
      rw [hi.reads_next hc ha, hline p hbase] at hval
      exact .inr hval
  fetched_uses := by
    rintro σ hr a v ⟨p, hmem, i, hl, rfl⟩
    have hlt := (List.getElem?_eq_some_iff.mp hl).1.trans_le (sound_of_reachable hr hmem).lines
    exact ⟨p, hmem, .inl ⟨i, hlt, rfl⟩⟩

/-! ## Results in memory -/

/-- The unit and the memory. -/
abbrev DpMemSys := Attached DpTransfers ClAddr ClData

/-- The result buffer of partition `n` is its own, and no result buffer covers its page. -/
def DpApart (σ : DpTransfers) (n : Nat) (p : DpTransfer) : Prop :=
  ∀ m q, σ.runs[m]? = some q → q.lines ≠ [] → ∀ j < q.run.cls, ∀ i < p.run.cls,
    (m ≠ n → q.resultLine j ≠ p.resultLine i) ∧ q.resultLine j ≠ p.pageLine i

/-- Partition `n` is processed and delivered: no line was refused and none is on its way to its result buffer, which is
its own. -/
structure DpDelivers (σ : DpMemSys) (n : Nat) (p : DpTransfer) : Prop where
  at_n : σ.dev.runs[n]? = some p
  processed : p.run.processed = true
  taken : p.swallowed = false
  apart : DpApart σ.dev n p
  done : ∀ i < p.run.cls, ∀ e ∈ σ.host.pending, e.1 ≠ p.resultLine i

section Results
variable {σ : DpTransfers} {n i : Nat} {p : DpTransfer} {e : ClAddr × ClData}

/-- A write to a result line of the partition is the partition's. -/
theorem DpApart.own (ha : DpApart σ n p) (hr : Reachable dpTransfers σ) (hp : σ.runs[n]? = some p)
    (hlt : i < p.run.cls) (he : dpDevice.Posted σ e) (hat : e.1 = p.resultLine i) :
    e = (p.resultWrite i).store := by
  obtain ⟨q, hq, r, hqr, rfl⟩ := he
  have hs := sound_of_reachable hr hq
  obtain ⟨hl, j, hj, rfl⟩ := hs.mem_writes hqr
  obtain ⟨m, hm⟩ := List.mem_iff_getElem?.mp hq
  have hmn : m = n := by
    by_contra hne
    exact (ha m q hm hl j hj i hlt).1 hne hat
  subst hmn
  have hqp : q = p := Option.some.inj (hm.symm.trans hp)
  subst hqp
  have hsmall := hs.small
  have hji : j = i := lineOffset_inj q.result (by omega) (by omega) hat
  rw [hji]

/-- No write goes to the page of the partition. -/
theorem DpApart.page (ha : DpApart σ n p) (hr : Reachable dpTransfers σ) (hlt : i < p.run.cls)
    (he : dpDevice.Posted σ e) : e.1 ≠ p.pageLine i := by
  obtain ⟨q, hq, r, hqr, rfl⟩ := he
  obtain ⟨hl, j, hj, rfl⟩ := (sound_of_reachable hr hq).mem_writes hqr
  obtain ⟨m, hm⟩ := List.mem_iff_getElem?.mp hq
  exact (ha m q hm hl j hj i hlt).2

end Results

/-- A line of its result buffer. -/
theorem DpDelivers.line {σ : DpMemSys} {n : Nat} {p : DpTransfer} (hdel : DpDelivers σ n p)
    (h : Reachable dpDevice.withMemory σ) {i : Nat} (hlt : i < p.run.cls) :
    σ.host.mem (p.resultLine i) = filteredLine p.predicate (σ.host.mem (p.pageLine i)) := by
  have hr := reachable_dev h
  have hmem := List.mem_of_getElem? hdel.at_n
  obtain ⟨hlen, hall⟩ := (sound_of_reachable hr hmem).all_writes hdel.processed hdel.taken
  have hil : i < p.lines.length := by omega
  have hpage : σ.host.mem (p.pageLine i) = p.lines[i] :=
    mem_of_fetched dpDevice_lawful h ⟨p, hmem, i, List.getElem?_eq_getElem hil, rfl⟩
      fun e he => hdel.apart.page hr hlt he
  have hres : σ.host.mem (p.resultLine i) = filteredLine p.predicate (p.lines.getD i 0) :=
    mem_of_posted (e := (p.resultWrite i).store) dpDevice_lawful h ⟨p, hmem, _, hall i hlt, rfl⟩ (hdel.done i hlt)
      fun e he hat => hdel.apart.own hr hdel.at_n hlt he hat
  rw [hres, hpage, List.getD_eq_getElem _ _ hil]

/-- Whatever the latencies, the back-pressure and the order in which writes are performed: once a partition of up to 64
lines is processed and delivered, bit `l` of line `i` of its result buffer says whether code `l` of line `i` of its page
is at least the predicate, though eight units have filtered it one after the other. The unit writes nowhere but to
result buffers. -/
theorem filtered_in_memory {σ : DpMemSys} (h : Reachable dpDevice.withMemory σ) {n : Nat} {p : DpTransfer}
    (hdel : DpDelivers σ n p) :
    (∀ i < p.run.cls, ∀ l < 512, (σ.host.mem (p.resultLine i)).getLsbD l =
      (decide (l < 128) && decide (p.predicate.toNat ≤ (lane 4 l (σ.host.mem (p.pageLine i))).toNat))) ∧
    ∀ e, σ.host.Issued e → ∃ q ∈ σ.dev.runs, ∃ j < q.run.cls, e.1 = q.resultLine j := by
  constructor
  · intro i hi l _
    rw [hdel.line h hi, getLsbD_filteredLine]
  · intro e he
    obtain ⟨q, hq, r, hqr, rfl⟩ := ((Device.inv_of_reachable dpDevice_lawful h).issued e).mp he
    obtain ⟨_, j, hj, rfl⟩ := (sound_of_reachable (reachable_dev h) hq).mem_writes hqr
    exact ⟨q, hq, j, hj, rfl⟩

/-- One line of codes against the predicate 7; `CSR[5]` is written after `CSR[4]`, the write is delivered at the end. -/
def filteredScript (cl : ClData) : List (AttachedLabel DpWires ClAddr ClData) :=
  ([DpWires.csr 0 1, .csr 1 7, .csr 4 0x40, .csr 5 0x1000, .quiet, .quiet, .quiet, .respond cl, .quiet] ++
    List.replicate 12 DpWires.quiet).map .step ++ [.write 7 0x123, .perform 0]

/-- Where the script ends. -/
def filtered : DpMemSys :=
  dpDevice.withMemory.run ⟨⟨DpSys.boot, [], none⟩, .new fun _ => 0x9753⟩ (filteredScript 0x9753)

/-- Of the codes 3, 5, 7 and 9 the last two are selected. -/
theorem filtered_in_memory_one_line : ∃ p, DpDelivers filtered 0 p ∧ p.run.cls = 1 ∧
    (filtered.host.mem (p.resultLine 0)).extractLsb' 0 4 = 0b1100#4 ∧ ∀ i < p.run.cls, ∀ l < 512,
      (filtered.host.mem (p.resultLine i)).getLsbD l =
        (decide (l < 128) && decide (p.predicate.toNat ≤ (lane 4 l (filtered.host.mem (p.pageLine i))).toNat)) := by
  have hr : Reachable dpDevice.withMemory filtered :=
    Reachable.run (.init ⟨⟨dpBooted_boot, rfl, rfl⟩, _, rfl⟩) (by decide +kernel)
  have hfacts : filtered.host.pending = [] ∧ filtered.dev.runs.map
      (fun p => ((p.run.cls, p.run.base), p.run.processed, p.swallowed, p.result)) = [((1, 1), true, false, 64)] := by
    decide +kernel
  have hline : (filtered.host.mem 64).extractLsb' 0 4 = 0b1100#4 := by decide +kernel
  obtain ⟨hpend, hruns⟩ := hfacts
  obtain ⟨p, hp, heq⟩ := List.map_eq_singleton_iff.mp hruns
  simp only [Prod.mk.injEq] at heq
  obtain ⟨⟨hcls, hbase⟩, hd, hs, hres⟩ := heq
  have hdel : DpDelivers filtered 0 p := by
    refine ⟨by rw [hp]; rfl, hd, hs, ?_, ?_⟩
    · intro m q hm _ j hj i hi
      rw [hp, List.getElem?_singleton] at hm
      split at hm
      · next hm0 =>
        cases hm
        refine ⟨fun hne => absurd hm0 hne, ?_⟩
        have hj0 : j = 0 := by omega
        have hi0 : i = 0 := by omega
        rw [DpTransfer.resultLine, DpTransfer.pageLine, hbase, hres, hj0, hi0]
        decide
      · cases hm
    · rw [hpend]
      rintro i _ e ⟨⟩
  refine ⟨p, hdel, hcls, ?_, (filtered_in_memory hr hdel).1⟩
  rw [DpTransfer.resultLine, hres]
  exact hline

end SdbFpga.Fpga
