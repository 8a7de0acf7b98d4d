import SdbFpga.Fpga.ScanWrites
import SdbFpga.Lib.PostedWrites

/-!
# `scan_afu` and the host memory

The unit beside the memory it reads pages from and writes result lines to. A write request is posted in the cycle that
issues it and performed at any later time, in any order; the host writes lines that belong to no announced partition.

* `scanDevice`, `scanDevice_lawful` : the unit as a device in front of such a memory;
* `Apart` : the buffers of a partition are its own;
* `scanned_in_memory` : a processed partition whose writes are performed has its result lines in memory.
-/

namespace SdbFpga.Fpga
open Transition PostedWrites

/-- Line `i` of the page of a partition. -/
def PartitionRun.pageLine (p : PartitionRun) (i : Nat) : ClAddr := p.base + BitVec.ofNat 42 i

/-- Line `i` of its result buffer. -/
def PartitionRun.resultLine (p : PartitionRun) (i : Nat) : ClAddr := p.result + BitVec.ofNat 42 i

/-- A write request as the memory sees it. -/
def WriteReq.store (r : WriteReq) : ClAddr × ClData := (r.hdr.address, r.data)

/-- A line of a page or, once the partition has received a line, of its result buffer. -/
def PartitionRun.Uses (p : PartitionRun) (a : ClAddr) : Prop :=
  (∃ i < p.cls, p.pageLine i = a) ∨ p.lines ≠ [] ∧ ∃ i < p.cls, p.resultLine i = a

instance (p : PartitionRun) (a : ClAddr) : Decidable (p.Uses a) :=
  inferInstanceAs (Decidable ((∃ i < p.cls, p.pageLine i = a) ∨ p.lines ≠ [] ∧ ∃ i < p.cls, p.resultLine i = a))

/-- The unit as a device: a response carries the line at the oldest requested address, and a write is acknowledged
after it is performed. -/
def scanDevice : Device Sys Wires ClAddr ClData where
  toSystem := scanSystem.when ResultFirst
  posts := fun σ w =>
    if (σ.afu.step w).c1Valid then some (WriteReq.store ⟨(σ.afu.step w).c1Hdr, (σ.afu.step w).c1Data⟩) else none
  answers := fun σ w m =>
    (w.readRsp.isSome = true → ∀ p ∈ σ.cur, w.readRsp = p.reads[p.lines.length]?.map m.mem) ∧
      (w.writeRsp = true → m.pending.length < σ.unacked)
  Posted := fun σ e => ∃ p ∈ σ.runs, ∃ r ∈ p.writes, r.store = e
  Fetched := fun σ a cl => ∃ p ∈ σ.runs, ∃ i, p.lines[i]? = some cl ∧ p.pageLine i = a
  Uses := fun σ a => ∃ p ∈ σ.runs, p.Uses a

instance (σ : Sys) (w : Wires) : Decidable (scanDevice.permits σ w) :=
  inferInstanceAs (Decidable ((scanSystem.when ResultFirst).permits σ w))

instance (σ : Sys) (w : Wires) (m : Memory ClAddr ClData) : Decidable (scanDevice.answers σ w m) :=
  inferInstanceAs (Decidable
    ((w.readRsp.isSome = true → ∀ p ∈ σ.cur, w.readRsp = p.reads[p.lines.length]?.map m.mem) ∧
      (w.writeRsp = true → m.pending.length < σ.unacked)))

instance (σ : Sys) (a : ClAddr) : Decidable (scanDevice.Uses σ a) :=
  inferInstanceAs (Decidable (∃ p ∈ σ.runs, p.Uses a))

/-! ## The writes of a run -/

section Writes
variable {σ : Sys} {w : Wires} {p : PartitionRun} {r : WriteReq}

/-- Every write is the result line of one of the lines received. -/
theorem mem_writes (h : Reachable (scanSystem.when ResultFirst) σ) (hp : p ∈ σ.runs) (hr : r ∈ p.writes) :
    p.lines ≠ [] ∧ ∃ i < p.cls, r = p.resultWrite i := by
  have hi := inv_of_reachable h.of_when
  refine ⟨hi.lines_of_writes hp hr, ?_⟩
  have key : ∀ {r' l k : Nat}, k ≤ p.cls → Progress p r' l k → ∃ i < p.cls, r = p.resultWrite i := by
    intro r' l k hk hpr
    obtain ⟨is, hsub, _, hw⟩ := (addressed_of_reachable h).writes_eq hp hk hpr
    rw [hw] at hr
    obtain ⟨i, hmem, rfl⟩ := List.mem_map.mp hr
    have := List.mem_range.mp (hsub.subset hmem)
    exact ⟨i, by omega, rfl⟩
  rcases hi.progress hp with hcomp | ⟨_, r', l, k, hk, hl, hr', hpr⟩
  · exact key le_rfl hcomp.progress
  · exact key (by omega) hpr

/-- A processed partition whose lines were all taken has written every one of them. -/
theorem resultWrite_mem (h : Reachable (scanSystem.when ResultFirst) σ) (hp : p ∈ σ.runs)
    (hd : p.processed = true) (hs : p.swallowed = false) {i : Nat} (hi : i < p.cls) : p.resultWrite i ∈ p.writes := by
  rcases (inv_of_reachable h.of_when).progress hp with hcomp | ⟨ho, _⟩
  · obtain ⟨is, _, hsw, hw⟩ := (addressed_of_reachable h).writes_eq hp le_rfl hcomp.progress
    rw [hw, hsw.mp hs]
    exact List.mem_map_of_mem (List.mem_range.mpr hi)
  · rw [ho] at hd
    cases hd

/-- After a cycle, the writes are the ones before it and the one it issues. -/
theorem mem_writes_step : (∃ p ∈ (σ.step w).runs, r ∈ p.writes) →
    (∃ p ∈ σ.runs, r ∈ p.writes) ∨
      (σ.afu.step w).c1Valid = true ∧ r = ⟨(σ.afu.step w).c1Hdr, (σ.afu.step w).c1Data⟩ := by
  rintro ⟨q, hq, hr⟩
  have hobs : ∀ p : PartitionRun, r ∈ (p.observe σ.afu w (σ.afu.step w)).writes → r ∈ p.writes ∨
      (σ.afu.step w).c1Valid = true ∧ r = ⟨(σ.afu.step w).c1Hdr, (σ.afu.step w).c1Data⟩ := by
    intro p hr
    cases h1 : (σ.afu.step w).c1Valid
    · rw [observe_writes_quiet h1] at hr
      exact .inl hr
    · simp only [PartitionRun.observe, h1, if_true, List.mem_append, List.mem_singleton] at hr
      exact hr.imp_right fun he => ⟨rfl, he⟩
  rcases mem_runs_step hq with ⟨p, hc, rfl⟩ | ⟨_, rfl⟩ | hold
  · exact (hobs p hr).imp_left fun hr => ⟨p, List.mem_append_right _ (Option.mem_toList.mpr hc), hr⟩
  · rcases hobs _ hr with hnil | hnew
    · cases hnil
    · exact .inr hnew
  · exact .inl ⟨q, hold, hr⟩

/-- A write stays in the record of its partition. -/
theorem writes_kept (hp : p ∈ σ.runs) (hr : r ∈ p.writes) : ∃ q ∈ (σ.step w).runs, r ∈ q.writes := by
  unfold Sys.runs Sys.step
  cases (w.wrCsrs 4).en
  · rcases List.mem_append.mp hp with hp | hp
    · exact ⟨p, List.mem_append_left _ hp, hr⟩
    · refine ⟨p.observe σ.afu w (σ.afu.step w), List.mem_append_right _ ?_, ?_⟩
      · rw [Option.mem_toList] at hp ⊢
        exact Option.mem_map_of_mem _ hp
      · simp only [PartitionRun.observe]
        split
        · exact List.mem_append_left _ hr
        · exact hr
  · exact ⟨p, List.mem_append_left _ hp, hr⟩

/-- A write request belongs to the partition being processed. -/
theorem posted_mem (hi : Inv (σ.step w)) (h1 : (σ.afu.step w).c1Valid = true) :
    ∃ q ∈ (σ.step w).runs, ⟨(σ.afu.step w).c1Hdr, (σ.afu.step w).c1Data⟩ ∈ q.writes := by
  obtain ⟨q, hq⟩ := Option.isSome_iff_exists.mp (hi.phase.of_c1Valid h1)
  refine ⟨q, List.mem_append_right _ (Option.mem_toList.mpr hq), ?_⟩
  obtain ⟨p, _, rfl⟩ := cur_step hq
  simp [PartitionRun.observe, h1]

/-- After a cycle, a received line is an old one or the one that arrives, which answers the oldest open request. -/
theorem lines_step (hi : Inv σ) (hw : Protocol σ w) {q : PartitionRun} (hq : q ∈ (σ.step w).runs) {i : Nat}
    {cl : ClData} (hl : q.lines[i]? = some cl) : (∃ p ∈ σ.runs, p.base = q.base ∧ p.lines[i]? = some cl) ∨
      cl ∈ w.readRsp ∧ ∃ p ∈ σ.cur, p.base = q.base ∧ i = p.lines.length := by
  rcases mem_runs_step hq with ⟨p, hc, rfl⟩ | ⟨h4, rfl⟩ | hold
  · have hl' : (p.lines ++ w.readRsp.toList)[i]? = some cl := hl
    rcases Nat.lt_or_ge i p.lines.length with hlt | hge
    · rw [List.getElem?_append_left hlt] at hl'
      exact .inl ⟨p, List.mem_append_right _ (Option.mem_toList.mpr hc), rfl, hl'⟩
    · rw [List.getElem?_append_right hge] at hl'
      have hmem := List.mem_of_getElem? hl'
      have hpos : i - p.lines.length = 0 := by
        have hlt := (List.getElem?_eq_some_iff.mp hl').1
        have hle : w.readRsp.toList.length ≤ 1 := by cases w.readRsp <;> simp
        omega
      exact .inr ⟨Option.mem_toList.mp hmem, p, hc, rfl, by omega⟩
  · rw [observe_lines_quiet (hi.no_response_waiting hw h4)] at hl
    cases hl
  · exact .inl ⟨q, hold, rfl, hl⟩

/-- The oldest open request asks for the next line of the page. -/
theorem reads_next (hi : Inv σ) (hp : p ∈ σ.runs) {a : ClAddr} (ha : p.reads[p.lines.length]? = some a) :
    a = p.pageLine p.lines.length := by
  have key : ∀ {r' l k : Nat}, Progress p r' l k → a = p.pageLine p.lines.length := by
    intro r' l k hpr
    rw [hpr.reads, PartitionRun.lineAddrs, List.getElem?_map] at ha
    obtain ⟨j, hj, rfl⟩ := Option.map_eq_some_iff.mp ha
    obtain ⟨hlt, rfl⟩ := List.getElem?_eq_some_iff.mp hj
    rw [List.getElem_range]
    rfl
  rcases hi.progress hp with hcomp | ⟨_, r', l, k, _, _, _, hpr⟩
  · exact key hcomp.progress
  · exact key hpr

theorem lines_le (hi : Inv σ) (hp : p ∈ σ.runs) : p.lines.length ≤ p.cls := by
  rcases hi.progress hp with hcomp | ⟨_, r', l, k, _, _, _, hpr⟩
  · rw [hcomp.progress.lines]
  · rw [hpr.lines]
    omega

theorem runs_booted (hb : Booted σ) : σ.runs = [] := by
  unfold Sys.runs
  rw [hb.past, hb.cur]
  rfl

end Writes

/-- The records of the unit keep up with its steps. -/
theorem scanDevice_lawful : scanDevice.Lawful where
  posted_init := by
    rintro σ hb e ⟨p, hp, _⟩
    rw [runs_booted hb] at hp
    cases hp
  posted_step := by
    intro σ w hr hp e
    constructor
    · rintro ⟨p, hmem, r, hpr, rfl⟩
      rcases mem_writes_step ⟨p, hmem, hpr⟩ with ⟨q, hq, hqr⟩ | ⟨h1, rfl⟩
      · exact .inl ⟨q, hq, r, hqr, rfl⟩
      · exact .inr (if_pos h1)
    · rintro (⟨p, hmem, r, hpr, rfl⟩ | hpost)
      · obtain ⟨q, hq, hqr⟩ := writes_kept hmem hpr
        exact ⟨q, hq, r, hqr, rfl⟩
      · simp only [scanDevice, Option.ite_none_right_eq_some, Option.some.injEq] at hpost
        obtain ⟨h1, rfl⟩ := hpost
        obtain ⟨q, hq, hqr⟩ := posted_mem ((inv_of_reachable hr.of_when).step hp.1) h1
        exact ⟨q, hq, _, hqr, rfl⟩
  posted_uses := by
    rintro σ hr e ⟨p, hmem, r, hpr, rfl⟩
    obtain ⟨hl, i, hi, rfl⟩ := mem_writes hr hmem hpr
    exact ⟨p, hmem, .inr ⟨hl, i, hi, rfl⟩⟩
  fetched_init := by
    rintro σ hb a v ⟨p, hp, _⟩
    rw [runs_booted hb] at hp
    cases hp
  fetched_step := by
    rintro σ w m hr hp ⟨hrsp, _⟩ a cl ⟨q, hq, i, hl, rfl⟩
    have hi := inv_of_reachable hr.of_when
    have hline : ∀ p : PartitionRun, p.base = q.base → p.pageLine i = q.pageLine i := by
      intro p hbase
      unfold PartitionRun.pageLine
      rw [hbase]
    rcases lines_step hi hp.1 hq hl with ⟨p, hmem, hbase, hpl⟩ | ⟨hcl, p, hc, hbase, rfl⟩
    · exact .inl ⟨p, hmem, i, hpl, hline p hbase⟩
    · have hread := hrsp (Option.isSome_iff_exists.mpr ⟨cl, hcl⟩) p hc
      obtain ⟨a, ha, hval⟩ := Option.map_eq_some_iff.mp (hread.symm.trans hcl)
      rw [reads_next hi (List.mem_append_right _ (Option.mem_toList.mpr hc)) ha, hline p hbase] at hval
      exact .inr hval
  fetched_uses := by
    rintro σ hr a v ⟨p, hmem, i, hl, rfl⟩
    have hlt := (List.getElem?_eq_some_iff.mp hl).1.trans_le (lines_le (inv_of_reachable hr.of_when) hmem)
    exact ⟨p, hmem, .inl ⟨i, hlt, rfl⟩⟩

/-! ## Results in memory -/

/-- The unit and the memory. -/
abbrev MemSys := Attached Sys ClAddr ClData

/-- The result buffer of partition `n` is its own, and no result buffer covers its page. -/
def Apart (σ : Sys) (n : Nat) (p : PartitionRun) : Prop :=
  ∀ m q, σ.runs[m]? = some q → q.lines ≠ [] → ∀ j < q.cls, ∀ i < p.cls,
    (m ≠ n → q.resultLine j ≠ p.resultLine i) ∧ q.resultLine j ≠ p.pageLine i

/-- Partition `n` is processed and delivered: no line was refused and none is on its way to its result buffer, which is
its own. -/
structure Delivers (σ : MemSys) (n : Nat) (p : PartitionRun) : Prop where
  at_n : σ.dev.runs[n]? = some p
  processed : p.processed = true
  taken : p.swallowed = false
  apart : Apart σ.dev n p
  done : ∀ i < p.cls, ∀ e ∈ σ.host.pending, e.1 ≠ p.resultLine i

/-- A write to a result line of the partition is the partition's. -/
theorem Apart.own {σ : Sys} {n i : Nat} {p : PartitionRun} (ha : Apart σ n p)
    (hr : Reachable (scanSystem.when ResultFirst) σ) (hp : σ.runs[n]? = some p) (hcls : p.cls ≤ 128)
    (hlt : i < p.cls) {e : ClAddr × ClData} (he : scanDevice.Posted σ e) (hat : e.1 = p.resultLine i) :
    e = (p.resultWrite i).store := by
  obtain ⟨q, hq, r, hqr, rfl⟩ := he
  obtain ⟨hl, j, hj, rfl⟩ := mem_writes hr hq hqr
  obtain ⟨m, hm⟩ := List.mem_iff_getElem?.mp hq
  have hmn : m = n := by
    by_contra hne
    exact (ha m q hm hl j hj i hlt).1 hne hat
  subst hmn
  have hqp : q = p := Option.some.inj (hm.symm.trans hp)
  subst hqp
  have hji : j = i := lineOffset_inj q.result (by omega) (by omega) hat
  rw [hji]

/-- No write goes to the page of the partition. -/
theorem Apart.page {σ : Sys} {n i : Nat} {p : PartitionRun} (ha : Apart σ n p)
    (hr : Reachable (scanSystem.when ResultFirst) σ) (hlt : i < p.cls) {e : ClAddr × ClData}
    (he : scanDevice.Posted σ e) : e.1 ≠ p.pageLine i := by
  obtain ⟨q, hq, r, hqr, rfl⟩ := he
  obtain ⟨hl, j, hj, rfl⟩ := mem_writes hr hq hqr
  obtain ⟨m, hm⟩ := List.mem_iff_getElem?.mp hq
  exact (ha m q hm hl j hj i hlt).2

/-- A line of its result buffer. -/
theorem Delivers.line {σ : MemSys} {n : Nat} {p : PartitionRun} (hdel : Delivers σ n p)
    (h : Reachable scanDevice.withMemory σ) {i : Nat} (hlt : i < p.cls) :
    σ.host.mem (p.resultLine i) = scanLine p.column p.pred (σ.host.mem (p.pageLine i)) := by
  have hr := reachable_dev h
  have hmem := List.mem_of_getElem? hdel.at_n
  have hcomp : Progress p p.cls p.cls p.cls := by
    rcases (inv_of_reachable hr.of_when).progress hmem with hcomp | ⟨ho, _⟩
    · exact hcomp.progress
    · exact absurd (hdel.processed.symm.trans ho) (by decide)
  have hcls := hcomp.lt
  have hlen : i < p.lines.length := by
    rw [hcomp.lines]
    exact hlt
  have hpage : σ.host.mem (p.pageLine i) = p.lines[i] :=
    mem_of_fetched scanDevice_lawful h ⟨p, hmem, i, List.getElem?_eq_getElem hlen, rfl⟩
      fun e he => hdel.apart.page hr hlt he
  have hres : σ.host.mem (p.resultLine i) = scanLine p.column p.pred (p.lines.getD i 0) :=
    mem_of_posted (e := (p.resultWrite i).store) scanDevice_lawful h
      ⟨p, hmem, _, resultWrite_mem hr hmem hdel.processed hdel.taken hlt, rfl⟩ (hdel.done i hlt)
      fun e he hat => hdel.apart.own hr hdel.at_n (by omega) hlt he hat
  rw [hres, hpage, List.getD_eq_getElem _ _ hlen]

/-- Whatever the latencies, the back-pressure and the order in which writes are performed: once a partition is
processed and delivered, each line of its result buffer is the scan of the line of its page. The unit writes nowhere
but to result buffers. -/
theorem scanned_in_memory {σ : MemSys} (h : Reachable scanDevice.withMemory σ) {n : Nat} {p : PartitionRun}
    (hdel : Delivers σ n p) :
    (∀ i < p.cls, σ.host.mem (p.resultLine i) = scanLine p.column p.pred (σ.host.mem (p.pageLine i))) ∧
      ∀ e, σ.host.Issued e → ∃ q ∈ σ.dev.runs, ∃ j < q.cls, e.1 = q.resultLine j := by
  refine ⟨fun i hlt => hdel.line h hlt, ?_⟩
  intro e he
  obtain ⟨q, hq, r, hqr, rfl⟩ := ((Device.inv_of_reachable scanDevice_lawful h).issued e).mp he
  obtain ⟨_, j, hj, rfl⟩ := mem_writes (reachable_dev h) hq hqr
  exact ⟨q, hq, j, hj, rfl⟩

/-- The run of a one-line partition: the host writes elsewhere, and the write is delivered after the flag is up. -/
def deliveredScript : List (AttachedLabel Wires ClAddr ClData) :=
  (paramScript 1 3 0 ++ [Wires.csr 5 0x1000] ++ lineScript 0x40 0 .quiet).map .step ++
    [.step .quiet, .write 7 0x123, .perform 0]

/-- The unit after its reset, on a memory of zeros. -/
def zeroMemory : MemSys := ⟨Sys.boot, .new fun _ => 0⟩

/-- Where the script ends. -/
def delivered : MemSys := scanDevice.withMemory.run zeroMemory deliveredScript

/-- A single partition only has to keep off its own page. -/
theorem apart_single {σ : Sys} {p : PartitionRun} (hp : σ.runs = [p])
    (h : ∀ j < p.cls, ∀ i < p.cls, p.resultLine j ≠ p.pageLine i) : Apart σ 0 p := by
  intro m q hm _ j hj i hi
  rw [hp, List.getElem?_singleton] at hm
  split at hm
  · next hm0 =>
    cases hm
    exact ⟨fun hne => absurd hm0 hne, h j hj i hi⟩
  · cases hm

theorem scanned_in_memory_one_line : ∃ p, Delivers delivered 0 p ∧ p.cls = 1 ∧
    ∀ i < p.cls, delivered.host.mem (p.resultLine i) =
      scanLine p.column p.pred (delivered.host.mem (p.pageLine i)) := by
  have hr : Reachable scanDevice.withMemory delivered := Reachable.run (.init ⟨booted_boot, _, rfl⟩) (by decide +kernel)
  have hfacts : delivered.host.pending = [] ∧
      delivered.dev.runs.map (fun p => (p.cls, p.processed, p.swallowed, p.base, p.result)) =
        [(1, true, false, 1, 64)] := by
    decide +kernel
  obtain ⟨hpend, hruns⟩ := hfacts
  obtain ⟨p, hp, heq⟩ := List.map_eq_singleton_iff.mp hruns
  simp only [Prod.mk.injEq] at heq
  obtain ⟨hcls, hd, hs, hbase, hres⟩ := heq
  have hdel : Delivers delivered 0 p := by
    refine ⟨by rw [hp]; rfl, hd, hs, apart_single hp ?_, ?_⟩
    · unfold PartitionRun.resultLine PartitionRun.pageLine
      rw [hcls, hbase, hres]
      decide
    · rw [hpend]
      rintro i _ e ⟨⟩
  exact ⟨p, hdel, hcls, (scanned_in_memory hr hdel).1⟩

end SdbFpga.Fpga
