import SdbFpga.Api.ScanApi
import SdbFpga.Fpga.HostMemory
import SdbFpga.Host.ScanLoopRuns

/-!
# `scanAtATime` against the units and the memory

The whole loop: the host, `csr_mgr`, `scan_afu` and the memory with its posted writes. The buffers of all work units
belong to the scan from its start on; the other lines of the memory may be written at any time.

* `Timely` : the timings under which polls and result addresses are in time;
* `hostDevice`, `hostDevice_lawful` : the loop as a device in front of the memory;
* `Prepared` : the pages are in their buffers and the buffers apart, and they stay so;
* `LoopDone`, `result_line` : once the loop is over, every line of every result buffer is the scan of its page's line.
-/

namespace SdbFpga.Host
open Transition PostedWrites SdbFpga.Fpga SdbFpga.Data SdbFpga.Api

/-! ## The records of a run -/

section Records
variable {σ : Sys} {w : Wires} {p : PartitionRun} {r : WriteReq}

theorem mem_writes_observe_iff : r ∈ (p.observe σ.afu w (σ.afu.step w)).writes ↔ r ∈ p.writes ∨
    (σ.afu.step w).c1Valid = true ∧ r = ⟨(σ.afu.step w).c1Hdr, (σ.afu.step w).c1Data⟩ := by
  unfold PartitionRun.observe
  cases (σ.afu.step w).c1Valid <;> simp

/-- A record keeps its place and its writes. -/
theorem getElem_runs_kept {i : Nat} (hp : σ.runs[i]? = some p) :
    ∃ q, (σ.step w).runs[i]? = some q ∧ ∀ r ∈ p.writes, r ∈ q.writes := by
  have hlt := (List.getElem?_eq_some_iff.mp hp).1
  have hlen : i < (σ.step w).runs.length := by
    rw [length_runs_step]
    omega
  refine ⟨_, List.getElem?_eq_getElem hlen, ?_⟩
  rcases getElem_runs_step (List.getElem?_eq_getElem hlen) with ⟨_, _, p', _, hp', heq⟩ | ⟨_, hend, _⟩ | hold
  · obtain rfl := Option.some.inj (hp'.symm.trans hp)
    rw [heq]
    exact fun r hr => mem_writes_observe_iff.mpr (.inl hr)
  · omega
  · obtain heq := Option.some.inj (hold.symm.trans hp)
    rw [heq]
    exact fun r hr => hr

/-- The writes of a record, with the line each of them is for. -/
theorem mem_writes_post (hi : Inv σ) (hp : p ∈ σ.runs) (hr : r ∈ p.writes) : ∃ i < p.cls,
    p.cls < 128 ∧ r.hdr.mdata = BitVec.ofNat 16 i ∧ r.data = scanLine p.column p.pred (p.lines.getD i 0) := by
  have key : ∀ {a l k : Nat}, k ≤ p.cls → Progress p a l k → ∃ i < p.cls,
      p.cls < 128 ∧ r.hdr.mdata = BitVec.ofNat 16 i ∧ r.data = scanLine p.column p.pred (p.lines.getD i 0) := by
    intro a l k hk hpr
    obtain ⟨is, hsub, _, hposts⟩ := hpr.posts
    have hmem : r.tagged ∈ is.map p.post := by
      rw [← hposts]
      exact List.mem_map_of_mem hr
    obtain ⟨i, hi, htag⟩ := List.mem_map.mp hmem
    have hlt := List.mem_range.mp (hsub.subset hi)
    obtain ⟨hmdata, hdata⟩ := Prod.mk.inj htag
    exact ⟨i, by omega, hpr.lt, hmdata.symm, hdata.symm⟩
  rcases hi.progress hp with hcomp | ⟨_, a, l, k, _, _, _, hpr⟩
  · exact key le_rfl hcomp.progress
  · exact key (by omega) hpr

/-- A processed partition whose lines were all taken has a write for each of them. -/
theorem exists_post (hc : Complete p) (hs : p.swallowed = false) {i : Nat} (hi : i < p.cls) : ∃ r ∈ p.writes,
    r.hdr.mdata = BitVec.ofNat 16 i ∧ r.data = scanLine p.column p.pred (p.lines.getD i 0) := by
  obtain ⟨is, _, hsw, hposts⟩ := hc.progress.posts
  have hmem : p.post i ∈ p.writes.map WriteReq.tagged := by
    rw [hposts, hsw.mp hs]
    exact List.mem_map_of_mem (List.mem_range.mpr hi)
  obtain ⟨r, hr, htag⟩ := List.mem_map.mp hmem
  obtain ⟨hmdata, hdata⟩ := Prod.mk.inj htag
  exact ⟨r, hr, hmdata, hdata⟩

end Records

/-! ## What every iteration is given -/

/-- The polls are late enough and the result addresses in time. -/
def Timely (h : HostSys) (c : HostCycle) : Prop := PollSpaced h c ∧ PostHeld h c

instance (h : HostSys) (c : HostCycle) : Decidable (Timely h c) :=
  inferInstanceAs (Decidable (PollSpaced h c ∧ PostHeld h c))

/-- The partitions of the scan have its predicate and its column. -/
def Configured (h : HostSys) : Prop := ∀ k p, h.sys.runs[h.base + k]? = some p →
  p.pred = (h.param 1).setWidth 8 ∧ p.column = (h.param 2).setWidth 2

section Loop
variable {h : HostSys} {c : HostCycle}

theorem Configured.step (hd : Configured h) (hi : HostInv h) : Configured (h.step c) := by
  have hbase : (h.step c).base = h.base := rfl
  have hpar : (h.step c).param = h.param := rfl
  intro k q hq
  rw [hbase] at hq
  rw [hpar]
  rcases getElem_runs_step hq with ⟨_, _, p, _, hp, rfl⟩ | ⟨h4, _, rfl⟩ | hold
  · exact hd k p hp
  · have hage : h.age = 2 := of_decide_eq_true (hi.strobe.announce.symm.trans h4)
    have h1 : h.sys.csrs 1 = some (h.param 1) := hi.csrs (by omega) 1
    have h2 : h.sys.csrs 2 = some (h.param 2) := hi.csrs (by omega) 2
    refine ⟨?_, ?_⟩
    · show ((h.sys.csrs 1).getD 0).setWidth 8 = _
      rw [h1]
      rfl
    · show ((h.sys.csrs 2).getD 0).setWidth 2 = _
      rw [h2]
      rfl
  · exact hd k q hold

theorem configured_of_reachable (hr : Reachable (hostSystem.when PollSpaced) h) : Configured h := by
  refine Reachable.invariant (P := Configured) ?_ ?_ hr
  · intro h h0 k p hp
    rw [AtRest.base h0] at hp
    have := (List.getElem?_eq_some_iff.mp hp).1
    omega
  · intro h c hr hd _
    exact hd.step (hostInv_of_reachable hr)

theorem iter_le_of_reachable (hr : Reachable (hostSystem.when PollSpaced) h) : h.iter ≤ h.work.length := by
  refine Reachable.invariant (P := fun h => h.iter ≤ h.work.length) ?_ ?_ hr
  · intro h h0
    show h.iter ≤ h.work.length
    rw [AtRest.iter h0]
    exact Nat.zero_le _
  · intro h c hr hle _
    have hi := hostInv_of_reachable hr
    show (h.step c).iter ≤ h.work.length
    cases ha : h.answered with
    | false =>
      rw [step_iter ha]
      exact hle
    | true =>
      rw [step_answered_iter ha]
      exact (hi.clock.poll (answered_iff.mp ha).1).2.2

/-- A partition of the scan belongs to a work unit. -/
theorem exists_work (hr : Reachable (hostSystem.when PollSpaced) h) {k : Nat} {p : PartitionRun}
    (hp : h.sys.runs[h.base + k]? = some p) : ∃ ar, h.work[k]? = some ar := by
  have hi := hostInv_of_reachable hr
  have hle := iter_le_of_reachable hr
  have hlen := hi.len
  have hlt := (List.getElem?_eq_some_iff.mp hp).1
  have hk : k < h.work.length := by
    by_cases hage : 3 ≤ h.age
    · have hiter : h.iter < h.work.length := by
        cases hph : h.phase with
        | param j =>
          have := (hi.clock.param hph).1
          omega
        | announce =>
          have := (hi.clock.announce hph).1
          omega
        | result => exact (hi.clock.result hph).2.2
        | poll => exact (hi.clock.poll hph).2.2
      rw [if_pos hage] at hlen
      omega
    · rw [if_neg hage] at hlen
      omega
  exact ⟨_, List.getElem?_eq_getElem hk⟩

/-- In the cycle of a post the current partition is the one of the iteration. -/
theorem HostInv.posting_index (hi : HostInv h) (hw : Protocol h.sys (h.wires c))
    (h1 : (h.sys.afu.step (h.wires c)).c1Valid = true) :
    (h.csr.cpuWrCsrs 4).en = false ∧ h.sys.runs.length = h.base + h.iter + 1 := by
  rw [step_c1Valid hw] at h1
  simp only [Bool.and_eq_true, decide_eq_true_eq] at h1
  have hage : 3 ≤ h.age := by
    by_contra hlt
    rw [hi.early (by omega)] at h1
    cases h1.1.1
  have hlen := hi.len
  rw [if_pos hage] at hlen
  refine ⟨?_, hlen⟩
  rw [hi.strobe.announce]
  exact decide_eq_false (by omega)

end Loop

/-! ## The loop as a device -/

/-- Line `i` of the page, and of the result buffer, of a work unit. -/
def pageLine (ar : MmioData × MmioData) (i : Nat) : ClAddr := csrClAddr ar.1 + BitVec.ofNat 42 i
def resultLine (ar : MmioData × MmioData) (i : Nat) : ClAddr := csrClAddr ar.2 + BitVec.ofNat 42 i

/-- The lines of a partition. -/
def HostSys.cls (h : HostSys) : Nat := (h.param 0).toNat

/-- A line of a buffer of the scan. -/
def HostSys.Owns (h : HostSys) (a : ClAddr) : Prop :=
  ∃ ar ∈ h.work, ∃ i < h.cls, pageLine ar i = a ∨ resultLine ar i = a

instance (h : HostSys) (a : ClAddr) : Decidable (h.Owns a) :=
  inferInstanceAs (Decidable (∃ ar ∈ h.work, ∃ i < h.cls, pageLine ar i = a ∨ resultLine ar i = a))

/-- The loop as a device: a response carries the line at the oldest requested address. -/
def hostDevice : Device HostSys HostCycle ClAddr ClData where
  toSystem := hostSystem.when Timely
  posts := fun h c => if (h.sys.afu.step (h.wires c)).c1Valid then
    some (WriteReq.store ⟨(h.sys.afu.step (h.wires c)).c1Hdr, (h.sys.afu.step (h.wires c)).c1Data⟩) else none
  answers := fun h c m =>
    c.readRsp.isSome = true → ∀ p ∈ h.sys.cur, c.readRsp = p.reads[p.lines.length]?.map m.mem
  Posted := fun h e => ∃ k p, h.sys.runs[h.base + k]? = some p ∧ ∃ r ∈ p.writes, r.store = e
  Fetched := fun h a cl =>
    ∃ k p, h.sys.runs[h.base + k]? = some p ∧ ∃ i, p.lines[i]? = some cl ∧ p.pageLine i = a
  Uses := HostSys.Owns

instance (h : HostSys) (c : HostCycle) : Decidable (hostDevice.permits h c) :=
  inferInstanceAs (Decidable ((hostSystem.when Timely).permits h c))

instance (h : HostSys) (c : HostCycle) (m : Memory ClAddr ClData) : Decidable (hostDevice.answers h c m) :=
  inferInstanceAs (Decidable
    (c.readRsp.isSome = true → ∀ p ∈ h.sys.cur, c.readRsp = p.reads[p.lines.length]?.map m.mem))

instance (h : HostSys) (a : ClAddr) : Decidable (hostDevice.Uses h a) := inferInstanceAs (Decidable (h.Owns a))

section Timed
variable {h : HostSys} {c : HostCycle} (hr : Reachable (hostSystem.when Timely) h)
include hr

theorem hostInv_of_timely : HostInv h := hostInv_of_reachable (hr.weaken fun _ _ hc => hc.1)

/-- The write of a line goes to that line of the result buffer of its work unit. -/
theorem posted_spec {e : ClAddr × ClData} (he : hostDevice.Posted h e) : ∃ k p ar,
    h.sys.runs[h.base + k]? = some p ∧ h.work[k]? = some ar ∧ ∃ i < h.cls, h.cls < 128 ∧
      e = (resultLine ar i, scanLine p.column p.pred (p.lines.getD i 0)) := by
  obtain ⟨k, p, hp, r, hmem, rfl⟩ := he
  have hpoll := hr.weaken (D := PollSpaced) fun _ _ hc => hc.1
  obtain ⟨ar, har⟩ := exists_work hpoll hp
  obtain ⟨i, hi, hlt, hmdata, hdata⟩ := mem_writes_post (hostInv_of_timely hr).inv (List.mem_of_getElem? hp) hmem
  have haddr := (results_in_own_buffer hr k p ar hp har).2 r hmem
  have hcls : p.cls = h.cls := (identified_of_reachable hpoll k p ar hp har).2
  refine ⟨k, p, ar, hp, har, i, by omega, by omega, ?_⟩
  rw [WriteReq.store, haddr, hmdata, hdata, BitVec.setWidth_ofNat_of_le_of_lt (by omega) (by omega)]
  rfl

/-- A fetched line is a line of the page of its work unit. -/
theorem fetched_spec {a : ClAddr} {cl : ClData} (hf : hostDevice.Fetched h a cl) :
    ∃ (k : Nat) (ar : MmioData × MmioData), h.work[k]? = some ar ∧ ∃ i < h.cls, pageLine ar i = a := by
  obtain ⟨k, p, hp, i, hl, rfl⟩ := hf
  have hpoll := hr.weaken (D := PollSpaced) fun _ _ hc => hc.1
  obtain ⟨ar, har⟩ := exists_work hpoll hp
  obtain ⟨hbase, hcls⟩ := identified_of_reachable hpoll k p ar hp har
  have hlt := (List.getElem?_eq_some_iff.mp hl).1.trans_le
    (lines_le (hostInv_of_timely hr).inv (List.mem_of_getElem? hp))
  refine ⟨k, ar, har, i, hlt.trans_eq hcls, ?_⟩
  rw [pageLine, PartitionRun.pageLine, hbase]

/-- The writes of the scan after a cycle. -/
theorem posted_step (hp : hostDevice.permits h c) (e : ClAddr × ClData) :
    hostDevice.Posted (h.step c) e ↔ hostDevice.Posted h e ∨ hostDevice.posts h c = some e := by
  have hi := hostInv_of_timely hr
  have hw := hi.protocol hp.1
  have hbase : (h.step c).base = h.base := rfl
  have hposts : ∀ r : WriteReq, (h.sys.afu.step (h.wires c)).c1Valid = true →
      r = ⟨(h.sys.afu.step (h.wires c)).c1Hdr, (h.sys.afu.step (h.wires c)).c1Data⟩ →
        hostDevice.posts h c = some r.store := by
    rintro r h1 rfl
    exact if_pos h1
  constructor
  · rintro ⟨k, q, hq, r, hmem, rfl⟩
    rw [hbase] at hq
    rcases getElem_runs_step hq with ⟨_, _, p, _, hp', rfl⟩ | ⟨h4, _, rfl⟩ | hold
    · rcases mem_writes_observe_iff.mp hmem with hr' | ⟨h1, heq⟩
      · exact .inl ⟨k, p, hp', r, hr', rfl⟩
      · exact .inr (hposts r h1 heq)
    · rw [writes_start hw h4] at hmem
      cases hmem
    · exact .inl ⟨k, q, hold, r, hmem, rfl⟩
  · rintro (⟨k, p, hp', r, hmem, rfl⟩ | hpost)
    · obtain ⟨q, hq, hkept⟩ := getElem_runs_kept (w := h.wires c) hp'
      exact ⟨k, q, hq, r, hkept r hmem, rfl⟩
    · simp only [hostDevice, Option.ite_none_right_eq_some, Option.some.injEq] at hpost
      obtain ⟨h1, rfl⟩ := hpost
      obtain ⟨h4, hlen⟩ := hi.posting_index hw h1
      obtain ⟨q, hq⟩ := Option.isSome_iff_exists.mp ((hi.inv.step hw).phase.of_c1Valid h1)
      have hlen' : (h.sys.step (h.wires c)).runs.length = h.base + h.iter + 1 := by
        have hcount : (h.sys.step (h.wires c)).runs.length =
            h.sys.runs.length + if (h.csr.cpuWrCsrs 4).en then 1 else 0 := length_runs_step
        rw [hcount, h4]
        exact hlen
      have hlast : (h.sys.step (h.wires c)).runs[h.base + h.iter]? = some q := by
        unfold Sys.runs at hlen' ⊢
        rw [hq, Option.toList_some, List.length_append] at hlen'
        have hpast : (h.sys.step (h.wires c)).past.length = h.base + h.iter := Nat.succ.inj hlen'
        rw [hq, List.getElem?_append_right (by omega), hpast, Nat.sub_self]
        rfl
      refine ⟨h.iter, q, hlast, _, ?_, rfl⟩
      obtain ⟨p, _, rfl⟩ := Option.map_eq_some_iff.mp hq
      exact mem_writes_observe_iff.mpr (.inr ⟨h1, rfl⟩)

/-- The lines of the scan after a cycle. -/
theorem fetched_step (hp : hostDevice.permits h c) {m : Memory ClAddr ClData} (hrsp : hostDevice.answers h c m)
    {a : ClAddr} {cl : ClData} (hf : hostDevice.Fetched (h.step c) a cl) :
    hostDevice.Fetched h a cl ∨ m.mem a = cl := by
  obtain ⟨k, q, hq, i, hl, rfl⟩ := hf
  have hi := hostInv_of_timely hr
  have hbase : (h.step c).base = h.base := rfl
  rw [hbase] at hq
  rcases getElem_runs_step hq with ⟨_, _, p, hc, hp', rfl⟩ | ⟨h4, _, rfl⟩ | hold
  · have hl' : (p.lines ++ c.readRsp.toList)[i]? = some cl := hl
    rcases Nat.lt_or_ge i p.lines.length with hlt | hge
    · rw [List.getElem?_append_left hlt] at hl'
      exact .inl ⟨k, p, hp', i, hl', rfl⟩
    · rw [List.getElem?_append_right hge] at hl'
      have hlt := (List.getElem?_eq_some_iff.mp hl').1
      have hle : c.readRsp.toList.length ≤ 1 := by cases c.readRsp <;> simp
      have hcl : c.readRsp = some cl := Option.mem_toList.mp (List.mem_of_getElem? hl')
      have hat : i = p.lines.length := by omega
      have hread := hrsp (by rw [hcl]; rfl) p hc
      obtain ⟨b, hb, hval⟩ := Option.map_eq_some_iff.mp (hread.symm.trans hcl)
      rw [reads_next hi.inv (List.mem_of_getElem? hp') hb, ← hat] at hval
      exact .inr hval
  · rw [observe_lines_quiet (hi.inv.no_response_waiting (hi.protocol hp.1) h4)] at hl
    cases hl
  · exact .inl ⟨k, q, hold, i, hl, rfl⟩

end Timed

/-- The records of the loop keep up with its steps. -/
theorem hostDevice_lawful : hostDevice.Lawful where
  posted_init := by
    rintro h h0 e ⟨k, p, hp, _⟩
    rw [AtRest.base h0] at hp
    have := (List.getElem?_eq_some_iff.mp hp).1
    omega
  posted_step := fun _ _ hr hp e => posted_step hr hp e
  posted_uses := by
    intro h hr e he
    obtain ⟨k, p, ar, _, har, i, hi, _, rfl⟩ := posted_spec hr he
    exact ⟨ar, List.mem_of_getElem? har, i, hi, .inr rfl⟩
  fetched_init := by
    rintro h h0 a v ⟨k, p, hp, _⟩
    rw [AtRest.base h0] at hp
    have := (List.getElem?_eq_some_iff.mp hp).1
    omega
  fetched_step := fun _ _ _ hr hp hrsp _ _ hf => fetched_step hr hp hrsp hf
  fetched_uses := by
    intro h hr a v hf
    obtain ⟨k, ar, har, i, hi, rfl⟩ := fetched_spec hr hf
    exact ⟨ar, List.mem_of_getElem? har, i, hi, .inl rfl⟩

/-! ## Pages and results -/

/-- The loop and the memory. -/
abbrev HostMemSys := Attached HostSys ClAddr ClData

/-- No two result buffers overlap, and none overlaps a page. -/
def HostSys.BuffersApart (h : HostSys) : Prop :=
  ∀ (k m : Nat) ar br, h.work[k]? = some ar → h.work[m]? = some br → ∀ i < h.cls, ∀ j < h.cls,
    (k ≠ m → resultLine ar i ≠ resultLine br j) ∧ resultLine ar i ≠ pageLine br j

/-- The pages are in their buffers. -/
structure Prepared (pages : Nat → Nat → Word) (s : HostMemSys) : Prop where
  apart : s.dev.BuffersApart
  loaded : ∀ k ar, s.dev.work[k]? = some ar → ∀ i < s.dev.cls, s.host.mem (pageLine ar i) = cacheLine (pages k) i

section Run
variable {pages : Nat → Nat → Word} {s₀ s : HostMemSys}

/-- The buffers keep their pages during the scan. -/
theorem Prepared.step (h : Prepared pages s) (hr : Reachable hostDevice.withMemory s)
    {i : AttachedLabel HostCycle ClAddr ClData} (hp : hostDevice.withMemory.permits s i) :
    Prepared pages (hostDevice.withMemory.step s i) := by
  match i, hp with
  | .step c, _ => exact ⟨h.apart, h.loaded⟩
  | .perform n, _ =>
    refine ⟨h.apart, ?_⟩
    intro k ar har j hj
    show (s.host.perform n).mem (pageLine ar j) = _
    have hi := Device.inv_of_reachable hostDevice_lawful hr
    rcases mem_perform s.host n (pageLine ar j) with hsame | ⟨e, he, hat⟩
    · rw [hsame]
      exact h.loaded k ar har j hj
    · have hissued : s.host.Issued e := issued_perform.mp (.inl he)
      obtain ⟨m, p, br, _, hbr, l, hl, _, rfl⟩ := posted_spec (reachable_dev hr) ((hi.issued e).mp hissued)
      exact absurd hat (h.apart m k br ar hbr har l hl j hj).2
  | .write a v, hp =>
    refine ⟨h.apart, ?_⟩
    intro k ar har j hj
    have hne : pageLine ar j ≠ a := by
      rintro rfl
      exact hp ⟨ar, List.mem_of_getElem? har, j, hj, .inl rfl⟩
    show Function.update s.host.mem a v (pageLine ar j) = _
    rw [Function.update_of_ne hne]
    exact h.loaded k ar har j hj

theorem prepared_of_reachable (h0 : hostDevice.withMemory.init s₀) (hprep : Prepared pages s₀)
    (h : Reachable (hostDevice.withMemory.after s₀) s) : Prepared pages s := by
  refine Reachable.invariant (P := Prepared pages) ?_ ?_ h
  · rintro s rfl
    exact hprep
  · intro s i hr hp hperm
    exact hp.step (Reachable.of_after (.init h0) hr) hperm

/-- The loop is over: the last poll has returned, no line of the scan was refused and none is on its way. -/
structure LoopDone (s : HostMemSys) : Prop where
  iter : s.dev.iter = s.dev.work.length
  taken : ∀ k p, s.dev.sys.runs[s.dev.base + k]? = some p → p.swallowed = false
  delivered : s.host.pending = []

/-- Every line of the result buffer of every work unit is the scan of that line of its page. -/
theorem result_line (h0 : hostDevice.withMemory.init s₀) (hprep : Prepared pages s₀)
    (h : Reachable (hostDevice.withMemory.after s₀) s) (hdone : LoopDone s) {k : Nat} {ar : MmioData × MmioData}
    (har : s.dev.work[k]? = some ar) {i : Nat} (hi : i < s.dev.cls) : s.host.mem (resultLine ar i) =
      scanLine ((s.dev.param 2).setWidth 2) ((s.dev.param 1).setWidth 8) (cacheLine (pages k) i) := by
  have hreach : Reachable hostDevice.withMemory s := .of_after (.init h0) h
  have hdev : Reachable (hostSystem.when Timely) s.dev := reachable_dev hreach
  have hpoll := hdev.weaken (D := PollSpaced) fun _ _ hc => hc.1
  obtain ⟨hapart, hloaded⟩ := prepared_of_reachable h0 hprep h
  have hk := (List.getElem?_eq_some_iff.mp har).1
  have hiter := hdone.iter
  obtain ⟨p, hp, hcomp⟩ := (hostInv_of_timely hdev).complete_before
    (show s.dev.base + k < s.dev.base + s.dev.iter by omega)
  obtain ⟨hbase, hcls⟩ := identified_of_reachable hpoll k p ar hp har
  obtain ⟨hpred, hcolumn⟩ := configured_of_reachable hpoll k p hp
  have hcls' : p.cls = s.dev.cls := hcls
  have hil : i < p.lines.length := by
    rw [hcomp.progress.lines, hcls']
    exact hi
  have hpage : s.host.mem (pageLine ar i) = p.lines[i] := by
    refine mem_of_fetched hostDevice_lawful hreach ⟨k, p, hp, i, List.getElem?_eq_getElem hil, ?_⟩ ?_
    · rw [PartitionRun.pageLine, pageLine, hbase]
    · intro e he
      obtain ⟨m, q, br, _, hbr, l, hl, _, rfl⟩ := posted_spec hdev he
      exact (hapart m k br ar hbr har l hl i hi).2
  obtain ⟨r, hr, hmdata, hdata⟩ := exists_post hcomp (hdone.taken k p hp) (hcls' ▸ hi)
  have haddr := (results_in_own_buffer hdev k p ar hp har).2 r hr
  have hlt := hcomp.progress.lt
  have hstore : r.store = (resultLine ar i, scanLine p.column p.pred (p.lines.getD i 0)) := by
    rw [WriteReq.store, haddr, hmdata, hdata, BitVec.setWidth_ofNat_of_le_of_lt (by omega) (by omega)]
    rfl
  have hmem : s.host.mem (resultLine ar i) = scanLine p.column p.pred (p.lines.getD i 0) := by
    refine mem_of_posted (e := (resultLine ar i, scanLine p.column p.pred (p.lines.getD i 0))) hostDevice_lawful
      hreach ⟨k, p, hp, r, hr, hstore⟩ ?_ ?_
    · rw [hdone.delivered]
      rintro e ⟨⟩
    · intro e he hat
      obtain ⟨m, q, br, hq, hbr, l, hl, _, rfl⟩ := posted_spec hdev he
      have hmk : m = k := by
        by_contra hne
        exact (hapart m k br ar hbr har l hl i hi).1 hne hat
      subst hmk
      obtain rfl := Option.some.inj (hq.symm.trans hp)
      obtain rfl := Option.some.inj (hbr.symm.trans har)
      have hli : l = i := lineOffset_inj _ (by omega) (by omega) hat
      rw [hli]
  rw [hmem, List.getD_eq_getElem _ _ hil, ← hpage, hloaded k ar har i hi, hpred, hcolumn]

end Run

end SdbFpga.Host
