import SdbFpga.Host.ScanLoopInvariant

/-!
# Polls and result buffers of the scan loop

* `poll_returns_own_flag` : with the polls late enough, a nonzero answer means that the partition of the same
  iteration is processed;
* `results_in_own_buffer` : with the result address also in time, every result line goes to the buffer of its own
  iteration;
* `stale_flag`, `result_in_old_buffer` : runs in which the host is too fast, and too slow.
-/

namespace SdbFpga.Host
open Transition SdbFpga.Fpga

/-! ## Which partition is which -/

/-- Partition `k` of the scan was announced with the address of work unit `k` and the parameters of the scan. -/
def Identified (h : HostSys) : Prop :=
  ∀ k p ar, h.sys.runs[h.base + k]? = some p → h.work[k]? = some ar →
    p.base = csrClAddr ar.1 ∧ p.cls = (h.param 0).toNat

section Identify
variable {h : HostSys} {c : HostCycle}

theorem Identified.step (hd : Identified h) (hi : HostInv h) : Identified (h.step c) := by
  have hbase : (h.step c).base = h.base := rfl
  have hwork : (h.step c).work = h.work := rfl
  have hpar : (h.step c).param = h.param := rfl
  intro k q ar hq har
  rw [hbase] at hq
  rw [hwork] at har
  rw [hpar]
  rcases getElem_runs_step hq with ⟨_, _, p, _, hp, rfl⟩ | ⟨h4, hend, rfl⟩ | hold
  · exact hd k p ar hp har
  · have hage : h.age = 2 := of_decide_eq_true (hi.strobe.announce.symm.trans h4)
    have hk : k = h.iter := by
      have hlen := hi.len
      rw [if_neg (by omega)] at hlen
      omega
    obtain ⟨ar', har', hdata⟩ := hi.strobe.address hage
    rw [hk, har'] at har
    cases har
    have h0 : h.sys.csrs 0 = some (h.param 0) := hi.csrs (by omega) 0
    refine ⟨?_, ?_⟩
    · show csrClAddr (h.csr.cpuWrCsrs 4).data = _
      rw [hdata]
    · show ((h.sys.csrs 0).getD 0).toNat = _
      rw [h0]
      rfl
  · exact hd k q ar hold har

theorem identified_of_reachable (hr : Reachable (hostSystem.when PollSpaced) h) : Identified h := by
  refine Reachable.invariant (P := Identified) ?_ ?_ hr
  · intro h h0 k p ar hp _
    have hb : AtRest h := h0
    rw [hb.base] at hp
    have := (List.getElem?_eq_some_iff.mp hp).1
    omega
  · intro h c hr hd _
    exact hd.step (hostInv_of_reachable hr)

/-- Every partition announced before the current iteration is complete. -/
theorem HostInv.complete_before (hi : HostInv h) {i : Nat} (hlt : i < h.base + h.iter) :
    ∃ p, h.sys.runs[i]? = some p ∧ Complete p := by
  have hlen := hi.len
  have hi' : i < h.sys.runs.length := by omega
  refine ⟨_, List.getElem?_eq_getElem hi', ?_⟩
  have hmem : h.sys.runs[i] ∈ h.sys.runs := List.getElem_mem hi'
  rcases hi.inv.progress hmem with hc | ⟨hnp, _⟩
  · exact hc
  · have hpast : ¬ i < h.sys.past.length := by
      intro hp
      have : h.sys.runs[i] = h.sys.past[i] := List.getElem_append_left hp
      rw [this, (hi.inv.past _ (List.getElem_mem hp)).processed] at hnp
      cases hnp
    have hshort : h.sys.runs.length ≤ h.sys.past.length + 1 := by
      unfold Sys.runs
      cases h.sys.cur <;> simp
    -- the last record, and not announced in this iteration: the unit is at rest
    have hage : h.age ≤ 2 := by
      by_contra hlt'
      rw [if_pos (by omega)] at hlen
      omega
    have hrest := (hi.inv.phase.at_rest (hi.early hage) (hi.no_announce (by omega))).2
    rcases List.mem_append.mp hmem with hp | hp
    · exact hi.inv.past _ hp
    · exact hrest _ (Option.mem_toList.mp hp)

theorem Settled.complete (hs : Settled h) (hi : HostInv h) :
    ∃ p, h.sys.runs[h.base + h.iter]? = some p ∧ Complete p := by
  have hage := hs.age
  obtain ⟨p, hp⟩ := Option.isSome_iff_exists.mp hs.cur
  have hlen := hi.len
  rw [if_pos (by omega)] at hlen
  have hpast : h.sys.past.length = h.base + h.iter := by
    unfold Sys.runs at hlen
    rw [hp, List.length_append] at hlen
    exact Nat.succ.inj hlen
  refine ⟨p, ?_, (hi.inv.phase.at_rest hs.waiting (hi.no_announce (by omega))).2 p hp⟩
  unfold Sys.runs
  rw [List.getElem?_append_right (by omega), hp, hpast, Nat.sub_self]
  rfl

end Identify

/-! ## Polls -/

/-- A nonzero answer to a read of `CSR[1]` issued in iteration `k`: partition `k` is processed, all of its lines are. -/
theorem poll_returns_own_flag {h : HostSys} (hr : Reachable (hostSystem.when PollSpaced) h)
    (hv : h.csr.fiuC2Tx.mmioRdValid = true) (hd : h.csr.fiuC2Tx.data ≠ 0) :
    ∃ p, h.sys.runs[h.base + h.csr.fiuC2Tx.tid]? = some p ∧ p.processed = true ∧ p.passes = p.cls ∧
      ∀ ar, h.work[h.csr.fiuC2Tx.tid]? = some ar → p.base = csrClAddr ar.1 ∧ p.cls = (h.param 0).toNat := by
  have hi := hostInv_of_reachable hr
  have ha := hi.forwarded hv
  have hp : ∃ p, h.sys.runs[h.base + h.csr.fiuC2Tx.tid]? = some p ∧ Complete p := by
    rcases Nat.lt_or_eq_of_le ha.tid with hlt | heq
    · exact hi.complete_before (by omega)
    · rw [heq]
      exact (ha.settled heq hd).complete hi
  obtain ⟨p, hget, hc⟩ := hp
  exact ⟨p, hget, hc.processed, hc.progress.passes, fun ar har => identified_of_reachable hr _ p ar hget har⟩

theorem poll_returns_own_flag_first :
    let h := hostSystem.run .start (firstPartition.take 16)
    ∃ p, h.sys.runs[h.base + h.csr.fiuC2Tx.tid]? = some p ∧ p.processed = true ∧ p.passes = p.cls ∧
      ∀ ar, h.work[h.csr.fiuC2Tx.tid]? = some ar → p.base = csrClAddr ar.1 ∧ p.cls = (h.param 0).toNat :=
  poll_returns_own_flag
    (Reachable.run (S := hostSystem.when PollSpaced) (.init atRest_start) (by decide +kernel))
    (by decide +kernel) (by decide +kernel)

/-- `CSR[4]`, `CSR[5]` and the poll of the second partition in consecutive cycles: the poll returns the flag of the
first one. -/
theorem stale_flag : ¬ ∀ h, Reachable hostSystem h → h.csr.fiuC2Tx.mmioRdValid = true → h.csr.fiuC2Tx.data ≠ 0 →
    ∃ p, h.sys.runs[h.base + h.csr.fiuC2Tx.tid]? = some p ∧ p.processed = true ∧ p.passes = p.cls := by
  intro hall
  let cs := firstPartition ++ List.replicate 4 (.plain true none)
  have hr : Reachable hostSystem (hostSystem.run .start cs) := Reachable.run (.init atRest_start) (by decide +kernel)
  obtain ⟨p, hget, hproc, _⟩ := hall _ hr (by decide +kernel) (by decide +kernel)
  have hno : ((hostSystem.run .start cs).sys.runs[(hostSystem.run .start cs).base +
      (hostSystem.run .start cs).csr.fiuC2Tx.tid]?.map PartitionRun.processed) = some false := by decide +kernel
  rw [hget, Option.map_some, hproc] at hno
  cases hno

/-! ## Result buffers -/

/-- The result address of the iteration is in its register three cycles after it was sent. -/
def Targeted (h : HostSys) : Prop :=
  3 ≤ h.resultAge → ∀ ar, h.work[h.iter]? = some ar → h.sys.afu.writeBuffAddress = csrClAddr ar.2

/-- The writes of partition `k` go to the result buffer of work unit `k`. -/
def Buffered (h : HostSys) : Prop :=
  ∀ k p ar, h.sys.runs[h.base + k]? = some p → h.work[k]? = some ar →
    ∀ r ∈ p.writes, r.hdr.address = csrClAddr ar.2 + r.hdr.mdata.setWidth 42

section Buffer
variable {h : HostSys} {c : HostCycle}

theorem Targeted.step (ht : Targeted h) (hi : HostInv h) : Targeted (h.step c) := by
  have hwork : (h.step c).work = h.work := rfl
  have hwba : (h.step c).sys.afu.writeBuffAddress =
      if (h.csr.cpuWrCsrs 5).en then csrClAddr (h.csr.cpuWrCsrs 5).data else h.sys.afu.writeBuffAddress := by
    show (h.sys.afu.step (h.wires c)).writeBuffAddress = _
    simp [ScanAfu.step, ScanAfu.csrRegs, HostSys.wires]
  intro h3 ar har
  rw [hwork] at har
  have hans : h.answered = false := by
    cases ha : h.answered
    · rfl
    · have h0 : (h.step c).resultAge = 0 := by simp [HostSys.step, ha]
      omega
  have h2 : 2 ≤ h.resultAge := by
    by_contra hlt
    have hle : (h.step c).resultAge ≤ 2 := by
      have htick : tick h.resultAge (c.act && h.phase = .result && h.iter < h.work.length) ≤ 2 := by
        unfold tick
        split
        · omega
        · split <;> omega
      simpa [HostSys.step, hans] using htick
    omega
  rw [step_iter hans] at har
  rw [hwba, hi.strobe.result]
  by_cases he : h.resultAge = 2
  · obtain ⟨ar', har', hdata⟩ := hi.strobe.target he
    rw [har] at har'
    cases har'
    rw [if_pos (decide_eq_true he), hdata]
  · rw [decide_eq_false he, if_neg (by simp)]
    exact ht (by omega) ar har

theorem Buffered.step (hb : Buffered h) (ht : Targeted h) (hi : HostInv h) (hm : MemoryProtocol h c)
    (hp : PostHeld h c) : Buffered (h.step c) := by
  have hbase : (h.step c).base = h.base := rfl
  have hwork : (h.step c).work = h.work := rfl
  have hw := hi.protocol hm
  intro k q ar hq har r hr
  rw [hbase] at hq
  rw [hwork] at har
  rcases getElem_runs_step hq with ⟨_, hend, p, hcur, hp', rfl⟩ | ⟨h4, _, rfl⟩ | hold
  · rcases mem_writes_observe hi.inv hw hcur hr with hr | ⟨hs, hu, hfull, j, ha, hpr, he⟩
    · exact hb k p ar hp' har r hr
    · have hage : 3 ≤ h.age := by
        by_contra hlt
        rw [hi.early (by omega)] at hs
        cases hs
      have hlen := hi.len
      rw [if_pos hage] at hlen
      have hk : k = h.iter := by omega
      rw [hk] at har
      have hj := ha.lt.trans hpr.lt
      rw [he, ht (hp hs hu hfull) ar har, BitVec.setWidth_ofNat_of_le_of_lt (by omega) (by omega)]
  · rw [writes_start hw h4] at hr
    cases hr
  · exact hb k q ar hold har r hr

end Buffer

/-- With the polls late enough and the result address in time: the partition of iteration `k` is the one whose address
was written in that iteration, and all of its result lines go to the result address written in that iteration. -/
theorem results_in_own_buffer {h : HostSys}
    (hr : Reachable (hostSystem.when fun h c => PollSpaced h c ∧ PostHeld h c) h) :
    ∀ k p ar, h.sys.runs[h.base + k]? = some p → h.work[k]? = some ar →
      p.base = csrClAddr ar.1 ∧ ∀ r ∈ p.writes, r.hdr.address = csrClAddr ar.2 + r.hdr.mdata.setWidth 42 := by
  have key : Targeted h ∧ Buffered h := by
    refine Reachable.invariant (P := fun h => Targeted h ∧ Buffered h) ?_ ?_ hr
    · intro h h0
      have hb : AtRest h := h0
      refine ⟨?_, ?_⟩
      · intro h3
        rw [hb.resultAge] at h3
        omega
      · intro k p ar hp
        rw [hb.base] at hp
        have := (List.getElem?_eq_some_iff.mp hp).1
        omega
    · intro h c hr ⟨ht, hb⟩ hc
      have hi := hostInv_of_reachable (hr.weaken fun _ _ hc => hc.1)
      exact ⟨ht.step hi, hb.step ht hi hc.1 hc.2.2⟩
  intro k p ar hp har
  exact ⟨(identified_of_reachable (hr.weaken fun _ _ hc => hc.1) k p ar hp har).1, key.2 k p ar hp har⟩

theorem results_in_own_buffer_two :
    let h := hostSystem.run .start (firstPartition ++ [.plain true none, .plain false none] ++
      List.replicate 4 (.plain true none) ++ [.plain true (some 0x123)] ++ List.replicate 3 (.plain true none))
    ∀ k p ar, h.sys.runs[h.base + k]? = some p → h.work[k]? = some ar →
      p.base = csrClAddr ar.1 ∧ ∀ r ∈ p.writes, r.hdr.address = csrClAddr ar.2 + r.hdr.mdata.setWidth 42 :=
  results_in_own_buffer (Reachable.run (S := hostSystem.when fun h c => PollSpaced h c ∧ PostHeld h c)
    (.init atRest_start) (by decide +kernel))

/-- The host is preempted between the two address writes of the second partition: its result line goes to the buffer
of the first one. -/
theorem result_in_old_buffer : ¬ ∀ h, Reachable hostSystem h → ∀ k p ar, h.sys.runs[h.base + k]? = some p →
    h.work[k]? = some ar → ∀ r ∈ p.writes, r.hdr.address = csrClAddr ar.2 + r.hdr.mdata.setWidth 42 := by
  intro hall
  let cs := firstPartition ++ List.replicate 6 (.plain false none) ++ [.plain false (some 0x123)] ++
    List.replicate 3 (.plain false none)
  have hr : Reachable hostSystem (hostSystem.run .start cs) := Reachable.run (.init atRest_start) (by decide +kernel)
  have hbad : (hostSystem.run .start cs).sys.runs[1]?.map (fun p => p.writes.map fun r => (r.hdr.mdata, r.hdr.address))
      = some [(0, 0x40)] := by decide +kernel
  obtain ⟨p, hp, hw⟩ := Option.map_eq_some_iff.mp hbad
  have hmem : ((0 : BitVec 16), (0x40 : ClAddr)) ∈ p.writes.map fun r => (r.hdr.mdata, r.hdr.address) := by
    rw [hw]
    exact List.mem_singleton.mpr rfl
  obtain ⟨r, hr', he⟩ := List.mem_map.mp hmem
  have hgood := hall _ hr 1 p (0x80, 0x2000) hp rfl r hr'
  obtain ⟨hm, haddr⟩ := Prod.mk.inj he
  rw [hm, haddr] at hgood
  exact absurd hgood (by decide)

end SdbFpga.Host
