import SdbFpga.Fpga.ScanInvariant

/-!
# What `scan_afu` reads and writes for a partition

* `Inv.posting` : the one point of the handshake at which a write request is issued;
* `Addressed` : every write goes to `result + index` when `CSR[5]` is written in time;
* `reads_and_writes` : the requests of every partition, whatever the back-pressure and the latency;
* `all_posted_iff` : a processed partition has all of its writes exactly when the channel never refused one;
* `Delivered`, `delivered_along_iff` : the exported flag against the outstanding writes.
-/

namespace SdbFpga.Fpga
open Transition

/-! ## The post -/

section Post
variable {σ : Sys} {w : Wires}

theorem step_c1Valid (hw : Protocol σ w) : (σ.afu.step w).c1Valid
    = (decide (σ.afu.state = .processing) && σ.afu.units.clProcessed && !w.c1TxAlmFull) := by
  simp [ScanAfu.step, ScanAfu.memoryWrite, hw.noReset]

theorem step_c1Hdr (hw : Protocol σ w) : (σ.afu.step w).c1Hdr = σ.afu.writeHdr := by
  simp [ScanAfu.step, ScanAfu.memoryWrite, hw.noReset]

/-- The state machine leaves `STATE_PROCESSING` only with the current partition's next line filtered. -/
theorem Inv.posting (h : Inv σ) (hs : σ.afu.state = .processing) (hu : σ.afu.units.clProcessed = true) :
    ∃ p k, Active σ p k ∧ Progress p (k + 1) (k + 1) k := by
  cases h.phase with
  | posting _ _ _ _ ha hp => exact ⟨_, _, ha, hp⟩
  | filtering _ _ _ hc =>
    rw [hc, clProcessed_cleared] at hu
    cases hu
  | _ hs' => exact absurd (hs.symm.trans hs') (by decide)

/-- A write request carries the index of the line in process and that index added to `write_buff_address`. -/
theorem Active.writeHdr {p : PartitionRun} {k : Nat} (ha : Active σ p k) (hp : Progress p (k + 1) (k + 1) k) :
    σ.afu.writeHdr = ⟨BitVec.ofNat 16 k, σ.afu.writeBuffAddress + BitVec.ofNat 42 k⟩ := by
  rw [ScanAfu.writeHdr, ha.clsTag, ha.clsOffset hp.lt]

/-- The records after a cycle, by position: an old one, the current one observed, or one just opened at the end. -/
theorem getElem_runs_step {i : Nat} {q : PartitionRun} (hq : (σ.step w).runs[i]? = some q) :
    ((w.wrCsrs 4).en = false ∧ i + 1 = σ.runs.length ∧
      ∃ p, σ.cur = some p ∧ σ.runs[i]? = some p ∧ q = p.observe σ.afu w (σ.afu.step w)) ∨
    ((w.wrCsrs 4).en = true ∧ i = σ.runs.length ∧
      q = (PartitionRun.start σ.csrs (w.wrCsrs 4).data).observe σ.afu w (σ.afu.step w)) ∨
    σ.runs[i]? = some q := by
  unfold Sys.runs Sys.step at hq
  unfold Sys.runs
  cases h4 : (w.wrCsrs 4).en
  · rw [h4] at hq
    simp only [Bool.false_eq_true, if_false] at hq
    by_cases hi : i < σ.past.length
    · rw [List.getElem?_append_left hi] at hq ⊢
      exact .inr (.inr hq)
    · rw [List.getElem?_append_right (by omega)] at hq ⊢
      cases hc : σ.cur with
      | none =>
        rw [hc] at hq
        cases hq
      | some p =>
        rw [hc] at hq
        obtain ⟨h0, rfl⟩ := List.getElem?_eq_some_iff.mp hq
        have hi0 : i - σ.past.length = 0 := Nat.lt_one_iff.mp h0
        refine .inl ⟨rfl, ?_, p, rfl, ?_, ?_⟩
        · rw [List.length_append]
          show i + 1 = σ.past.length + 1
          omega
        · rw [hi0]
          rfl
        · simp
  · rw [h4] at hq
    simp only [if_true, Option.map_some, Option.toList_some] at hq
    by_cases hi : i < (σ.past ++ σ.cur.toList).length
    · rw [List.getElem?_append_left hi] at hq
      exact .inr (.inr hq)
    · rw [List.getElem?_append_right (by omega)] at hq
      obtain ⟨h0, rfl⟩ := List.getElem?_eq_some_iff.mp hq
      refine .inr (.inl ⟨rfl, ?_, by simp⟩)
      have := Nat.lt_one_iff.mp h0
      omega

theorem length_runs_step : (σ.step w).runs.length = σ.runs.length + if (w.wrCsrs 4).en then 1 else 0 := by
  unfold Sys.runs Sys.step
  cases (w.wrCsrs 4).en <;> cases σ.cur <;> simp

theorem mem_runs_step {q : PartitionRun} (hq : q ∈ (σ.step w).runs) :
    (∃ p, σ.cur = some p ∧ q = p.observe σ.afu w (σ.afu.step w)) ∨
      ((w.wrCsrs 4).en = true ∧
        q = (PartitionRun.start σ.csrs (w.wrCsrs 4).data).observe σ.afu w (σ.afu.step w)) ∨ q ∈ σ.runs := by
  obtain ⟨i, hi⟩ := List.mem_iff_getElem?.mp hq
  rcases getElem_runs_step hi with ⟨_, _, p, hc, _, rfl⟩ | ⟨h4, _, rfl⟩ | hold
  · exact .inl ⟨p, hc, rfl⟩
  · exact .inr (.inl ⟨h4, rfl⟩)
  · exact .inr (.inr (List.mem_of_getElem? hold))

/-- A write of the current partition is an old one or the one posted in this cycle. -/
theorem mem_writes_observe (hi : Inv σ) (hw : Protocol σ w) {p : PartitionRun} (hc : σ.cur = some p)
    {r : WriteReq} (hr : r ∈ (p.observe σ.afu w (σ.afu.step w)).writes) :
    r ∈ p.writes ∨ σ.afu.state = .processing ∧ σ.afu.units.clProcessed = true ∧ w.c1TxAlmFull = false ∧
      ∃ k, Active σ p k ∧ Progress p (k + 1) (k + 1) k ∧
        r.hdr = ⟨BitVec.ofNat 16 k, σ.afu.writeBuffAddress + BitVec.ofNat 42 k⟩ := by
  cases h1 : (σ.afu.step w).c1Valid
  · rw [observe_writes_quiet h1] at hr
    exact .inl hr
  · simp only [PartitionRun.observe, h1, if_true, List.mem_append, List.mem_singleton] at hr
    rcases hr with hr | rfl
    · exact .inl hr
    · have hpost := h1
      rw [step_c1Valid hw] at hpost
      simp only [Bool.and_eq_true, decide_eq_true_eq] at hpost
      obtain ⟨⟨hs, hu⟩, hfull⟩ := hpost
      obtain ⟨p', k, ha, hp⟩ := hi.posting hs hu
      have : p' = p := Option.some.inj (ha.cur.symm.trans hc)
      subst this
      exact .inr ⟨hs, hu, by simpa using hfull, k, ha, hp, (step_c1Hdr hw).trans (ha.writeHdr hp)⟩

/-- A partition with a write has received a line. -/
theorem Inv.lines_of_writes (hi : Inv σ) {p : PartitionRun} (hp : p ∈ σ.runs) {r : WriteReq} (hr : r ∈ p.writes) :
    p.lines ≠ [] := by
  have key : ∀ {a l k : Nat}, k ≤ l → Progress p a l k → p.lines ≠ [] := by
    rintro a l k hk ⟨_, _, _, _, hlen, _, is, hsub, _, hw⟩ hnil
    rw [hnil] at hlen
    have hk0 : k = 0 := by
      have : l = 0 := hlen.symm
      omega
    subst hk0
    have his : is = [] := List.sublist_nil.mp hsub
    rw [his, List.map_nil, List.map_eq_nil_iff] at hw
    rw [hw] at hr
    cases hr
  rcases hi.progress hp with hcomp | ⟨_, a, l, k, hk, _, _, hpr⟩
  · exact key le_rfl hcomp.progress
  · exact key hk hpr

/-- The current record after a cycle observes the one before it, or the one just opened. -/
theorem cur_step {q : PartitionRun} (hq : q ∈ (σ.step w).cur) :
    ∃ p, ((w.wrCsrs 4).en = false ∧ σ.cur = some p ∨
      (w.wrCsrs 4).en = true ∧ p = PartitionRun.start σ.csrs (w.wrCsrs 4).data) ∧
      q = p.observe σ.afu w (σ.afu.step w) := by
  obtain ⟨p, hp, rfl⟩ := Option.map_eq_some_iff.mp hq
  refine ⟨p, ?_, rfl⟩
  cases h4 : (w.wrCsrs 4).en
  · rw [h4] at hp
    exact .inl ⟨rfl, hp⟩
  · rw [h4] at hp
    exact .inr ⟨rfl, (Option.some.inj hp).symm⟩

theorem processed_of_observe {p : PartitionRun} {s s' : ScanAfu} (h : (p.observe s w s').processed = false) :
    p.processed = false := by
  simp only [PartitionRun.observe, Bool.or_eq_false_iff] at h
  exact h.1

/-- Nothing is outstanding when a partition is announced. -/
theorem Inv.no_response_waiting (hi : Inv σ) (hw : Protocol σ w) (h4 : (w.wrCsrs 4).en = true) :
    w.readRsp = none := by
  obtain ⟨hs, _⟩ := hw.announce h4
  exact hw.no_response (hi.phase.outstanding_waiting hs)

/-- The record just opened has no writes. -/
theorem writes_start (hw : Protocol σ w) (h4 : (w.wrCsrs 4).en = true) :
    ((PartitionRun.start σ.csrs (w.wrCsrs 4).data).observe σ.afu w (σ.afu.step w)).writes = [] := by
  obtain ⟨hs, _⟩ := hw.announce h4
  have h1 : (σ.afu.step w).c1Valid = false := by
    rw [step_c1Valid hw, hs]
    rfl
  exact observe_writes_quiet h1

end Post

/-! ## Where the writes go -/

/-- Writes go to the result address of their partition, which `write_buff_address` holds from the first line on. -/
structure Addressed (σ : Sys) : Prop where
  writes : ∀ p ∈ σ.runs, ∀ r ∈ p.writes, r.hdr.address = p.result + r.hdr.mdata.setWidth 42
  tracks : ∀ p ∈ σ.cur, p.processed = false → p.result = csrClAddr ((σ.csrs 5).getD 0)
  given : ∀ p ∈ σ.cur, p.processed = false → p.lines ≠ [] → (σ.csrs 5).isSome = true

section Address
variable {σ : Sys} {w : Wires} {p : PartitionRun}

theorem observe_result {s s' : ScanAfu} (h : p.processed = true ∨ (w.wrCsrs 5).en = false) :
    (p.observe s w s').result = p.result := by
  rcases h with h | h <;> simp [PartitionRun.observe, h]

theorem Addressed.held (h : Addressed σ) (hi : Inv σ) (hc : σ.cur = some p) (ho : p.processed = false)
    (hl : p.lines ≠ []) : σ.afu.writeBuffAddress = p.result := by
  obtain ⟨v, hv⟩ := Option.isSome_iff_exists.mp (h.given p hc ho hl)
  rw [h.tracks p hc ho, hi.fed.writeBuffAddress v hv, hv]
  rfl

theorem Addressed.step (h : Addressed σ) (hi : Inv σ) (hw : Protocol σ w) (hf : ResultFirst σ w) :
    Addressed (σ.step w) := by
  have hres : ∀ p, σ.cur = some p → p.processed = true ∨ p.lines ≠ [] →
      ∀ s', (p.observe σ.afu w s').result = p.result := by
    intro p hc hor s'
    cases ho : p.processed
    · rw [ho] at hor
      have hl := hor.resolve_left (by simp)
      exact observe_result (.inr ((hf p hc ho).2 (.inr hl)))
    · exact observe_result (.inl ho)
  refine ⟨?_, ?_, ?_⟩
  · intro q hq r hr
    rcases mem_runs_step hq with ⟨p, hc, rfl⟩ | ⟨h4, rfl⟩ | hold
    · have hp : p ∈ σ.runs := List.mem_append_right _ (Option.mem_toList.mpr hc)
      rcases mem_writes_observe hi hw hc hr with hr | ⟨_, _, _, k, ha, hpr, he⟩
      · rw [hres p hc (.inr (hi.lines_of_writes hp hr)), h.writes p hp r hr]
      · have hl : p.lines ≠ [] := by
          apply List.ne_nil_of_length_pos
          rw [hpr.lines]
          exact Nat.succ_pos k
        have hk := ha.lt.trans hpr.lt
        rw [hres p hc (.inr hl), he, h.held hi hc ha.fresh hl,
          BitVec.setWidth_ofNat_of_le_of_lt (by omega) (by omega)]
    · rw [writes_start hw h4] at hr
      cases hr
    · exact h.writes q hold r hr
  · intro q hq ho
    obtain ⟨p, hc, rfl⟩ := cur_step hq
    have ho' : p.processed = false := processed_of_observe ho
    have hp : p.result = csrClAddr ((σ.csrs 5).getD 0) := by
      rcases hc with ⟨_, hc⟩ | ⟨_, rfl⟩
      · exact h.tracks p hc ho'
      · rfl
    cases h5 : (w.wrCsrs 5).en <;> simp [PartitionRun.observe, Sys.step, h5, ho', hp]
  · intro q hq ho hl
    obtain ⟨p, hc, rfl⟩ := cur_step hq
    have ho' : p.processed = false := processed_of_observe ho
    suffices (σ.csrs 5).isSome = true by
      simp only [Sys.step]
      split
      · rfl
      · exact this
    rcases hc with ⟨h4, hc⟩ | ⟨h4, rfl⟩
    · by_cases hn : p.lines = []
      · cases hr : w.readRsp with
        | none => exact absurd ((observe_lines_quiet hr).trans hn) hl
        | some d => exact (hf p hc ho').1 (by rw [hr]; rfl)
      · exact h.given p hc ho' hn
    · have hr := hi.no_response_waiting hw h4
      exact absurd (observe_lines_quiet hr) hl

end Address

theorem addressed_of_reachable {σ : Sys} (h : Reachable (scanSystem.when ResultFirst) σ) : Addressed σ := by
  refine Reachable.invariant (P := Addressed) ?_ ?_ h
  · intro σ h0
    have hb : Booted σ := h0
    refine ⟨?_, ?_, ?_⟩ <;> simp [Sys.runs, hb.past, hb.cur]
  · intro σ w hr ha hw
    exact ha.step (inv_of_reachable hr.of_when) hw.1 hw.2

/-! ## The requests of a partition -/

/-- The write request that belongs to line `i` of partition `p`. -/
def PartitionRun.resultWrite (p : PartitionRun) (i : Nat) : WriteReq where
  hdr := ⟨BitVec.ofNat 16 i, p.result + BitVec.ofNat 42 i⟩
  data := scanLine p.column p.pred (p.lines.getD i 0)

/-- Below 128 lines no two addresses coincide. -/
theorem lineOffset_inj (b : ClAddr) {i j : Nat} (hi : i < 128) (hj : j < 128)
    (h : b + BitVec.ofNat 42 i = b + BitVec.ofNat 42 j) : i = j := by
  have hn := congrArg BitVec.toNat ((BitVec.add_right_inj b).mp h)
  rw [BitVec.toNat_ofNat, BitVec.toNat_ofNat] at hn
  omega

theorem lineAddrs_nodup (p : PartitionRun) {r : Nat} (hr : r ≤ 128) : (p.lineAddrs r).Nodup := by
  apply List.Nodup.map_on _ List.nodup_range
  intro i hi j hj he
  have hlt := List.mem_range.mp hi
  have hlt' := List.mem_range.mp hj
  exact lineOffset_inj p.base (by omega) (by omega) he

theorem lineAddrs_prefix (p : PartitionRun) {r n : Nat} (hr : r ≤ n) : p.lineAddrs r <+: p.lineAddrs n := by
  obtain ⟨d, rfl⟩ := Nat.exists_eq_add_of_le hr
  unfold PartitionRun.lineAddrs
  rw [List.range_add, List.map_append]
  exact List.prefix_append _ _

/-- The writes of a partition are the result lines of an increasing list of indices. -/
theorem Addressed.writes_eq {σ : Sys} (h : Addressed σ) {p : PartitionRun} (hp : p ∈ σ.runs) {r l k : Nat}
    (hk : k ≤ p.cls) (hpr : Progress p r l k) : ∃ is : List Nat, is.Sublist (List.range k) ∧
      (p.swallowed = false ↔ is = List.range k) ∧ p.writes = is.map p.resultWrite := by
  obtain ⟨_, hlt, _, _, _, _, is, hsub, hsw, hw⟩ := hpr
  refine ⟨is, hsub, hsw, ?_⟩
  let untag : BitVec 16 × ClData → WriteReq := fun t => ⟨⟨t.1, p.result + t.1.setWidth 42⟩, t.2⟩
  have hback : (p.writes.map WriteReq.tagged).map untag = p.writes := by
    rw [List.map_map]
    refine (List.map_congr_left ?_).trans (List.map_id _)
    intro r hr
    have he := h.writes p hp r hr
    obtain ⟨⟨m, a⟩, d⟩ := r
    simp only at he
    rw [he]
    rfl
  rw [← hback, hw, List.map_map]
  apply List.map_congr_left
  intro i hi
  have hik := List.mem_range.mp (hsub.subset hi)
  have hwide : (BitVec.ofNat 16 i).setWidth 42 = BitVec.ofNat 42 i :=
    BitVec.setWidth_ofNat_of_le_of_lt (by omega) (by omega)
  simp only [Function.comp_apply, untag, PartitionRun.post, hwide]
  rfl

/-- Whatever the back-pressure and the latency: for every announced partition the read requests are at every moment
a prefix of its lines, each once and never with another outstanding, all of them when it is processed; its writes
are result lines of lines it has read, in order and each at most once. -/
theorem reads_and_writes {σ : Sys} (h : Reachable (scanSystem.when ResultFirst) σ) :
    (σ.afu.c0Valid = true → σ.outstanding = 0 ∧ σ.cur.isSome = true) ∧
    (σ.afu.c1Valid = true → σ.cur.isSome = true) ∧
    ∀ p ∈ σ.runs, p.reads <+: p.lineAddrs p.cls ∧ p.reads.Nodup ∧
      (p.processed = true → p.reads = p.lineAddrs p.cls) ∧
      ∃ is : List Nat, is.Sublist (List.range p.cls) ∧ (∀ i ∈ is, i < p.lines.length) ∧
        p.writes = is.map p.resultWrite := by
  have hi := inv_of_reachable h.of_when
  have had := addressed_of_reachable h
  refine ⟨hi.phase.of_c0Valid, hi.phase.of_c1Valid, ?_⟩
  · intro p hp
    have key : ∀ {r l k : Nat}, k ≤ l → l ≤ r → r ≤ p.cls → Progress p r l k →
        p.reads <+: p.lineAddrs p.cls ∧ p.reads.Nodup ∧ ∃ is : List Nat, is.Sublist (List.range p.cls) ∧
          (∀ i ∈ is, i < p.lines.length) ∧ p.writes = is.map p.resultWrite := by
      intro r l k hk hl hr hpr
      have hlt := hpr.lt
      obtain ⟨is, hsub, _, hw⟩ := had.writes_eq hp (by omega) hpr
      refine ⟨?_, ?_, is, hsub.trans (List.range_sublist.mpr (by omega)), ?_, hw⟩
      · rw [hpr.reads]
        exact lineAddrs_prefix p hr
      · rw [hpr.reads]
        exact lineAddrs_nodup p (by omega)
      · intro i his
        have := List.mem_range.mp (hsub.subset his)
        rw [hpr.lines]
        omega
    rcases hi.progress hp with hcomp | ⟨ho, r, l, k, hk, hl, hr, hpr⟩
    · obtain ⟨ha, hb, hc⟩ := key le_rfl le_rfl le_rfl hcomp.progress
      exact ⟨ha, hb, fun _ => hcomp.progress.reads, hc⟩
    · obtain ⟨ha, hb, hc⟩ := key hk hl hr hpr
      exact ⟨ha, hb, fun hd => absurd (hd.symm.trans ho) (by simp), hc⟩

theorem reads_and_writes_one_line :
    let σ := scanSystem.run .boot (paramScript 1 3 0 ++ [.csr 5 0x1000] ++ lineScript 0x40 0x123 .quiet)
    (σ.afu.c0Valid = true → σ.outstanding = 0 ∧ σ.cur.isSome = true) ∧
    (σ.afu.c1Valid = true → σ.cur.isSome = true) ∧
    ∀ p ∈ σ.runs, p.reads <+: p.lineAddrs p.cls ∧ p.reads.Nodup ∧
      (p.processed = true → p.reads = p.lineAddrs p.cls) ∧
      ∃ is : List Nat, is.Sublist (List.range p.cls) ∧ (∀ i ∈ is, i < p.lines.length) ∧
        p.writes = is.map p.resultWrite :=
  reads_and_writes (Reachable.run (S := scanSystem.when ResultFirst) (.init booted_boot) (by decide +kernel))

/-! ## Refused writes -/

/-- A processed partition has a write for every line exactly when the channel never refused one. -/
theorem all_posted_iff {σ : Sys} (h : Reachable (scanSystem.when ResultFirst) σ) {p : PartitionRun}
    (hp : p ∈ σ.runs) (hd : p.processed = true) :
    (∀ i < p.cls, ∃ r ∈ p.writes, r.hdr.address = p.result + BitVec.ofNat 42 i) ↔ p.swallowed = false := by
  have hi := inv_of_reachable h.of_when
  have hpr : Progress p p.cls p.cls p.cls := by
    rcases hi.progress hp with hcomp | ⟨ho, _⟩
    · exact hcomp.progress
    · rw [ho] at hd
      cases hd
  have hlt := hpr.lt
  obtain ⟨is, hsub, hsw, hw⟩ := (addressed_of_reachable h).writes_eq hp le_rfl hpr
  rw [hsw, hw]
  constructor
  · intro hall
    have hincl : List.range p.cls ⊆ is := by
      intro i hir
      have hilt := List.mem_range.mp hir
      obtain ⟨r, hr, he⟩ := hall i hilt
      obtain ⟨j, hj, rfl⟩ := List.mem_map.mp hr
      have hjlt := List.mem_range.mp (hsub.subset hj)
      have hij : j = i := lineOffset_inj p.result (by omega) (by omega) he
      rwa [hij] at hj
    exact hsub.eq_of_length_le (List.subperm_of_subset List.nodup_range hincl).length_le
  · rintro rfl i hilt
    exact ⟨_, List.mem_map.mpr ⟨i, List.mem_range.mpr hilt, rfl⟩, rfl⟩

/-- The channel takes the line in a cycle in which the unit leaves `STATE_PROCESSING`. -/
def PostTaken (σ : Sys) (w : Wires) : Prop :=
  σ.afu.state = .processing → σ.afu.units.clProcessed = true → w.c1TxAlmFull = false

instance (σ : Sys) (w : Wires) : Decidable (PostTaken σ w) :=
  inferInstanceAs (Decidable (σ.afu.state = .processing → σ.afu.units.clProcessed = true → w.c1TxAlmFull = false))

theorem swallowed_of_taken {σ : Sys} (h : Reachable (scanSystem.when PostTaken) σ) :
    ∀ p ∈ σ.runs, p.swallowed = false := by
  refine Reachable.invariant (P := fun σ => ∀ p ∈ σ.runs, p.swallowed = false) ?_ ?_ h
  · intro σ h0
    have hb : Booted σ := h0
    simp [Sys.runs, hb.past, hb.cur]
  · intro σ w _ ih hw q hq
    have hobs : ∀ p : PartitionRun, p.swallowed = false →
        (p.observe σ.afu w (σ.afu.step w)).swallowed = false := by
      intro p hp
      have ht := hw.2
      simp only [PartitionRun.observe, hp, Bool.false_or, Bool.and_eq_false_iff, decide_eq_false_iff_not]
      by_cases hs : σ.afu.state = .processing
      · cases hu : σ.afu.units.clProcessed
        · exact .inl (.inr rfl)
        · exact .inr (ht hs hu)
      · exact .inl (.inl hs)
    rcases mem_runs_step hq with ⟨p, hc, rfl⟩ | ⟨_, rfl⟩ | hold
    · exact hobs p (ih p (List.mem_append_right _ (Option.mem_toList.mpr hc)))
    · exact hobs _ rfl
    · exact ih q hold

/-- In a run in which the channel takes every line, no result line of a processed partition is missing. -/
theorem no_line_lost {σ : Sys} (h : Reachable (scanSystem.when fun σ w => ResultFirst σ w ∧ PostTaken σ w) σ) :
    ∀ p ∈ σ.runs, p.processed = true →
      ∀ i < p.cls, ∃ r ∈ p.writes, r.hdr.address = p.result + BitVec.ofNat 42 i := by
  intro p hp hd
  have hsw := swallowed_of_taken (h.weaken fun _ _ hc => hc.2) p hp
  exact (all_posted_iff (h.weaken fun _ _ hc => hc.1) hp hd).mpr hsw

theorem no_line_lost_one_line :
    let σ := scanSystem.run .boot (paramScript 1 3 0 ++ [.csr 5 0x1000] ++ lineScript 0x40 0x123 .quiet)
    ∀ p ∈ σ.runs, p.processed = true →
      ∀ i < p.cls, ∃ r ∈ p.writes, r.hdr.address = p.result + BitVec.ofNat 42 i :=
  no_line_lost (Reachable.run (S := scanSystem.when fun σ w => ResultFirst σ w ∧ PostTaken σ w)
    (.init booted_boot) (by decide +kernel))

/-- A channel almost full in the one cycle in which the line is due: the partition is processed without a write. -/
theorem line_lost_when_refused : ¬ ∀ σ, Reachable (scanSystem.when ResultFirst) σ → ∀ p ∈ σ.runs,
    p.processed = true → ∀ i < p.cls, ∃ r ∈ p.writes, r.hdr.address = p.result + BitVec.ofNat 42 i := by
  intro h
  let ws := paramScript 1 3 0 ++ [.csr 5 0x1000] ++ lineScript 0x40 0x123 { Wires.quiet with c1TxAlmFull := true }
  have hr : Reachable (scanSystem.when ResultFirst) (scanSystem.run .boot ws) :=
    Reachable.run (S := scanSystem.when ResultFirst) (.init booted_boot) (by decide +kernel)
  have key : ∃ p ∈ (scanSystem.run .boot ws).runs, p.processed = true ∧ p.cls = 1 ∧ p.writes = [] := by
    decide +kernel
  obtain ⟨p, hp, hd, hcls, hw⟩ := key
  obtain ⟨r, hr', _⟩ := h _ hr p hp hd 0 (by rw [hcls]; exact Nat.one_pos)
  rw [hw] at hr'
  cases hr'

/-! ## The exported flag -/

/-- While `partition_processed` is 1, no write is without its response. -/
def Delivered (σ : Sys) : Prop := σ.afu.partitionProcessed = true → σ.unacked = 0

/-- In the cycle that processes the last line of a partition the line is refused and no other write is without its
response after this cycle's. -/
def LastDelivered (σ : Sys) (w : Wires) : Prop :=
  σ.afu.state = .processing → σ.afu.units.clProcessed = true →
    σ.afu.totalClsProcessed + 1 = σ.afu.totalCls.setWidth 32 →
    w.c1TxAlmFull = true ∧ σ.unacked ≤ if w.writeRsp then 1 else 0

theorem delivered_step {σ : Sys} {w : Wires} (hi : Inv σ) (hd : Delivered σ) (hw : Protocol σ w) :
    Delivered (σ.step w) ↔ LastDelivered σ w := by
  have hun : (σ.step w).unacked
      = σ.unacked - (if w.writeRsp then 1 else 0) + (if (σ.afu.step w).c1Valid then 1 else 0) := rfl
  by_cases hpost : σ.afu.state = .processing ∧ σ.afu.units.clProcessed = true
  · obtain ⟨hs, hu⟩ := hpost
    obtain ⟨p, k, ha, _⟩ := hi.posting hs hu
    have e := step_processing_post hw.noReset ha.ready hs hu
    have hf : (σ.step w).afu.partitionProcessed = true ↔
        σ.afu.totalClsProcessed + 1 = σ.afu.totalCls.setWidth 32 := by
      show (σ.afu.step w).partitionProcessed = true ↔ _
      rw [e]
      exact beq_iff_eq
    unfold Delivered LastDelivered
    rw [hf, hun, step_c1Valid hw, hs, hu]
    cases w.c1TxAlmFull <;> simp [Nat.sub_eq_zero_iff_le]
  · have h1 : (σ.afu.step w).c1Valid = false := by
      rw [step_c1Valid hw, Bool.and_eq_false_iff, Bool.and_eq_false_iff]
      by_cases hs : σ.afu.state = .processing
      · have hu : σ.afu.units.clProcessed = false := by
          rw [Bool.eq_false_iff]
          exact fun hu => hpost ⟨hs, hu⟩
        exact .inl (.inr hu)
      · exact .inl (.inl (decide_eq_false hs))
    have hf : (σ.afu.step w).partitionProcessed = true → σ.afu.partitionProcessed = true := by
      simp only [ScanAfu.step, ScanAfu.mainLogic, hw.noReset, Bool.false_eq_true, if_false, if_neg hpost]
      intro hf
      split at hf
      · cases hf
      · split at hf
        · cases hf
        · split at hf <;> exact hf
    constructor
    · intro _ hs hu
      exact absurd ⟨hs, hu⟩ hpost
    · intro _ hf'
      rw [hun, h1, hd (hf hf')]
      simp

/-- Along a run the flag never precedes a delivery exactly when every partition's last line is refused with all its
other writes answered. -/
theorem delivered_along_iff {σ : Sys} {ws : List Wires} (hb : Booted σ)
    (ha : scanSystem.Steps scanSystem.permits σ ws) :
    scanSystem.Along Delivered σ ws ↔ scanSystem.Steps LastDelivered σ ws := by
  refine along_iff_steps (P := Delivered) (C := LastDelivered) ?_ (Reachable.init hb) ?_ ha
  · intro σ w hr hd hw
    exact delivered_step (inv_of_reachable hr) hd hw
  · intro _
    exact hb.unacked

theorem delivered_along_iff_one_line :
    let ws := paramScript 1 3 0 ++ [.csr 5 0x1000] ++ lineScript 0x40 0x123 .quiet
    scanSystem.Along Delivered .boot ws ↔ scanSystem.Steps LastDelivered .boot ws :=
  delivered_along_iff booted_boot (by decide +kernel)

/-- The flag of a one-line partition is up in the cycle in which its write is issued. -/
theorem flag_before_delivery : ¬ ∀ σ, Reachable scanSystem σ → Delivered σ := by
  intro h
  let ws := paramScript 1 3 0 ++ [.csr 5 0x1000] ++ lineScript 0x40 0x123 .quiet
  have hr : Reachable scanSystem (scanSystem.run .boot ws) :=
    Reachable.run (.init booted_boot) (by decide +kernel)
  have key : (scanSystem.run .boot ws).afu.partitionProcessed = true ∧ (scanSystem.run .boot ws).unacked = 1 := by
    decide +kernel
  have := h _ hr key.1
  rw [key.2] at this
  cases this

end SdbFpga.Fpga
