import SdbFpga.Fpga.DpScanInvariant

/-!
# Which partition sizes the data-parallel `scan_afu` finishes

* `finishes_of_current` : up to 64 lines the counter never wraps;
* `Visits`, `Visits.step`, `Visits.pass` : the point of the handshake that some run reaches, and the next one;
* `exists_passes`, `never_processed` : with more than 64 lines a run goes on for ever;
* `finishes_iff` : the sizes that are finished.
-/

namespace SdbFpga.Fpga
open Transition

/-! ## Sizes that are finished -/

section Finishes
variable {σ : DpSys} {pt : DpPoint} {p : DpRun} {k : Nat}

theorem wrapAddrs_eq (base : ClAddr) {n : Nat} (hn : n ≤ 64) :
    wrapAddrs base n = (List.range n).map fun i => base + BitVec.ofNat 42 i := by
  apply List.map_congr_left
  intro i hi
  have hlt := List.mem_range.mp hi
  rw [Nat.mod_eq_of_lt (by omega)]

theorem nodup_wrapAddrs (base : ClAddr) {n : Nat} (hn : n ≤ 64) : (wrapAddrs base n).Nodup := by
  rw [wrapAddrs_eq base hn]
  refine List.Nodup.map_on ?_ List.nodup_range
  intro i hi j hj heq
  rw [List.mem_range] at hi hj
  have hoff := congrArg BitVec.toNat (BitVec.add_right_inj base |>.mp heq)
  simp only [BitVec.toNat_ofNat] at hoff
  omega

theorem DpPoint.asked_le (pt : DpPoint) : pt.asked ≤ if pt.busy then 1 else 0 := by
  cases pt <;> simp [DpPoint.asked, DpPoint.busy]

/-- Up to 64 lines no more are requested than there are. -/
theorem DpCurrent.asked_le_cls (h : DpCurrent σ pt p k) (hcls : p.cls ≤ 64) : k + pt.asked ≤ p.cls := by
  have hasked := pt.asked_le
  cases hb : pt.busy with
  | true =>
    have hlt := h.count hb hcls
    rw [hb] at hasked
    change pt.asked ≤ 1 at hasked
    omega
  | false =>
    have heq := (h.complete hb).2
    rw [hb] at hasked
    change pt.asked ≤ 0 at hasked
    omega

/-- Back in `STATE_WAITING`, with nothing announced. -/
theorem DpControl.busy_of_waiting (h : DpControl σ pt) (hs : σ.afu.state = .waiting)
    (hn : σ.afu.newPartitionReady = false) : pt.busy = false := by
  rw [h.state] at hs
  rw [h.newPartitionReady, decide_eq_false_iff_not] at hn
  cases pt with
  | waiting => rfl
  | announced => exact absurd rfl hn
  | _ => cases hs

theorem finishes_of_current (hc : DpControl σ pt) (h : DpCurrent σ pt p k) (hcls : p.cls ≤ 64) : Finishes σ := by
  have hcount := h.asked_le_cls hcls
  have hlen : p.handled.length = k := by rw [h.handled, length_wrapAddrs]
  have hcur : ∀ q ∈ σ.cur, q = p := by
    intro q hq
    rw [h.cur] at hq
    exact (Option.mem_some.mp hq).symm
  refine ⟨?_, ?_, ?_, ?_, ?_⟩ <;> intro q hq <;> obtain rfl := hcur q hq
  · rw [hlen, h.handled, wrapAddrs_eq q.base (by omega)]
  · rw [h.reads]
    exact nodup_wrapAddrs q.base (by omega)
  · omega
  · intro hk
    apply h.rest
    by_contra hb
    have hlt := h.count (Bool.eq_true_of_not_eq_false hb) hcls
    omega
  · intro hs hn
    rw [hlen, (h.complete (hc.busy_of_waiting hs hn)).2]

/-- Every announced partition has one of the sizes. -/
theorem cls_of_reachable {sizes : BitVec 7 → Prop} (h : Reachable (dpSystem.when (Announces sizes)) σ) :
    ∀ p ∈ σ.cur, ∃ n, sizes n ∧ n ≠ 0 ∧ p.cls = n.toNat := by
  refine h.invariant (P := fun σ => ∀ p ∈ σ.cur, ∃ n, sizes n ∧ n ≠ 0 ∧ p.cls = n.toNat) ?_ ?_
  · intro σ h0 p hp
    rw [h0.cur] at hp
    cases hp
  · rintro σ w _ hσ ⟨hw, hsizes⟩ q hq
    obtain ⟨p, hp, rfl⟩ := Option.mem_map.mp hq
    by_cases h4 : (w.wrCsrs 4).en = true
    · rw [if_pos h4] at hp
      obtain rfl := Option.mem_some.mp hp
      exact ⟨σ.afu.totalCls, hsizes h4, (hw.announce h4).2.2, rfl⟩
    · rw [if_neg h4] at hp
      exact hσ p hp

theorem finishes_of_reachable {sizes : BitVec 7 → Prop} (hsizes : ∀ n, sizes n → n ≠ 0 → n.toNat ≤ 64)
    (h : Reachable (dpSystem.when (Announces sizes)) σ) : Finishes σ := by
  have hcls := cls_of_reachable h
  obtain ⟨pt, hc, ⟨-, hnone⟩ | ⟨p, k, hp⟩⟩ := dpInv_of_reachable h.of_when
  · constructor <;> simp [hnone]
  · obtain ⟨n, hn, hne, heq⟩ := hcls p hp.cur
    have hle := hsizes n hn hne
    exact finishes_of_current hc hp (by omega)

/-- With more than 64 lines `partition_processed` stays 0. -/
theorem never_processed (h : Reachable dpSystem σ) (hp : p ∈ σ.cur) (hcls : 64 < p.cls) : p.processed = false := by
  obtain ⟨pt, -, ⟨-, hnone⟩ | ⟨q, k, hq⟩⟩ := dpInv_of_reachable h
  · rw [hnone] at hp
    cases hp
  · rw [hq.cur] at hp
    obtain rfl := Option.mem_some.mp hp
    have hbusy : pt.busy = true := by
      by_contra hb
      have hle := (hq.complete (Bool.eq_false_of_not_eq_true hb)).1
      omega
    rw [hq.processed, hbusy]
    rfl

end Finishes

/-! ## Sizes that are not -/

/-- Some run is at this point of a partition of `cls` lines, after `k` passes. -/
def Visits (S : System DpSys DpWires) (cls : Nat) (pt : DpPoint) (k : Nat) : Prop :=
  ∃ σ p, Reachable S σ ∧ DpControl σ pt ∧ DpCurrent σ pt p k ∧ p.cls = cls

section Visits
variable {sizes : BitVec 7 → Prop} {cls k : Nat} {pt : DpPoint}

theorem reachable_step {σ : DpSys} {w : DpWires} (h : Reachable (dpSystem.when (Announces sizes)) σ)
    (hw : DpProtocol σ w) (hs : Announces sizes σ w) : Reachable (dpSystem.when (Announces sizes)) (σ.step w) :=
  h.step (i := w) ⟨hw, hs⟩

theorem DpPoint.next_of_not_passes (w : DpWires) (last last' : Bool) (h : pt.passes = false) :
    pt.next w last = pt.next w last' := by
  cases pt <;> grind [DpPoint.next, DpPoint.passes]

/-- A cycle that writes no CSR and answers at most what is awaited. -/
theorem Visits.step (h : Visits (dpSystem.when (Announces sizes)) cls pt k) (hcls : 64 < cls) (w : DpWires)
    (hreset : w.reset = false) (hcsr : ∀ i, (w.wrCsrs i).en = false) (hrsp : w.readRsp.isSome = true → pt = .awaiting) :
    Visits (dpSystem.when (Announces sizes)) cls (pt.next w false) (k + pt.passes.toNat) := by
  obtain ⟨σ, p, hr, hc, hp, rfl⟩ := h
  have hw : DpProtocol σ w := by
    constructor
    · exact hreset
    · simp [hcsr]
    · exact fun _ => hcsr 0
    · intro hsome
      rw [hc.outstanding, if_pos (hrsp hsome)]
      exact Nat.one_pos
  have hnext : pt.next w σ.last = pt.next w false := by
    cases hpass : pt.passes with
    | false => exact DpPoint.next_of_not_passes w _ _ hpass
    | true =>
      rw [(hp.compare hpass).1, decide_eq_false (by omega)]
  have hc' := hp.control_step hc hw
  have hp' := hp.step hc hw (hcsr 4)
  rw [hnext] at hc' hp'
  refine ⟨σ.step w, _, reachable_step hr hw ?_, hc', hp', rfl⟩
  intro h4
  rw [hcsr 4] at h4
  cases h4

theorem Visits.quiet (h : Visits (dpSystem.when (Announces sizes)) cls pt k) (hcls : 64 < cls) :
    Visits (dpSystem.when (Announces sizes)) cls (pt.next .quiet false) (k + pt.passes.toNat) :=
  h.step hcls .quiet rfl (fun _ => rfl) (fun hsome => by cases hsome)

/-- The slices are done one after the other. -/
theorem Visits.filtering (h : Visits (dpSystem.when (Announces sizes)) cls (.filtering 0) k) (hcls : 64 < cls)
    {j : Nat} (hj : j ≤ 8) : Visits (dpSystem.when (Announces sizes)) cls (.filtering j) k := by
  induction j with
  | zero => exact h
  | succ j ih =>
    have hnext := (ih (by omega)).quiet hcls
    have hlt : ¬ 8 ≤ j := by omega
    simpa [DpPoint.next, DpPoint.passes, hlt] using hnext

/-- One pass. -/
theorem Visits.pass (h : Visits (dpSystem.when (Announces sizes)) cls .idle k) (hcls : 64 < cls) :
    Visits (dpSystem.when (Announces sizes)) cls .idle (k + 1) := by
  have hrequested := (h.quiet hcls).quiet hcls
  have hawaiting := hrequested.quiet hcls
  have hreceived := hawaiting.step hcls (.respond 0) rfl (fun _ => rfl) (fun _ => rfl)
  have hfiltering := hreceived.quiet hcls
  exact (hfiltering.filtering hcls (Nat.le_refl 8)).quiet hcls

/-- `total_cls` is written and a partition announced. -/
theorem visits_idle {n : BitVec 7} (hn : sizes n) (hne : n ≠ 0) :
    Visits (dpSystem.when (Announces sizes)) n.toNat .idle 0 := by
  have hboot : Reachable (dpSystem.when (Announces sizes)) DpSys.boot := .init dpBooted_boot
  have hc := dpBooted_boot.control
  have hw0 : DpProtocol DpSys.boot (.csr 0 (n.setWidth 64)) := by
    constructor <;> simp [DpWires.csr, DpWires.quiet, DpSys.busy, DpSys.boot]
  have hc' : DpControl (DpSys.boot.step (.csr 0 (n.setWidth 64))) .waiting :=
    hc.step hw0 (fun hpass => by cases hpass)
  have hcls : (DpSys.boot.step (.csr 0 (n.setWidth 64))).afu.totalCls = n := by
    show (n.setWidth 64).setWidth 7 = n
    rw [BitVec.setWidth_setWidth_of_le _ (by decide), BitVec.setWidth_eq]
  have hr0 := reachable_step hboot hw0 (fun h4 => by cases h4)
  have hw4 : DpProtocol (DpSys.boot.step (.csr 0 (n.setWidth 64))) (.csr 4 0) := by
    constructor
    · rfl
    · exact fun _ => ⟨hc'.state, hc'.newPartitionReady, by rw [hcls]; exact hne⟩
    · exact fun _ => rfl
    · exact fun hsome => by cases hsome
  have hp := dpCurrent_start hc' hw4 rfl
  have hr4 := reachable_step hr0 hw4 (fun _ => by rw [hcls]; exact hn)
  have hc4 := hc'.step hw4 (fun hpass => by cases hpass)
  have hw : DpProtocol ((DpSys.boot.step (.csr 0 (n.setWidth 64))).step (.csr 4 0)) .quiet := by
    constructor
    · rfl
    · exact fun h4 => by cases h4
    · exact fun _ => rfl
    · exact fun hsome => by cases hsome
  exact ⟨_, _, reachable_step hr4 hw (fun h4 => by cases h4), hp.control_step hc4 hw, hp.step hc4 hw rfl,
    congrArg BitVec.toNat hcls⟩

/-- As many passes as one likes. -/
theorem exists_passes {n : BitVec 7} (hn : sizes n) (hlarge : 64 < n.toNat) (k : Nat) :
    Visits (dpSystem.when (Announces sizes)) n.toNat .idle k := by
  induction k with
  | zero =>
    refine visits_idle hn ?_
    rintro rfl
    simp at hlarge
  | succ k ih => exact ih.pass hlarge

variable (sizes) in
/-- The first line is requested again after 64 passes. -/
theorem exists_requested_twice {n : BitVec 7} (hn : sizes n) (hlarge : 64 < n.toNat) :
    ∃ σ p, Reachable (dpSystem.when (Announces sizes)) σ ∧ p ∈ σ.cur ∧ p.cls = n.toNat ∧ p.handled.length = 64 ∧
      p.reads[64]? = some p.base ∧ p.reads[0]? = some p.base := by
  obtain ⟨σ, p, hr, -, hp, hcls⟩ := ((exists_passes hn hlarge 64).quiet hlarge).quiet hlarge
  have hreads : p.reads = wrapAddrs p.base 65 := hp.reads
  have hhandled : p.handled = wrapAddrs p.base 64 := hp.handled
  refine ⟨σ, p, hr, hp.cur, hcls, ?_, ?_, ?_⟩
  · rw [hhandled, length_wrapAddrs]
  · rw [hreads]
    simp [wrapAddrs]
  · rw [hreads]
    simp [wrapAddrs]

end Visits

theorem not_finishes_of_twice {σ : DpSys} {p : DpRun} (hp : p ∈ σ.cur) (h64 : p.reads[64]? = some p.base)
    (h0 : p.reads[0]? = some p.base) : ¬ Finishes σ := by
  intro hfin
  obtain ⟨hlt, -⟩ := List.getElem?_eq_some_iff.mp h64
  exact List.nodup_iff_getElem?_ne_getElem?.mp (hfin.once p hp) 0 64 (by decide) hlt (h0.trans h64.symm)

/-- The sizes that every run finishes are those up to 64. -/
theorem finishes_iff (sizes : BitVec 7 → Prop) :
    (∀ σ, Reachable (dpSystem.when (Announces sizes)) σ → Finishes σ) ↔ ∀ n, sizes n → n ≠ 0 → n.toNat ≤ 64 := by
  constructor
  · intro hfin n hn _
    by_contra hlarge
    obtain ⟨σ, p, hr, hp, -, -, h64, h0⟩ := exists_requested_twice sizes hn (by omega)
    exact not_finishes_of_twice hp h64 h0 (hfin σ hr)
  · intro hsizes σ hr
    exact finishes_of_reachable hsizes hr

/-- 65 lines: line 0 is requested twice, and the partition is not processed. -/
theorem not_finishes_65 : ∃ σ p, Reachable dpSystem σ ∧ p ∈ σ.cur ∧ p.cls = 65 ∧ p.reads[0]? = some p.base ∧
    p.reads[64]? = some p.base ∧ p.processed = false ∧ ¬ Finishes σ := by
  obtain ⟨σ, p, hr, hp, hcls, -, h64, h0⟩ :=
    exists_requested_twice (fun n => n = 65#7) rfl (by decide)
  have hcls' : p.cls = 65 := hcls
  exact ⟨σ, p, hr.of_when, hp, hcls', h0, h64, never_processed hr.of_when hp (by omega),
    not_finishes_of_twice hp h64 h0⟩

end SdbFpga.Fpga
