import SdbFpga.Host.ScanLoop

/-!
# The scan loop keeps to the protocol of `scan_afu`

While every poll is late enough, the announcements of the loop reach the unit only in `STATE_WAITING` with the
parameters in place, so the invariant of the unit holds in every run of the loop.

* `Clock`, `Move` : the phase of the host and its two counters, and what the host can do in a cycle;
* `Strobes h s f` : the CSR writes `f` decoded `s` cycles after the host sent them;
* `Answer h s a` : a read response sampled at stage `s`;
* `HostInv`, `hostInv_of_reachable` : the invariant of the loop; `HostInv.protocol` : the unit's protocol.
-/

namespace SdbFpga.Host
open Transition SdbFpga.Fpga

/-! ## The moves of the host -/

/-- The host's phase and the counters agree. -/
def Clock (h : HostSys) : Prop :=
  match h.phase with
  | .param _ => h.age = 0 ∧ h.resultAge = 0
  | .announce => h.age = 0 ∧ h.resultAge = 0
  | .result => 0 < h.age ∧ h.resultAge = 0 ∧ h.iter < h.work.length
  | .poll => h.resultAge < h.age ∧ 0 < h.resultAge ∧ h.iter < h.work.length

/-- The host after a cycle, and the request on its way. -/
structure Sent (h : HostSys) (c : HostCycle) (req : C0Rx Nat) (phase : HostPhase) (iter age resultAge : Nat) :
    Prop where
  c0Rx : (h.step c).csr.c0Rx = req
  phase : (h.step c).phase = phase
  iter : (h.step c).iter = iter
  age : (h.step c).age = age
  resultAge : (h.step c).resultAge = resultAge

/-- What the host does in a cycle. -/
inductive Move (h : HostSys) (c : HostCycle) : Prop
  | idle (hs : Sent h c (.none h.iter) h.phase h.iter (tick h.age false) (tick h.resultAge false))
  | param {k : Fin 3} (hp : h.phase = .param k) (hs : Sent h c (.writeCsr h.iter (k.castLE params_le) (h.param k))
      (if k = 2 then .announce else .param (k + 1)) h.iter 0 0)
  | announce {ar : MmioData × MmioData} (hp : h.phase = .announce) (hw : h.work[h.iter]? = some ar)
      (hs : Sent h c (.writeCsr h.iter 4 ar.1) .result h.iter 1 0)
  | result {ar : MmioData × MmioData} (hp : h.phase = .result) (hw : h.work[h.iter]? = some ar)
      (hs : Sent h c (.writeCsr h.iter 5 ar.2) .poll h.iter (h.age + 1) 1)
  | poll (hp : h.phase = .poll) (hact : c.act = true)
      (hs : Sent h c (.readCsr h.iter 1) .poll h.iter (h.age + 1) (h.resultAge + 1))
  | answered {req : C0Rx Nat} (ha : h.answered = true) (hreq : req = .none h.iter ∨ req = .readCsr h.iter 1)
      (hs : Sent h c req .announce (h.iter + 1) 0 0)

section Step
variable {h : HostSys} {c : HostCycle}

theorem Clock.param (hk : Clock h) {k : Fin 3} (hp : h.phase = .param k) : h.age = 0 ∧ h.resultAge = 0 := by
  unfold Clock at hk
  rwa [hp] at hk

theorem Clock.announce (hk : Clock h) (hp : h.phase = .announce) : h.age = 0 ∧ h.resultAge = 0 := by
  unfold Clock at hk
  rwa [hp] at hk

theorem Clock.result (hk : Clock h) (hp : h.phase = .result) :
    0 < h.age ∧ h.resultAge = 0 ∧ h.iter < h.work.length := by
  unfold Clock at hk
  rwa [hp] at hk

theorem Clock.poll (hk : Clock h) (hp : h.phase = .poll) :
    h.resultAge < h.age ∧ 0 < h.resultAge ∧ h.iter < h.work.length := by
  unfold Clock at hk
  rwa [hp] at hk

theorem answered_iff : h.answered = true ↔ h.phase = .poll ∧ h.csr.fiuC2Tx.mmioRdValid = true ∧
    h.csr.fiuC2Tx.tid = h.iter ∧ h.csr.fiuC2Tx.data ≠ 0 := by
  simp [HostSys.answered, and_assoc]

theorem tick_pos {n : Nat} (hn : 0 < n) : tick n false = n + 1 := by
  rw [tick, if_neg (by simp), if_neg (by omega)]

theorem Clock.move (hk : Clock h) : Move h c := by
  cases ha : h.answered
  · cases hact : c.act
    · exact .idle ⟨by simp [HostSys.step, CsrMgr.step, hact], by simp [HostSys.step, ha, hact],
        by simp [HostSys.step, ha], by simp [HostSys.step, ha, hact], by simp [HostSys.step, ha, hact]⟩
    · have hreq : (h.step c).csr.c0Rx = h.request := by simp [HostSys.step, CsrMgr.step, hact]
      have hphase : (h.step c).phase = h.nextPhase := by simp [HostSys.step, ha, hact]
      have hiter : (h.step c).iter = h.iter := by simp [HostSys.step, ha]
      have hage : (h.step c).age = tick h.age (h.phase = .announce && h.iter < h.work.length) := by
        simp [HostSys.step, ha, hact]
      have hres : (h.step c).resultAge = tick h.resultAge (h.phase = .result && h.iter < h.work.length) := by
        simp [HostSys.step, ha, hact]
      unfold HostSys.request at hreq
      unfold HostSys.nextPhase at hphase
      cases hp : h.phase with
      | param k =>
        rw [hp] at hreq hphase hage hres
        obtain ⟨h0, h0'⟩ := hk.param hp
        exact .param hp ⟨hreq, hphase, hiter, by rw [hage, h0]; rfl, by rw [hres, h0']; rfl⟩
      | announce =>
        rw [hp] at hreq hphase hage hres
        cases hw : h.work[h.iter]? with
        | none =>
          rw [hw] at hreq hphase
          have hlen : ¬ h.iter < h.work.length := by
            rw [not_lt]
            exact List.getElem?_eq_none_iff.mp hw
          exact .idle ⟨hreq, by rw [hp]; exact hphase, hiter, by rw [hage]; simp [hlen], by rw [hres]; simp⟩
        | some ar =>
          rw [hw] at hreq hphase
          have hlen := (List.getElem?_eq_some_iff.mp hw).1
          exact .announce hp hw ⟨hreq, hphase, hiter, by rw [hage]; simp [hlen, tick],
            by rw [hres, (hk.announce hp).2]; rfl⟩
      | result =>
        rw [hp] at hreq hphase hage hres
        obtain ⟨hpos, h0, hlen⟩ := hk.result hp
        have hw := List.getElem?_eq_getElem hlen
        rw [hw] at hreq hphase
        exact .result hp hw ⟨hreq, hphase, hiter, hage.trans (tick_pos hpos), by rw [hres]; simp [hlen, tick]⟩
      | poll =>
        rw [hp] at hreq hphase hage hres
        obtain ⟨hlt, hpos, hlen⟩ := hk.poll hp
        rw [List.getElem?_eq_getElem hlen] at hreq hphase
        exact .poll hp hact ⟨hreq, hphase, hiter, hage.trans (tick_pos (by omega)), hres.trans (tick_pos hpos)⟩
  · have hreq : (h.step c).csr.c0Rx = .none h.iter ∨ (h.step c).csr.c0Rx = .readCsr h.iter 1 := by
      obtain ⟨hp, _⟩ := answered_iff.mp ha
      obtain ⟨_, _, hlen⟩ := hk.poll hp
      cases hact : c.act
      · exact .inl (by simp [HostSys.step, CsrMgr.step, hact])
      · refine .inr ?_
        simp [HostSys.step, CsrMgr.step, hact, HostSys.request, hp, List.getElem?_eq_getElem hlen]
    exact .answered ha hreq ⟨rfl, by simp [HostSys.step, ha], by simp [HostSys.step, ha], by simp [HostSys.step, ha],
      by simp [HostSys.step, ha]⟩

theorem Clock.step (hk : Clock h) : Clock (h.step c) := by
  have hw : (h.step c).work = h.work := rfl
  have hmove := hk.move (c := c)
  unfold Clock
  rw [hw]
  cases hmove with
  | idle hs =>
    rw [hs.phase, hs.iter, hs.age, hs.resultAge]
    cases hp : h.phase with
    | param k =>
      obtain ⟨h0, h0'⟩ := hk.param hp
      rw [h0, h0']
      exact ⟨rfl, rfl⟩
    | announce =>
      obtain ⟨h0, h0'⟩ := hk.announce hp
      rw [h0, h0']
      exact ⟨rfl, rfl⟩
    | result =>
      obtain ⟨hpos, h0, hlen⟩ := hk.result hp
      rw [tick_pos hpos, h0]
      exact ⟨Nat.succ_pos _, rfl, hlen⟩
    | poll =>
      obtain ⟨hlt, hpos, hlen⟩ := hk.poll hp
      rw [tick_pos hpos, tick_pos (by omega)]
      exact ⟨by omega, Nat.succ_pos _, hlen⟩
  | @param k hp hs =>
    rw [hs.phase, hs.iter, hs.age, hs.resultAge]
    by_cases hk2 : k = 2
    · rw [if_pos hk2]
      exact ⟨rfl, rfl⟩
    · rw [if_neg hk2]
      exact ⟨rfl, rfl⟩
  | announce hp hget hs =>
    rw [hs.phase, hs.iter, hs.age, hs.resultAge]
    exact ⟨Nat.one_pos, rfl, (List.getElem?_eq_some_iff.mp hget).1⟩
  | result hp hget hs =>
    obtain ⟨hpos, _, hlen⟩ := hk.result hp
    rw [hs.phase, hs.iter, hs.age, hs.resultAge]
    exact ⟨by omega, Nat.one_pos, hlen⟩
  | poll hp _ hs =>
    obtain ⟨hlt, _, hlen⟩ := hk.poll hp
    rw [hs.phase, hs.iter, hs.age, hs.resultAge]
    exact ⟨by omega, Nat.succ_pos _, hlen⟩
  | answered _ _ hs =>
    rw [hs.phase, hs.age, hs.resultAge]
    exact ⟨rfl, rfl⟩

/-- A stage further down the pipeline, one cycle later. -/
theorem Move.shift (hk : Clock h) (hm : Move h c) {s : Nat} (hs : 0 < s)
    (ha : h.answered = true → s < h.resultAge ∧ s < h.age) :
    ((h.step c).age = s + 1 ↔ h.age = s) ∧ ((h.step c).resultAge = s + 1 ↔ h.resultAge = s) ∧
    (h.age < s → (h.step c).age < s + 1) ∧ (h.age = s ∨ h.resultAge = s → (h.step c).iter = h.iter) := by
  have htick : ∀ n, tick n false = if n = 0 then 0 else n + 1 := fun _ => rfl
  cases hm with
  | idle hm =>
    rw [hm.age, hm.resultAge, hm.iter, htick, htick]
    refine ⟨?_, ?_, ?_, fun _ => rfl⟩ <;> split <;> omega
  | param hp hm =>
    obtain ⟨h0, h0'⟩ := hk.param hp
    rw [hm.age, hm.resultAge, hm.iter, h0, h0']
    exact ⟨by omega, by omega, by omega, fun _ => rfl⟩
  | announce hp _ hm =>
    obtain ⟨h0, h0'⟩ := hk.announce hp
    rw [hm.age, hm.resultAge, hm.iter, h0, h0']
    exact ⟨by omega, by omega, by omega, fun _ => rfl⟩
  | result hp _ hm =>
    obtain ⟨_, h0', _⟩ := hk.result hp
    rw [hm.age, hm.resultAge, hm.iter, h0']
    exact ⟨by omega, by omega, by omega, fun _ => rfl⟩
  | poll hp _ hm =>
    rw [hm.age, hm.resultAge, hm.iter]
    exact ⟨by omega, by omega, by omega, fun _ => rfl⟩
  | answered hans _ hm =>
    obtain ⟨h1, h2⟩ := ha hans
    rw [hm.age, hm.resultAge]
    exact ⟨by omega, by omega, by omega, by omega⟩

/-! ## The write path -/

/-- The CSR writes `f`, decoded `s` cycles after the host sent them. -/
structure Strobes (h : HostSys) (s : Nat) (f : Fin 8 → WrCsr) : Prop where
  announce : (f 4).en = decide (h.age = s)
  address : h.age = s → ∃ ar, h.work[h.iter]? = some ar ∧ (f 4).data = ar.1
  result : (f 5).en = decide (h.resultAge = s)
  target : h.resultAge = s → ∃ ar, h.work[h.iter]? = some ar ∧ (f 5).data = ar.2
  param : ∀ k : Fin 3, (f (k.castLE params_le)).en = true →
    h.age < s ∧ (f (k.castLE params_le)).data = h.param k

theorem Strobes.next {s : Nat} {f : Fin 8 → WrCsr} (hst : Strobes h s f) (hk : Clock h) (hs : 0 < s)
    (ha : h.answered = true → s < h.resultAge ∧ s < h.age) : Strobes (h.step c) (s + 1) f := by
  have hw : (h.step c).work = h.work := rfl
  have hp : (h.step c).param = h.param := rfl
  obtain ⟨hage, hres, hlt, hiter⟩ := (hk.move (c := c)).shift hk hs ha
  refine ⟨?_, ?_, ?_, ?_, ?_⟩
  · rw [hst.announce]
    exact decide_eq_decide.mpr hage.symm
  · intro he
    rw [hw, hiter (.inl (hage.mp he))]
    exact hst.address (hage.mp he)
  · rw [hst.result]
    exact decide_eq_decide.mpr hres.symm
  · intro he
    rw [hw, hiter (.inr (hres.mp he))]
    exact hst.target (hres.mp he)
  · intro k hen
    obtain ⟨h1, h2⟩ := hst.param k hen
    exact ⟨hlt h1, by rw [hp, h2]⟩

theorem strobes_silent {r : C0Rx Nat} {s : Nat} (hr : r.mmioWrValid = false) (ha : h.age ≠ s) (hb : h.resultAge ≠ s) :
    Strobes h s (strobes r) := by
  refine ⟨?_, fun he => absurd he ha, ?_, fun he => absurd he hb, ?_⟩
  · rw [strobes_of_no_write hr, decide_eq_false ha]
  · rw [strobes_of_no_write hr, decide_eq_false hb]
  · intro k hen
    rw [strobes_of_no_write hr] at hen
    cases hen

/-- One write: only the announcement starts the first counter, only the result address the second one. -/
theorem strobes_written {t : Nat} {i : Fin 8} {v : MmioData} (h4 : i = 4 ↔ h.age = 1) (h5 : i = 5 ↔ h.resultAge = 1)
    (haddress : i = 4 → ∃ ar, h.work[h.iter]? = some ar ∧ v = ar.1)
    (htarget : i = 5 → ∃ ar, h.work[h.iter]? = some ar ∧ v = ar.2)
    (hparam : ∀ k : Fin 3, k.castLE params_le = i → h.age < 1 ∧ v = h.param k) :
    Strobes h 1 (strobes (.writeCsr t i v)) := by
  rw [strobes_write]
  refine ⟨?_, fun he => haddress (h4.mpr he), ?_, fun he => htarget (h5.mpr he), ?_⟩
  · exact decide_eq_decide.mpr (eq_comm.trans h4)
  · exact decide_eq_decide.mpr (eq_comm.trans h5)
  · exact fun k hen => hparam k (of_decide_eq_true hen)

theorem tick_ne_one (n : Nat) : tick n false ≠ 1 := by
  rw [tick, if_neg (by simp)]
  split <;> omega

theorem castLE_ne (k : Fin 3) : (k.castLE params_le : Fin 8) ≠ 4 ∧ (k.castLE params_le : Fin 8) ≠ 5 := by
  revert k
  decide

/-- The request that has just reached `csr_mgr`. -/
theorem strobes_sent (hk : Clock h) : Strobes (h.step c) 1 (strobes (h.step c).csr.c0Rx) := by
  have hw : (h.step c).work = h.work := rfl
  have hpar : (h.step c).param = h.param := rfl
  cases hk.move (c := c) with
  | idle hs =>
    have hquiet : (h.step c).csr.c0Rx.mmioWrValid = false := by rw [hs.c0Rx]; rfl
    apply strobes_silent hquiet
    · rw [hs.age]
      exact tick_ne_one _
    · rw [hs.resultAge]
      exact tick_ne_one _
  | @param k hp hs =>
    obtain ⟨hne4, hne5⟩ := castLE_ne k
    rw [hs.c0Rx]
    refine strobes_written ?_ ?_ (fun he => absurd he hne4) (fun he => absurd he hne5) ?_
    · rw [hs.age]
      exact ⟨fun he => absurd he hne4, by omega⟩
    · rw [hs.resultAge]
      exact ⟨fun he => absurd he hne5, by omega⟩
    · intro j hj
      rw [hs.age, hpar, Fin.castLE_injective _ hj]
      exact ⟨Nat.one_pos, rfl⟩
  | announce hp hget hs =>
    rw [hs.c0Rx]
    refine strobes_written ?_ ?_ ?_ (fun he => absurd he (by decide)) (fun j hj => absurd hj (castLE_ne j).1)
    · rw [hs.age]
      exact ⟨fun _ => rfl, fun _ => rfl⟩
    · rw [hs.resultAge]
      exact ⟨fun he => absurd he (by decide), by omega⟩
    · intro _
      rw [hw, hs.iter]
      exact ⟨_, hget, rfl⟩
  | result hp hget hs =>
    obtain ⟨hpos, _, _⟩ := hk.result hp
    rw [hs.c0Rx]
    refine strobes_written ?_ ?_ (fun he => absurd he (by decide)) ?_ (fun j hj => absurd hj (castLE_ne j).2)
    · rw [hs.age]
      exact ⟨fun he => absurd he (by decide), by omega⟩
    · rw [hs.resultAge]
      exact ⟨fun _ => rfl, fun _ => rfl⟩
    · intro _
      rw [hw, hs.iter]
      exact ⟨_, hget, rfl⟩
  | poll hp _ hs =>
    obtain ⟨hlt, hpos, _⟩ := hk.poll hp
    have hquiet : (h.step c).csr.c0Rx.mmioWrValid = false := by rw [hs.c0Rx]; rfl
    apply strobes_silent hquiet
    · rw [hs.age]
      omega
    · rw [hs.resultAge]
      omega
  | answered _ hreq hs =>
    have hquiet : (h.step c).csr.c0Rx.mmioWrValid = false := by
      rw [hs.c0Rx]
      rcases hreq with rfl | rfl <;> rfl
    apply strobes_silent hquiet
    · rw [hs.age]
      omega
    · rw [hs.resultAge]
      omega

/-! ## The read path -/

/-- The current partition is processed and the unit waits. -/
structure Settled (h : HostSys) : Prop where
  waiting : h.sys.afu.state = .waiting
  age : 4 ≤ h.age
  cur : h.sys.cur.isSome = true

/-- A read in the request register: it reads `CSR[1]`, for this iteration only after the old flag is gone. -/
structure Reading (h : HostSys) : Prop where
  data : ∀ rd common, readData h.csr.c0Rx rd common = rd 1
  tid : h.csr.c0Rx.tid ≤ h.iter
  fresh : h.csr.c0Rx.tid = h.iter → 1 < h.resultAge ∧ (0 < h.base + h.iter → 4 ≤ h.age)

/-- A response at stage `s`: nonzero for this iteration only when the partition is processed. -/
structure Answer (h : HostSys) (s : Nat) (a : C2Tx Nat) : Prop where
  tid : a.tid ≤ h.iter
  late : a.tid = h.iter → s < h.resultAge
  settled : a.tid = h.iter → a.data ≠ 0 → Settled h

/-- Parameter `k` has been sent. -/
def HostPhase.sent (p : HostPhase) (k : Fin 3) : Prop :=
  match p with
  | .param j => k < j
  | _ => True

/-- Parameter `k` has arrived or is on its way. -/
def Held (h : HostSys) (k : Fin 3) : Prop :=
  h.sys.csrs (k.castLE params_le) = some (h.param k) ∨ (h.csr.cpuWrCsrs (k.castLE params_le)).en = true ∨
    (strobes h.csr.c0Rx (k.castLE params_le)).en = true

/-- The invariant of the loop. -/
structure HostInv (h : HostSys) : Prop where
  inv : Inv h.sys
  clock : Clock h
  reset : h.csr.reset = false
  wire : Strobes h 1 (strobes h.csr.c0Rx)
  strobe : Strobes h 2 h.csr.cpuWrCsrs
  reading : h.csr.c0Rx.isCsrRead = true → Reading h
  sampled : h.csr.c2Tx.mmioRdValid = true → Answer h 2 h.csr.c2Tx
  forwarded : h.csr.fiuC2Tx.mmioRdValid = true → Answer h 3 h.csr.fiuC2Tx
  ready : h.sys.afu.newPartitionReady = decide (h.age = 3)
  early : h.age ≤ 2 → h.sys.afu.state = .waiting
  len : h.sys.runs.length = h.base + h.iter + if 3 ≤ h.age then 1 else 0
  first : h.base + h.iter = 0 → h.age ≤ 3 → h.sys.afu.partitionProcessed = false
  params : ∀ k, h.phase.sent k → Held h k
  cls : 0 < (h.param 0).toNat ∧ (h.param 0).toNat < 128
  column : (h.param 2).toNat ≤ 2

/-- The announcement is pending in one cycle only. -/
theorem HostInv.no_announce (hi : HostInv h) (ha : h.age ≠ 3) : h.sys.afu.newPartitionReady = false := by
  rw [hi.ready]
  exact decide_eq_false ha

theorem HostInv.answered (hi : HostInv h) (ha : h.answered = true) : 3 < h.resultAge ∧ 3 < h.age ∧ Settled h := by
  obtain ⟨hp, hv, ht, hd⟩ := answered_iff.mp ha
  obtain ⟨hlt, _, _⟩ := hi.clock.poll hp
  have hf := hi.forwarded hv
  have hlate := hf.late ht
  exact ⟨hlate, by omega, hf.settled ht hd⟩

theorem Clock.sent (hk : Clock h) (ha : 0 < h.age) (k : Fin 3) : h.phase.sent k := by
  cases hp : h.phase with
  | param j =>
    have := (hk.param hp).1
    omega
  | announce => exact trivial
  | result => exact trivial
  | poll => exact trivial

/-- Once the announcement is decoded the parameters are in place. -/
theorem HostInv.csrs (hi : HostInv h) (ha : 2 ≤ h.age) (k : Fin 3) :
    h.sys.csrs (k.castLE params_le) = some (h.param k) := by
  rcases hi.params k (hi.clock.sent (by omega) k) with hc | hc | hc
  · exact hc
  · have := (hi.strobe.param k hc).1
    omega
  · have := (hi.wire.param k hc).1
    omega

theorem HostInv.protocol (hi : HostInv h) (hm : MemoryProtocol h c) : Protocol h.sys (h.wires c) := by
  refine ⟨rfl, rfl, ?_, ?_, hm.response, hm.ack⟩
  · intro h4
    have hage : h.age = 2 := of_decide_eq_true (hi.strobe.announce.symm.trans h4)
    refine ⟨hi.early (by omega), hi.no_announce (by omega), ?_⟩
    · have h0 : h.sys.csrs 0 = some (h.param 0) := hi.csrs (by omega) 0
      have h1 : h.sys.csrs 1 = some (h.param 1) := hi.csrs (by omega) 1
      have h2 : h.sys.csrs 2 = some (h.param 2) := hi.csrs (by omega) 2
      simp [Sys.ready, h0, h1, h2, hi.cls.1, hi.cls.2, hi.column]
  · intro hbusy
    have hage : 2 ≤ h.age := by
      rcases hbusy with h4 | hb
      · exact (of_decide_eq_true (hi.strobe.announce.symm.trans h4)).ge
      · by_contra hlt
        obtain ⟨_, hcomp⟩ := hi.inv.phase.at_rest (hi.early (by omega)) (hi.no_announce (by omega))
        obtain ⟨p, hp, hnp⟩ := (Option.any_eq_true _ _).mp hb
        rw [(hcomp p hp).processed] at hnp
        cases hnp
    have key : ∀ k : Fin 3, (h.csr.cpuWrCsrs (k.castLE params_le)).en = false := by
      intro k
      rw [Bool.eq_false_iff]
      intro hen
      have := (hi.strobe.param k hen).1
      omega
    exact ⟨key 0, key 1, key 2⟩

/-! ## One cycle -/

theorem step_iter (ha : h.answered = false) : (h.step c).iter = h.iter := by
  simp [HostSys.step, ha]

theorem step_answered_iter (ha : h.answered = true) : (h.step c).iter = h.iter + 1 := by
  simp [HostSys.step, ha]

theorem iter_le_step : h.iter ≤ (h.step c).iter := by
  cases ha : h.answered <;> simp [HostSys.step, ha]

theorem age_succ (hk : Clock h) (ha : h.answered = false) (hpos : 0 < h.age) : (h.step c).age = h.age + 1 := by
  cases hk.move (c := c) with
  | idle hs => rw [hs.age, tick_pos hpos]
  | param hp hs =>
    have := (hk.param hp).1
    omega
  | announce hp _ hs =>
    have := (hk.announce hp).1
    omega
  | result _ _ hs => exact hs.age
  | poll _ _ hs => exact hs.age
  | answered ha' =>
    rw [ha] at ha'
    cases ha'

theorem resultAge_succ (hk : Clock h) (ha : h.answered = false) (hpos : 0 < h.resultAge) :
    (h.step c).resultAge = h.resultAge + 1 := by
  cases hk.move (c := c) with
  | idle hs => rw [hs.resultAge, tick_pos hpos]
  | param hp hs =>
    have := (hk.param hp).2
    omega
  | announce hp _ hs =>
    have := (hk.announce hp).2
    omega
  | result hp _ hs =>
    have := (hk.result hp).2.1
    omega
  | poll _ _ hs => exact hs.resultAge
  | answered ha' =>
    rw [ha] at ha'
    cases ha'

theorem step_sys_cur (hc : h.sys.cur.isSome = true) : (h.step c).sys.cur.isSome = true := by
  show ((if (h.csr.cpuWrCsrs 4).en then _ else h.sys.cur).map _).isSome = true
  rw [Option.isSome_map]
  split
  · rfl
  · exact hc

/-- Nothing changes for a processed partition until the next announcement. -/
theorem HostInv.stays (hi : HostInv h) (hm : MemoryProtocol h c) (hs : Settled h) :
    (h.step c).sys.afu.state = .waiting := by
  have hage := hs.age
  show (h.sys.afu.step (h.wires c)).state = .waiting
  rw [step_waiting (hi.protocol hm).noReset hs.waiting, hi.no_announce (by omega)]
  rfl

theorem Settled.step (hs : Settled h) (hi : HostInv h) (hm : MemoryProtocol h c) (ha : h.answered = false) :
    Settled (h.step c) := by
  have hage := hs.age
  refine ⟨hi.stays hm hs, ?_, step_sys_cur hs.cur⟩
  rw [age_succ hi.clock ha (by omega)]
  omega

theorem HostInv.reading_step (hi : HostInv h) (hp : PollSpaced h c) (hr : (h.step c).csr.c0Rx.isCsrRead = true) :
    Reading (h.step c) := by
  cases hi.clock.move (c := c) with
  | idle hs =>
    rw [hs.c0Rx, isCsrRead_of_no_read rfl] at hr
    cases hr
  | param _ hs =>
    rw [hs.c0Rx, isCsrRead_of_no_read rfl] at hr
    cases hr
  | announce _ _ hs =>
    rw [hs.c0Rx, isCsrRead_of_no_read rfl] at hr
    cases hr
  | result _ _ hs =>
    rw [hs.c0Rx, isCsrRead_of_no_read rfl] at hr
    cases hr
  | poll hph hact hs =>
    obtain ⟨_, hpos, _⟩ := hi.clock.poll hph
    refine ⟨?_, ?_, ?_⟩
    · intro rd common
      rw [hs.c0Rx, readData_read]
    · rw [hs.c0Rx, hs.iter]
      exact le_rfl
    · intro _
      rw [hs.age, hs.resultAge, hs.iter]
      refine ⟨by omega, fun hold => ?_⟩
      have := hp hact hph hold
      omega
  | answered _ hreq hs =>
    rcases hreq with rfl | rfl
    · rw [hs.c0Rx, isCsrRead_of_no_read rfl] at hr
      cases hr
    · refine ⟨?_, ?_, ?_⟩
      · intro rd common
        rw [hs.c0Rx, readData_read]
      · rw [hs.c0Rx, hs.iter]
        exact Nat.le_succ _
      · intro he
        rw [hs.c0Rx, hs.iter] at he
        exact absurd he (Nat.lt_succ_self _).ne

/-- The flag is sampled: one for this iteration only when the partition is processed. -/
theorem HostInv.sampled_step (hi : HostInv h) (hm : MemoryProtocol h c)
    (hr : (h.step c).csr.c2Tx.mmioRdValid = true) : Answer (h.step c) 2 (h.step c).csr.c2Tx := by
  have hread : h.csr.c0Rx.isCsrRead = true := by
    have : (h.csr.c0Rx.isCsrRead && !h.csr.reset) = true := hr
    rw [hi.reset] at this
    simpa using this
  have hR := hi.reading hread
  have htid : (h.step c).csr.c2Tx.tid = h.csr.c0Rx.tid := rfl
  have hdata : (h.step c).csr.c2Tx.data = (BitVec.ofBool h.sys.afu.partitionProcessed).setWidth 64 :=
    hR.data _ _
  have hle := hR.tid
  have hiter : (h.step c).csr.c2Tx.tid = (h.step c).iter → h.answered = false ∧ h.csr.c0Rx.tid = h.iter := by
    intro he
    rw [htid] at he
    cases ha : h.answered
    · exact ⟨rfl, he.trans (step_iter ha)⟩
    · rw [(step_answered_iter ha)] at he
      omega
  refine ⟨?_, ?_, ?_⟩
  · rw [htid]
    exact hle.trans iter_le_step
  · intro he
    obtain ⟨ha, ht⟩ := hiter he
    have hres := (hR.fresh ht).1
    rw [resultAge_succ hi.clock ha (by omega)]
    omega
  · intro he hd
    obtain ⟨ha, ht⟩ := hiter he
    obtain ⟨hres, hold⟩ := hR.fresh ht
    have hf : h.sys.afu.partitionProcessed = true := by
      rw [hdata] at hd
      cases hf : h.sys.afu.partitionProcessed
      · rw [hf] at hd
        exact absurd rfl hd
      · rfl
    have hage : 4 ≤ h.age := by
      rcases Nat.eq_zero_or_pos (h.base + h.iter) with h0 | hpos
      · by_contra hlt
        rw [hi.first h0 (by omega)] at hf
        cases hf
      · exact hold hpos
    obtain ⟨hw, hc⟩ := hi.inv.phase.flag (hi.protocol hm) (hi.no_announce (by omega)) hf
    refine ⟨hw, ?_, step_sys_cur hc⟩
    rw [age_succ hi.clock ha (by omega)]
    omega

theorem HostInv.forwarded_step (hi : HostInv h) (hm : MemoryProtocol h c)
    (hr : (h.step c).csr.fiuC2Tx.mmioRdValid = true) : Answer (h.step c) 3 (h.step c).csr.fiuC2Tx := by
  have hfwd : (h.step c).csr.fiuC2Tx = if h.csr.c2Tx.mmioRdValid then h.csr.c2Tx else ⟨false, h.iter, 0⟩ := rfl
  have hv : h.csr.c2Tx.mmioRdValid = true := by
    rw [hfwd] at hr
    cases hv : h.csr.c2Tx.mmioRdValid
    · rw [hv] at hr
      cases hr
    · rfl
  rw [if_pos hv] at hfwd
  obtain ⟨htid, hlate, hset⟩ := hi.sampled hv
  have hiter : h.csr.c2Tx.tid = (h.step c).iter → h.answered = false ∧ h.csr.c2Tx.tid = h.iter := by
    intro he
    cases ha : h.answered
    · exact ⟨rfl, he.trans (step_iter ha)⟩
    · rw [(step_answered_iter ha)] at he
      omega
  rw [hfwd]
  refine ⟨htid.trans iter_le_step, ?_, ?_⟩
  · intro he
    obtain ⟨ha, ht⟩ := hiter he
    have := hlate ht
    rw [resultAge_succ hi.clock ha (by omega)]
    omega
  · intro he hd
    obtain ⟨ha, ht⟩ := hiter he
    exact (hset ht hd).step hi hm ha

/-- A parameter on its way arrives, one just sent is on its way. -/
theorem HostInv.params_step (hi : HostInv h) (k : Fin 3) (hs : (h.step c).phase.sent k) : Held (h.step c) k := by
  have hpar : (h.step c).param = h.param := rfl
  have hold : h.phase.sent k → Held (h.step c) k := by
    intro hsent
    have hcsr : (h.step c).sys.csrs (k.castLE params_le) =
        if (h.csr.cpuWrCsrs (k.castLE params_le)).en then some (h.csr.cpuWrCsrs (k.castLE params_le)).data
        else h.sys.csrs (k.castLE params_le) := rfl
    unfold Held
    rw [hcsr, hpar]
    cases hen : (h.csr.cpuWrCsrs (k.castLE params_le)).en
    · rcases hi.params k hsent with hc | hc | hc
      · exact .inl hc
      · rw [hen] at hc
        cases hc
      · exact .inr (.inl hc)
    · rw [if_pos rfl, (hi.strobe.param k hen).2]
      exact .inl rfl
  cases hi.clock.move (c := c) with
  | idle hm =>
    rw [hm.phase] at hs
    exact hold hs
  | @param j hp hm =>
    by_cases hlt : k < j
    · refine hold ?_
      rw [hp]
      exact hlt
    · have hkj : k = j := by
        rw [hm.phase] at hs
        split at hs
        · next h2 =>
          rw [h2] at hlt ⊢
          omega
        · next h2 =>
          have hk' : k < j + 1 := hs
          omega
      refine .inr (.inr ?_)
      rw [hm.c0Rx, strobes_write, hkj]
      exact decide_eq_true rfl
  | announce hp _ _ =>
    refine hold ?_
    rw [hp]
    exact trivial
  | result hp _ _ =>
    refine hold ?_
    rw [hp]
    exact trivial
  | poll hp _ _ =>
    refine hold ?_
    rw [hp]
    exact trivial
  | answered ha _ _ =>
    refine hold ?_
    rw [(answered_iff.mp ha).1]
    exact trivial

theorem age_step_le (hk : Clock h) (ha : h.answered = false) : (h.step c).age ≤ h.age + 1 := by
  rcases Nat.eq_zero_or_pos h.age with h0 | hpos
  · cases hk.move (c := c) with
    | idle hs =>
      rw [hs.age, h0]
      exact Nat.zero_le _
    | param _ hs =>
      rw [hs.age]
      exact Nat.zero_le _
    | announce _ _ hs =>
      rw [hs.age]
      exact Nat.succ_pos _
    | result _ _ hs => exact hs.age.le
    | poll _ _ hs => exact hs.age.le
    | answered ha' =>
      rw [ha] at ha'
      cases ha'
  · exact (age_succ hk ha hpos).le

/-- An announcement that is not yet at the unit leaves it waiting for it. -/
theorem HostInv.early_step (hi : HostInv h) (hm : MemoryProtocol h c) (hage : (h.step c).age ≤ 2) :
    (h.step c).sys.afu.state = .waiting := by
  cases ha : h.answered
  · have h2 : h.age ≤ 2 := by
      rcases Nat.eq_zero_or_pos h.age with h0 | hpos
      · omega
      · rw [age_succ hi.clock ha hpos] at hage
        omega
    show (h.sys.afu.step (h.wires c)).state = .waiting
    rw [step_waiting (hi.protocol hm).noReset (hi.early (by omega)), hi.no_announce (by omega)]
    rfl
  · exact hi.stays hm (hi.answered ha).2.2

/-- The partition of an iteration is on the unit from the third cycle after its announcement on. -/
theorem HostInv.len_step (hi : HostInv h) : (h.step c).sys.runs.length =
    (h.step c).base + (h.step c).iter + if 3 ≤ (h.step c).age then 1 else 0 := by
  have hbase : (h.step c).base = h.base := rfl
  have hlen : (h.step c).sys.runs.length = h.sys.runs.length + if h.age = 2 then 1 else 0 := by
    have hl : (h.step c).sys.runs.length = h.sys.runs.length + if (h.csr.cpuWrCsrs 4).en then 1 else 0 :=
      length_runs_step
    rw [hl, hi.strobe.announce]
    simp
  rw [hlen, hi.len, hbase]
  cases ha : h.answered
  · rw [step_iter ha]
    have hle := age_step_le (c := c) hi.clock ha
    rcases Nat.eq_zero_or_pos h.age with h0 | hpos
    · rw [if_neg (by omega), if_neg (by omega), if_neg (by omega)]
    · rw [age_succ hi.clock ha hpos]
      by_cases h2 : h.age = 2
      · rw [if_neg (by omega), if_pos h2, if_pos (by omega)]
      · rw [if_neg h2]
        by_cases h3 : 3 ≤ h.age
        · rw [if_pos h3, if_pos (by omega)]
        · rw [if_neg h3, if_neg (by omega)]
  · obtain ⟨_, hage, _⟩ := hi.answered ha
    have h0 : (h.step c).age = 0 := by simp [HostSys.step, ha]
    rw [step_answered_iter ha, h0, if_pos (by omega), if_neg (by omega), if_neg (by omega)]
    omega

/-- The first announcement on the unit finds no flag of an earlier partition. -/
theorem HostInv.first_step (hi : HostInv h) (hm : MemoryProtocol h c) (h0 : (h.step c).base + (h.step c).iter = 0)
    (hage : (h.step c).age ≤ 3) : (h.step c).sys.afu.partitionProcessed = false := by
  have hbase : (h.step c).base = h.base := rfl
  cases ha : h.answered
  · rw [hbase, step_iter ha] at h0
    have hage2 : h.age ≤ 2 := by
      rcases Nat.eq_zero_or_pos h.age with hz | hpos
      · omega
      · rw [age_succ hi.clock ha hpos] at hage
        omega
    show (h.sys.afu.step (h.wires c)).partitionProcessed = false
    rw [step_waiting (hi.protocol hm).noReset (hi.early (by omega))]
    simp [hi.first h0 (by omega)]
  · rw [hbase, step_answered_iter ha] at h0
    omega

/-- The step lemma. -/
theorem HostInv.step (hi : HostInv h) (hm : MemoryProtocol h c) (hp : PollSpaced h c) : HostInv (h.step c) := by
  have hshift := (hi.clock.move (c := c)).shift hi.clock (s := 2) (by omega)
    fun ha => ⟨by have := (hi.answered ha).1; omega, by have := (hi.answered ha).2.1; omega⟩
  refine ⟨hi.inv.step (hi.protocol hm), hi.clock.step, rfl, strobes_sent hi.clock, ?_, hi.reading_step hp,
    hi.sampled_step hm, hi.forwarded_step hm, ?_, hi.early_step hm, hi.len_step, hi.first_step hm, hi.params_step,
    hi.cls, hi.column⟩
  · refine hi.wire.next hi.clock Nat.one_pos fun ha => ?_
    obtain ⟨h1, h2, _⟩ := hi.answered ha
    exact ⟨by omega, by omega⟩
  · have hready : (h.step c).sys.afu.newPartitionReady = decide (h.age = 2) := by
      rw [← hi.strobe.announce]
      exact step_newPartitionReady rfl _
    rw [hready]
    exact decide_eq_decide.mpr hshift.1.symm

end Step

/-- The invariant holds when the scan starts. -/
theorem AtRest.hostInv {h : HostSys} (hr : AtRest h) : HostInv h := by
  have hinv := inv_of_reachable hr.reachable
  have hnone : ∀ {s : Nat} {f : Fin 8 → WrCsr}, 0 < s → (∀ k, (f k).en = false) → Strobes h s f := by
    intro s f hs hf
    refine ⟨?_, ?_, ?_, ?_, ?_⟩
    · rw [hf, hr.age]
      exact (decide_eq_false (by omega)).symm
    · rw [hr.age]
      omega
    · rw [hf, hr.resultAge]
      exact (decide_eq_false (by omega)).symm
    · rw [hr.resultAge]
      omega
    · intro k hen
      rw [hf] at hen
      cases hen
  refine ⟨hinv, ?_, hr.reset, ?_, ?_, ?_, ?_, ?_, ?_, ?_, ?_, ?_, ?_, hr.cls, hr.column⟩
  · unfold Clock
    rw [hr.phase]
    exact ⟨hr.age, hr.resultAge⟩
  · exact hnone Nat.one_pos fun k => strobes_of_no_write hr.c0RxWrite k
  · exact hnone (by omega) hr.strobe
  · intro hread
    rw [isCsrRead_of_no_read hr.c0RxRead] at hread
    cases hread
  · intro hv
    rw [hr.c2Tx] at hv
    cases hv
  · intro hv
    rw [hr.fiuC2Tx] at hv
    cases hv
  · rw [hr.ready, hr.age]
    rfl
  · intro _
    exact hr.waiting
  · rw [hr.age, hr.iter, hr.base]
    rfl
  · intro h0 _
    rw [(hinv.phase.at_rest hr.waiting hr.ready).1]
    have hlen : h.sys.runs.length = 0 := by
      rw [← hr.base]
      omega
    have hnil := List.append_eq_nil_iff.mp (List.length_eq_zero_iff.mp hlen)
    rw [Option.toList_eq_nil_iff.mp hnil.2]
    rfl
  · intro k hs
    rw [hr.phase] at hs
    exact absurd hs (by simp [HostPhase.sent])

/-- The invariant holds in every run of the loop whose polls come late enough. -/
theorem hostInv_of_reachable {h : HostSys} (hr : Reachable (hostSystem.when PollSpaced) h) : HostInv h := by
  refine Reachable.invariant (P := HostInv) ?_ ?_ hr
  · intro h h0
    exact AtRest.hostInv h0
  · intro h c _ hi hc
    exact hi.step hc.1 hc.2

end SdbFpga.Host
