import SdbFpga.Fpga.CommonCsrs

/-!
# `csr_mgr`: one MMIO read at a time

`csr_mgr` answers the reads of its own CSRs and forwards the responses of the modules behind it. A response of its own
overwrites one forwarded in the same cycle; the applications avoid that by never having two reads outstanding.

* `MmioSys`, `MmioSys.step` : `csr_mgr` with the reads sent, the responses given and the ones the host has seen;
* `OneReadProtocol`, `mmioReads` : the runs with one read at a time, `booted_of_reset` : how they start;
* `Stage` : where the outstanding read is, `Answering`, `answering_step` : the invariant;
* `reads_answered`, `own_read_answered` : every response reaches the host, one for each read, and those of
  `csr_mgr` after four cycles.
-/

namespace SdbFpga.Fpga
open Transition

universe u
variable {τ : Type u}

/-! ## Reads and responses -/

/-- The response on the channel, if there is one. -/
def C2Tx.responses (c : C2Tx τ) : List (τ × MmioData) := if c.mmioRdValid then [(c.tid, c.data)] else []

theorem responses_of_valid {c : C2Tx τ} (h : c.mmioRdValid = true) : c.responses = [(c.tid, c.data)] := if_pos h

theorem responses_of_not_valid {c : C2Tx τ} (h : c.mmioRdValid = false) : c.responses = [] :=
  if_neg (Bool.not_eq_true _ ▸ h)

/-- `csr_mgr` and the reads of a run. -/
structure MmioSys (τ : Type u) where
  unit : CsrUnit τ
  /-- sent by the host, its response not seen -/
  outstanding : Option (C0Rx τ)
  asked : List τ
  /-- the responses of `csr_mgr` and of the modules behind it -/
  given : List (τ × MmioData)
  seen : List (τ × MmioData)

/-- One clock edge. -/
def MmioSys.step (p : Platform) (σ : MmioSys τ) (w : CsrWires τ) : MmioSys τ where
  unit := σ.unit.step p w
  outstanding :=
    if w.mmio.mmioRdValid then some w.mmio
    else if σ.unit.mgr.fiuC2Tx.mmioRdValid then none
    else σ.outstanding
  asked := if w.mmio.mmioRdValid then σ.asked ++ [w.mmio.tid] else σ.asked
  given := σ.given ++ (σ.unit.step p w).mgr.c2Tx.responses ++ w.afuC2Tx.responses
  seen := σ.seen ++ σ.unit.mgr.fiuC2Tx.responses

/-- The host sends a read only while none is outstanding; a module behind `csr_mgr` answers only the outstanding read,
once, and only at an address that is not one of `csr_mgr`. -/
structure OneReadProtocol (σ : MmioSys τ) (w : CsrWires τ) : Prop where
  reset : w.reset = false
  one : w.mmio.mmioRdValid = true → σ.outstanding = none
  behind : w.afuC2Tx.mmioRdValid = true → σ.given.length < σ.asked.length ∧
    σ.outstanding.map C0Rx.addrValid = some false ∧ σ.outstanding.map C0Rx.tid = some w.afuC2Tx.tid

instance decidableOneRead [DecidableEq τ] (σ : MmioSys τ) (w : CsrWires τ) : Decidable (OneReadProtocol σ w) :=
  decidable_of_iff
    (w.reset = false ∧ (w.mmio.mmioRdValid = true → σ.outstanding = none) ∧
      (w.afuC2Tx.mmioRdValid = true → σ.given.length < σ.asked.length ∧
        σ.outstanding.map C0Rx.addrValid = some false ∧ σ.outstanding.map C0Rx.tid = some w.afuC2Tx.tid))
    ⟨fun ⟨a, b, c⟩ => ⟨a, b, c⟩, fun ⟨a, b, c⟩ => ⟨a, b, c⟩⟩

/-- Nothing is on its way. -/
structure Quiet (m : CsrMgr τ) : Prop where
  reset : m.reset = false
  c0Rx : m.c0Rx.isCsrRead = false
  c2Tx : m.c2Tx.mmioRdValid = false
  fiuC2Tx : m.fiuC2Tx.mmioRdValid = false

/-- The power-on reset has ended and nothing was read. -/
structure MmioBooted (σ : MmioSys τ) : Prop where
  quiet : Quiet σ.unit.mgr
  outstanding : σ.outstanding = none
  asked : σ.asked = []
  given : σ.given = []
  seen : σ.seen = []

/-- The runs under `OneReadProtocol`. -/
def mmioReads (p : Platform) : System (MmioSys τ) (CsrWires τ) where
  init := MmioBooted
  permits := OneReadProtocol
  step := MmioSys.step p

instance decidablePermitsOneRead [DecidableEq τ] (p : Platform) (σ : MmioSys τ) (w : CsrWires τ) :
    Decidable ((mmioReads p).permits σ w) := inferInstanceAs (Decidable (OneReadProtocol σ w))

/-- A cycle of reset and a quiet one after it bring `csr_mgr` from power-on there. -/
theorem booted_of_reset {p : Platform} {u : CsrUnit τ} (hu : u.mgr.reset = true) {w w' : CsrWires τ}
    (hw : w.reset = true) (hw' : w'.reset = false) (hread : w'.mmio.mmioRdValid = false)
    (hafu : w'.afuC2Tx.mmioRdValid = false) : Quiet ((csrUnit p).run u [w, w']).mgr := by
  have hc2 : (u.step p w).mgr.c2Tx.mmioRdValid = false := by
    show (u.mgr.c0Rx.isCsrRead && !u.mgr.reset) = false
    rw [hu, Bool.not_true, Bool.and_false]
  refine ⟨hw', isCsrRead_of_no_read hread, ?_, ?_⟩
  · show (w.mmio.isCsrRead && !w.reset) = false
    rw [hw, Bool.not_true, Bool.and_false]
  · show (if (u.step p w).mgr.c2Tx.mmioRdValid then (u.step p w).mgr.c2Tx else w'.afuC2Tx).mmioRdValid = false
    rw [hc2]
    exact hafu

/-! ## The invariant -/

/-- Where the outstanding read is. -/
inductive Stage (m : CsrMgr τ) : Option (C0Rx τ) → Prop
  | idle : m.c0Rx.isCsrRead = false → m.c2Tx.mmioRdValid = false → m.fiuC2Tx.mmioRdValid = false → Stage m none
  /-- registered in `csr_mgr`, whose CSR it reads -/
  | requested {c : C0Rx τ} : m.c0Rx = c → c.isCsrRead = true → m.c2Tx.mmioRdValid = false →
      m.fiuC2Tx.mmioRdValid = false → Stage m (some c)
  /-- answered by `csr_mgr` in `c2Tx` -/
  | sampled {c : C0Rx τ} : m.c0Rx.isCsrRead = false → c.addrValid = true → m.c2Tx.mmioRdValid = true →
      m.c2Tx.tid = c.tid → m.fiuC2Tx.mmioRdValid = false → Stage m (some c)
  /-- left to the modules behind `csr_mgr` -/
  | waiting {c : C0Rx τ} : m.c0Rx.isCsrRead = false → c.addrValid = false → m.c2Tx.mmioRdValid = false →
      m.fiuC2Tx.mmioRdValid = false → Stage m (some c)
  /-- on the wires to the host -/
  | shown {c : C0Rx τ} : m.c0Rx.isCsrRead = false → m.c2Tx.mmioRdValid = false → m.fiuC2Tx.mmioRdValid = true →
      m.fiuC2Tx.tid = c.tid → Stage m (some c)

/-- Every response given is seen or on its way, and every read sent is answered or outstanding. -/
structure Answering (σ : MmioSys τ) : Prop where
  reset : σ.unit.mgr.reset = false
  stage : Stage σ.unit.mgr σ.outstanding
  given : σ.given = σ.seen ++ σ.unit.mgr.fiuC2Tx.responses ++ σ.unit.mgr.c2Tx.responses
  asked : σ.asked = σ.seen.map Prod.fst ++ (σ.outstanding.map C0Rx.tid).toList

theorem answering_of_booted {σ : MmioSys τ} (h : MmioBooted σ) : Answering σ := by
  obtain ⟨⟨hr, h0, h2, hf⟩, ho, ha, hg, hs⟩ := h
  refine ⟨hr, ?_, ?_, ?_⟩
  · rw [ho]
    exact .idle h0 h2 hf
  · rw [hg, hs, responses_of_not_valid h2, responses_of_not_valid hf]
    rfl
  · rw [ha, hs, ho]
    rfl

section Step
variable {p : Platform} {σ : MmioSys τ} {w : CsrWires τ} {c : C0Rx τ}

theorem unit_step_c2Tx (hr : σ.unit.mgr.reset = false) :
    (σ.unit.step p w).mgr.c2Tx.mmioRdValid = σ.unit.mgr.c0Rx.isCsrRead := by
  show (σ.unit.mgr.c0Rx.isCsrRead && !σ.unit.mgr.reset) = _
  rw [hr, Bool.not_false, Bool.and_true]

theorem unit_step_fiuC2Tx : (σ.unit.step p w).mgr.fiuC2Tx =
    if σ.unit.mgr.c2Tx.mmioRdValid then σ.unit.mgr.c2Tx else w.afuC2Tx := rfl

/-- No second read is sent. -/
theorem OneReadProtocol.no_read (hw : OneReadProtocol σ w) (ho : σ.outstanding = some c) :
    w.mmio.mmioRdValid = false := by
  cases hv : w.mmio.mmioRdValid
  · rfl
  · rw [hw.one hv] at ho
    cases ho

/-- A module behind `csr_mgr` answers while its read is outstanding and nothing is on its way. -/
theorem Answering.forwards (h : Answering σ) (hw : OneReadProtocol σ w) (hv : w.afuC2Tx.mmioRdValid = true) :
    (∃ c, σ.outstanding = some c ∧ c.addrValid = false ∧ c.tid = w.afuC2Tx.tid) ∧
      σ.unit.mgr.c0Rx.isCsrRead = false ∧ σ.unit.mgr.c2Tx.mmioRdValid = false ∧
      σ.unit.mgr.fiuC2Tx.mmioRdValid = false := by
  obtain ⟨hlt, haddr, htid⟩ := hw.behind hv
  obtain ⟨c, ho, haddr⟩ := Option.map_eq_some_iff.mp haddr
  rw [ho] at htid
  refine ⟨⟨c, ho, haddr, Option.some.inj htid⟩, ?_⟩
  have hstage := h.stage
  rw [ho] at hstage
  cases hstage with
  | requested _ hown _ _ => simp [C0Rx.isCsrRead, haddr] at hown
  | sampled _ hmine _ _ _ => simp [haddr] at hmine
  | waiting h0 _ h2 hf => exact ⟨h0, h2, hf⟩
  | shown _ _ hf _ =>
    -- as many responses as reads
    rw [h.given, h.asked, ho, responses_of_valid hf] at hlt
    simp at hlt

/-- A response of `csr_mgr` and a forwarded one never meet. -/
theorem Answering.no_clash (h : Answering σ) (hw : OneReadProtocol σ w) :
    ¬(σ.unit.mgr.c2Tx.mmioRdValid = true ∧ w.afuC2Tx.mmioRdValid = true) := by
  rintro ⟨h2, hv⟩
  rw [(h.forwards hw hv).2.2.1] at h2
  cases h2

/-- The stage after one edge. -/
theorem stage_step (h : Answering σ) (hw : OneReadProtocol σ w) :
    Stage (σ.step p w).unit.mgr (σ.step p w).outstanding := by
  have hstage := h.stage
  have hnext : (σ.step p w).outstanding = if w.mmio.mmioRdValid then some w.mmio
      else if σ.unit.mgr.fiuC2Tx.mmioRdValid then none else σ.outstanding := rfl
  have hc2 := unit_step_c2Tx (p := p) (w := w) h.reset
  have hfiu := unit_step_fiuC2Tx (p := p) (σ := σ) (w := w)
  generalize ho : σ.outstanding = o at hstage hnext
  cases hstage with
  | idle h0 h2 hf =>
    have hafu : w.afuC2Tx.mmioRdValid = false := by
      refine Bool.eq_false_iff.mpr fun hv => ?_
      obtain ⟨⟨c, hc, _⟩, _⟩ := h.forwards hw hv
      rw [ho] at hc
      cases hc
    rw [h0] at hc2
    rw [h2, if_neg Bool.false_ne_true] at hfiu
    rw [hf, if_neg Bool.false_ne_true] at hnext
    cases hread : w.mmio.mmioRdValid
    · rw [hnext, hread]
      exact .idle (isCsrRead_of_no_read hread) hc2 (hfiu ▸ hafu)
    · rw [hnext, hread]
      cases haddr : w.mmio.addrValid
      · exact .waiting (by show w.mmio.isCsrRead = false; simp [C0Rx.isCsrRead, haddr]) haddr hc2 (hfiu ▸ hafu)
      · exact .requested rfl (by simp [C0Rx.isCsrRead, haddr, hread]) hc2 (hfiu ▸ hafu)
  | @requested c h0 hown h2 hf =>
    have hread := hw.no_read ho
    have hafu : w.afuC2Tx.mmioRdValid = false := by
      refine Bool.eq_false_iff.mpr fun hv => ?_
      have hidle := (h.forwards hw hv).2.1
      rw [h0, hown] at hidle
      cases hidle
    rw [h0, hown] at hc2
    rw [h2, if_neg Bool.false_ne_true] at hfiu
    rw [hnext, hread, hf]
    exact .sampled (isCsrRead_of_no_read hread) (Bool.and_eq_true_iff.mp hown).2 hc2 (congrArg C0Rx.tid h0)
      (hfiu ▸ hafu)
  | sampled h0 haddr h2 htid hf =>
    have hread := hw.no_read ho
    rw [h0] at hc2
    rw [h2, if_pos rfl] at hfiu
    rw [hnext, hread, hf]
    exact .shown (isCsrRead_of_no_read hread) hc2 (hfiu ▸ h2) (hfiu ▸ htid)
  | waiting h0 haddr h2 hf =>
    have hread := hw.no_read ho
    rw [h0] at hc2
    rw [h2, if_neg Bool.false_ne_true] at hfiu
    rw [hnext, hread, hf]
    cases hv : w.afuC2Tx.mmioRdValid
    · exact .waiting (isCsrRead_of_no_read hread) haddr hc2 (hfiu ▸ hv)
    · obtain ⟨_, _, htid⟩ := hw.behind hv
      rw [ho] at htid
      exact .shown (isCsrRead_of_no_read hread) hc2 (hfiu ▸ hv) (hfiu ▸ (Option.some.inj htid).symm)
  | shown h0 h2 hf htid =>
    have hread := hw.no_read ho
    have hafu : w.afuC2Tx.mmioRdValid = false := by
      refine Bool.eq_false_iff.mpr fun hv => ?_
      have hidle := (h.forwards hw hv).2.2.2
      rw [hf] at hidle
      cases hidle
    rw [h0] at hc2
    rw [h2, if_neg Bool.false_ne_true] at hfiu
    rw [hnext, hread, hf]
    exact .idle (isCsrRead_of_no_read hread) hc2 (hfiu ▸ hafu)

/-- What is given is seen or on its way. -/
theorem given_step (h : Answering σ) (hw : OneReadProtocol σ w) : (σ.step p w).given =
    (σ.step p w).seen ++ (σ.step p w).unit.mgr.fiuC2Tx.responses ++ (σ.step p w).unit.mgr.c2Tx.responses := by
  show σ.given ++ (σ.unit.step p w).mgr.c2Tx.responses ++ w.afuC2Tx.responses =
    σ.seen ++ σ.unit.mgr.fiuC2Tx.responses ++ (σ.unit.step p w).mgr.fiuC2Tx.responses ++
      (σ.unit.step p w).mgr.c2Tx.responses
  have hfiu := unit_step_fiuC2Tx (p := p) (σ := σ) (w := w)
  rw [h.given]
  cases h2 : σ.unit.mgr.c2Tx.mmioRdValid
  · rw [h2, if_neg Bool.false_ne_true] at hfiu
    rw [hfiu, responses_of_not_valid h2, List.append_nil]
    -- the response forwarded now and one that `csr_mgr` samples now would be of the same read
    cases hv : w.afuC2Tx.mmioRdValid
    · rw [responses_of_not_valid hv, List.append_nil, List.append_nil]
    · have hnone : (σ.unit.step p w).mgr.c2Tx.mmioRdValid = false := by
        rw [unit_step_c2Tx h.reset]
        exact (h.forwards hw hv).2.1
      rw [responses_of_not_valid hnone, List.append_nil, List.append_nil]
  · rw [h2, if_pos rfl] at hfiu
    have hv : w.afuC2Tx.mmioRdValid = false := Bool.eq_false_iff.mpr fun hv => h.no_clash hw ⟨h2, hv⟩
    rw [hfiu, responses_of_not_valid hv, List.append_nil]

/-- What is asked is answered or outstanding. -/
theorem asked_step (h : Answering σ) (hw : OneReadProtocol σ w) : (σ.step p w).asked =
    (σ.step p w).seen.map Prod.fst ++ ((σ.step p w).outstanding.map C0Rx.tid).toList := by
  show (if w.mmio.mmioRdValid then σ.asked ++ [w.mmio.tid] else σ.asked) =
    (σ.seen ++ σ.unit.mgr.fiuC2Tx.responses).map Prod.fst ++ ((if w.mmio.mmioRdValid then some w.mmio
      else if σ.unit.mgr.fiuC2Tx.mmioRdValid then none else σ.outstanding).map C0Rx.tid).toList
  rw [h.asked]
  have hstage := h.stage
  cases hread : w.mmio.mmioRdValid
  · cases hf : σ.unit.mgr.fiuC2Tx.mmioRdValid
    · rw [responses_of_not_valid hf, List.append_nil]
      rfl
    · rw [responses_of_valid hf]
      generalize σ.outstanding = o at hstage
      cases hstage with
      | shown _ _ _ htid => simp [htid]
      | _ => simp_all
  · have ho := hw.one hread
    rw [ho] at hstage ⊢
    cases hstage with
    | idle _ _ hf =>
      rw [responses_of_not_valid hf]
      simp

theorem answering_step (h : Answering σ) (hw : OneReadProtocol σ w) : Answering (σ.step p w) :=
  ⟨hw.reset, stage_step h hw, given_step h hw, asked_step h hw⟩

theorem answering_of_reachable (h : Reachable (mmioReads p) σ) : Answering σ :=
  h.invariant (P := Answering) (fun _ => answering_of_booted) fun _ _ _ => answering_step

end Step

/-! ## What the host sees -/

section Reads
variable {p : Platform} {σ : MmioSys τ}

/-- A unit at rest that has counted seven read hits. -/
def restingSys : MmioSys Nat where
  unit := ⟨⟨false, .none 0, ⟨false, 0, 77⟩, ⟨false, 0, 77⟩, fun _ => ⟨0, false⟩⟩, powerOnUnit.stats⟩
  outstanding := none
  asked := []
  given := []
  seen := []

/-- A cycle with a request from the host and a response from behind. -/
def mmioCycle (mmio : C0Rx Nat) (afuC2Tx : C2Tx Nat) : CsrWires Nat :=
  { trafficCycle mmio false 0 with c0Rx := ⟨false, false, .va⟩, afuC2Tx := afuC2Tx }

/-- The cycles of a read of the hit counter under transaction 5. -/
def hitsCycles : List (CsrWires Nat) :=
  [mmioCycle (commonRead 9) ⟨false, 0, 0⟩, mmioCycle (.none 0) ⟨false, 0, 0⟩, mmioCycle (.none 0) ⟨false, 0, 0⟩,
    mmioCycle (.none 0) ⟨false, 0, 0⟩]

/-- Then a read behind `csr_mgr` under transaction 6, answered in the third cycle. -/
def behindCycles : List (CsrWires Nat) :=
  [mmioCycle ⟨true, false, 200, 6, 0⟩ ⟨false, 0, 0⟩, mmioCycle (.none 0) ⟨false, 0, 0⟩,
    mmioCycle (.none 0) ⟨true, 6, 99⟩]

theorem reachable_restingSys : Reachable (mmioReads platform200) restingSys :=
  .init ⟨⟨rfl, rfl, rfl, rfl⟩, rfl, rfl, rfl, rfl⟩

/-- With one read at a time every response given, by `csr_mgr` or by a module behind it, reaches the host once and in
order; the host sees one response for each read it sent, but for the outstanding one; and no response is overwritten
by another. -/
theorem reads_answered (h : Reachable (mmioReads p) σ) :
    σ.given = σ.seen ++ σ.unit.mgr.fiuC2Tx.responses ++ σ.unit.mgr.c2Tx.responses ∧
      σ.asked = σ.seen.map Prod.fst ++ (σ.outstanding.map C0Rx.tid).toList ∧
      ∀ w, (mmioReads p).permits σ w →
        ¬(σ.unit.mgr.c2Tx.mmioRdValid = true ∧ w.afuC2Tx.mmioRdValid = true) := by
  have hinv := answering_of_reachable h
  exact ⟨hinv.given, hinv.asked, fun w hw => hinv.no_clash hw⟩

theorem reads_answered_two :
    let σ := (mmioReads platform200).run restingSys (hitsCycles ++ behindCycles)
    σ.given = σ.seen ++ σ.unit.mgr.fiuC2Tx.responses ++ σ.unit.mgr.c2Tx.responses ∧
      σ.asked = σ.seen.map Prod.fst ++ (σ.outstanding.map C0Rx.tid).toList ∧
      ∀ w, (mmioReads platform200).permits σ w →
        ¬(σ.unit.mgr.c2Tx.mmioRdValid = true ∧ w.afuC2Tx.mmioRdValid = true) :=
  reads_answered (reachable_restingSys.run (by decide))

example : ((mmioReads platform200).run restingSys (hitsCycles ++ behindCycles)).given = [(5, 8), (6, 99)] := by
  decide

theorem Stage.not_shown {m : CsrMgr τ} {o : Option (C0Rx τ)} (h : Stage m o)
    (hbusy : m.c0Rx.isCsrRead = true ∨ m.c2Tx.mmioRdValid = true) : m.fiuC2Tx.mmioRdValid = false := by
  cases h with
  | idle _ _ hf => exact hf
  | requested _ _ _ hf => exact hf
  | sampled _ _ _ _ hf => exact hf
  | waiting _ _ _ hf => exact hf
  | shown h0 h2 _ _ => simp [h0, h2] at hbusy

/-- While its response is not shown, a read stays outstanding and nothing is seen. -/
theorem MmioSys.step_outstanding {c : C0Rx τ} {w : CsrWires τ} (hw : OneReadProtocol σ w)
    (ho : σ.outstanding = some c) (hf : σ.unit.mgr.fiuC2Tx.mmioRdValid = false) :
    (σ.step p w).outstanding = some c ∧ (σ.step p w).seen = σ.seen := by
  constructor
  · show (if w.mmio.mmioRdValid then _ else if σ.unit.mgr.fiuC2Tx.mmioRdValid then _ else _) = _
    rw [hw.no_read ho, hf]
    exact ho
  · show σ.seen ++ σ.unit.mgr.fiuC2Tx.responses = σ.seen
    rw [responses_of_not_valid hf, List.append_nil]

/-- Once it is shown, it is seen. -/
theorem MmioSys.step_seen {c : C0Rx τ} {w : CsrWires τ} (hw : OneReadProtocol σ w) (ho : σ.outstanding = some c)
    (hf : σ.unit.mgr.fiuC2Tx.mmioRdValid = true) : (σ.step p w).outstanding = none ∧
      (σ.step p w).seen = σ.seen ++ [(σ.unit.mgr.fiuC2Tx.tid, σ.unit.mgr.fiuC2Tx.data)] := by
  constructor
  · show (if w.mmio.mmioRdValid then _ else if σ.unit.mgr.fiuC2Tx.mmioRdValid then _ else _) = _
    rw [hw.no_read ho, hf]
    rfl
  · show σ.seen ++ σ.unit.mgr.fiuC2Tx.responses = _
    rw [responses_of_valid hf]

/-- `csr_mgr` answers a read of its own in four cycles, with what the CSR holds in the cycle after the request. -/
theorem own_read_answered (h : Reachable (mmioReads p) σ) {w w₁ w₂ w₃ : CsrWires τ}
    (ha : (mmioReads p).Steps (mmioReads p).permits σ [w, w₁, w₂, w₃]) (hread : w.mmio.isCsrRead = true) :
    ((mmioReads p).run σ [w, w₁, w₂, w₃]).outstanding = none ∧
      ((mmioReads p).run σ [w, w₁, w₂, w₃]).seen =
        σ.seen ++ [(w.mmio.tid, readData w.mmio w₁.cpuRdCsrs ((σ.unit.step p w).stats.common p w₁))] := by
  obtain ⟨hw, (hw₁ : OneReadProtocol (σ.step p w) w₁), (hw₂ : OneReadProtocol ((σ.step p w).step p w₁) w₂),
    (hw₃ : OneReadProtocol (((σ.step p w).step p w₁).step p w₂) w₃), _⟩ := ha
  have hvalid : w.mmio.mmioRdValid = true := (Bool.and_eq_true_iff.mp hread).1
  have hσ := answering_of_reachable h
  have hσ₁ := answering_step (p := p) hσ hw
  have hσ₂ := answering_step (p := p) hσ₁ hw₁
  -- sent: the host has seen the response of the read before
  have hstage := hσ.stage
  rw [hw.one hvalid] at hstage
  obtain ⟨_, _, hf⟩ := hstage
  have ho₁ : (σ.step p w).outstanding = some w.mmio := if_pos hvalid
  have hseen₁ : (σ.step p w).seen = σ.seen := by
    show σ.seen ++ σ.unit.mgr.fiuC2Tx.responses = σ.seen
    rw [responses_of_not_valid hf, List.append_nil]
  -- registered, then sampled
  obtain ⟨ho₂, hseen₂⟩ := MmioSys.step_outstanding (p := p) hw₁ ho₁ (hσ₁.stage.not_shown (.inl hread))
  have hc2 : ((σ.step p w).step p w₁).unit.mgr.c2Tx =
      ⟨true, w.mmio.tid, readData w.mmio w₁.cpuRdCsrs ((σ.unit.step p w).stats.common p w₁)⟩ := by
    show (⟨w.mmio.isCsrRead && !(σ.step p w).unit.mgr.reset, _, _⟩ : C2Tx τ) = _
    rw [hread, hσ₁.reset]
    rfl
  have hv₂ : ((σ.step p w).step p w₁).unit.mgr.c2Tx.mmioRdValid = true := congrArg C2Tx.mmioRdValid hc2
  obtain ⟨ho₃, hseen₃⟩ := MmioSys.step_outstanding (p := p) hw₂ ho₂ (hσ₂.stage.not_shown (.inr hv₂))
  -- shown
  have hfiu : (((σ.step p w).step p w₁).step p w₂).unit.mgr.fiuC2Tx =
      ⟨true, w.mmio.tid, readData w.mmio w₁.cpuRdCsrs ((σ.unit.step p w).stats.common p w₁)⟩ := by
    rw [← hc2]
    exact if_pos hv₂
  obtain ⟨ho₄, hseen₄⟩ := MmioSys.step_seen (p := p) hw₃ ho₃ (congrArg C2Tx.mmioRdValid hfiu)
  refine ⟨ho₄, hseen₄.trans ?_⟩
  rw [hfiu, hseen₃, hseen₂, hseen₁]

theorem own_read_answered_hits : ((mmioReads platform200).run restingSys hitsCycles).outstanding = none ∧
    ((mmioReads platform200).run restingSys hitsCycles).seen = [(5, 8)] :=
  own_read_answered reachable_restingSys (by decide) rfl

end Reads

end SdbFpga.Fpga
