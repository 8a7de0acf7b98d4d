import SdbFpga.Fpga.DpScanAfu
import SdbFpga.Lib.Transition

/-!
# The eight slices against one filter unit

Every run of the unit, with any inputs and resets: what is posted is the line that was received, filtered as a whole.

* `Watched` : the unit with the predicate of the cycle before, `watchedRuns` : its runs;
* `Filtering`, `Filtering.step` : no slice is done before `STATE_PROCESSING`, and there the slices are a chain;
* `LineFiltered` : the result line against `filter_unit`, `p64` and `p32`;
* `lineFiltered_of_reachable` : it holds once all slices are done.
-/

namespace SdbFpga.Fpga
open Transition Bits

/-- The unit, and of the cycle before: `filter_pred`, and whether `CSR[1]` was written. -/
structure Watched where
  afu : DpScanAfu
  predicate : BitVec 4
  rewritten : Bool

def Watched.step (σ : Watched) (w : DpWires) : Watched := ⟨σ.afu.step w, σ.afu.filterPred, (w.wrCsrs 1).en⟩

/-- All runs that begin with a reset, from any contents of the registers. -/
def watchedRuns : System Watched DpWires where
  init := fun σ => ∃ s w, w.reset = true ∧ σ = Watched.step ⟨s, 0, false⟩ w
  permits := fun _ _ => True
  step := Watched.step

instance (σ : Watched) (w : DpWires) : Decidable (watchedRuns.permits σ w) := inferInstanceAs (Decidable True)

/-- `bit_result` is the line `cl` filtered: lane by lane, by one unit, by two and by four. -/
structure LineFiltered (bitResult : ClData) (predicate : BitVec 4) (cl : ClData) : Prop where
  lanes : ∀ l < 128, bitResult.getLsbD l = decide (predicate.toNat ≤ (lane 4 l cl).toNat)
  whole : ∀ u, bitResult.extractLsb' 0 128 = (filterUnit false true predicate cl u).bitResult
  halves : ∀ v : Nat → SliceUnit 64, bitResult.extractLsb' 0 128 =
    (p64 false true predicate (lane 256 1 cl) (v 1)).bitResult ++
      (p64 false true predicate (lane 256 0 cl) (v 0)).bitResult
  quarters : ∀ v : Nat → SliceUnit 32, bitResult.extractLsb' 0 128 =
    (p32 false true predicate (lane 128 3 cl) (v 3)).bitResult ++
      (p32 false true predicate (lane 128 2 cl) (v 2)).bitResult ++
        (p32 false true predicate (lane 128 1 cl) (v 1)).bitResult ++
          (p32 false true predicate (lane 128 0 cl) (v 0)).bitResult
  rest : ∀ l, 128 ≤ l → bitResult.getLsbD l = false

/-! ## The invariant -/

structure Filtering (σ : Watched) : Prop where
  high : σ.afu.bitResultHigh = 0
  empty : σ.afu.state = .req ∨ σ.afu.state = .rsp → σ.afu.Chain 0 0 0
  chain : σ.afu.state = .processing → ∃ j, σ.afu.Chain σ.predicate σ.afu.rspData j
  predicate_eq : σ.rewritten = false → σ.predicate = σ.afu.filterPred

section Step
variable {s : DpScanAfu} {w : DpWires}

theorem step_state : (s.step w).state = s.nextState w := rfl

theorem step_bitResultHigh (h : s.bitResultHigh = 0 ∨ w.reset = true) : (s.step w).bitResultHigh = 0 := by
  show (s.memoryWrite w).bitResultHigh = 0
  unfold DpScanAfu.memoryWrite
  cases hr : w.reset with
  | true => rfl
  | false => exact h.resolve_right (by simp [hr])

theorem step_filterPred (h : (w.wrCsrs 1).en = false) : (s.step w).filterPred = s.filterPred := by
  simp [DpScanAfu.step, DpScanAfu.csrRegs, h]

/-- `STATE_REQ` and `STATE_RSP` are entered from `STATE_IDLE`. -/
theorem empty_step (hempty : s.state = .req ∨ s.state = .rsp → s.Chain 0 0 0)
    (hnext : (s.step w).state = .req ∨ (s.step w).state = .rsp) : (s.step w).Chain 0 0 0 := by
  rw [step_state, DpScanAfu.nextState] at hnext
  cases hs : s.state with
  | idle => exact chain_step_idle w hs
  | req => exact (hempty (.inl hs)).congr (units_step_hold (by simp [hs]) (by simp [hs]))
  | rsp => exact (hempty (.inr hs)).congr (units_step_hold (by simp [hs]) (by simp [hs]))
  | waiting =>
    rw [hs] at hnext
    split_ifs at hnext <;> simp at hnext
  | processing =>
    rw [hs] at hnext
    split_ifs at hnext <;> simp at hnext

/-- `STATE_PROCESSING` is entered with no slice done, and every cycle in it goes over all the slices below one more. -/
theorem chain_step {predicate : BitVec 4} (hempty : s.state = .req ∨ s.state = .rsp → s.Chain 0 0 0)
    (hchain : s.state = .processing → ∃ j, s.Chain predicate s.rspData j) (hnext : (s.step w).state = .processing) :
    ∃ j, (s.step w).Chain s.filterPred (s.step w).rspData j := by
  rw [step_state, DpScanAfu.nextState] at hnext
  cases hs : s.state with
  | rsp =>
    have hhold := (hempty (.inr hs)).congr (units_step_hold (w := w) (by simp [hs]) (by simp [hs]))
    exact ⟨0, hhold.of_zero _ _⟩
  | processing =>
    obtain ⟨j, hj⟩ := hchain hs
    have hdata : (s.step w).rspData = s.rspData := by simp [DpScanAfu.step, DpScanAfu.readResponse, hs]
    rw [hdata]
    exact ⟨j + 1, hj.step_processing w hs⟩
  | waiting =>
    rw [hs] at hnext
    split_ifs at hnext
  | idle =>
    rw [hs] at hnext
    split_ifs at hnext
  | req =>
    rw [hs] at hnext
    split_ifs at hnext

end Step

theorem Filtering.step {σ : Watched} (h : Filtering σ) (w : DpWires) : Filtering (σ.step w) where
  high := step_bitResultHigh (.inl h.high)
  empty := empty_step h.empty
  chain := chain_step h.empty h.chain
  predicate_eq := fun hw => (step_filterPred hw).symm

theorem filtering_of_reachable {σ : Watched} (h : Reachable watchedRuns σ) : Filtering σ := by
  refine h.invariant (P := Filtering) ?_ fun σ w _ hσ _ => hσ.step w
  rintro _ ⟨s, w, hr, rfl⟩
  have hwaiting : (s.step w).state = .waiting := by
    rw [step_state, DpScanAfu.nextState, if_pos hr]
  refine ⟨step_bitResultHigh (.inr hr), ?_, ?_, fun hw => (step_filterPred hw).symm⟩
  · intro hs
    simp [Watched.step, hwaiting] at hs
  · intro hs
    simp [Watched.step, hwaiting] at hs

/-! ## The result -/

theorem lineFiltered_of_chain {s : DpScanAfu} {predicate : BitVec 4} {cl : ClData} {j : Nat}
    (h : s.Chain predicate cl j) (hj : 8 ≤ j) (hhigh : s.bitResultHigh = 0) :
    LineFiltered s.bitResult predicate cl := by
  have hwhole := fun u => h.bitResult hj u
  refine ⟨?_, hwhole, ?_, ?_, ?_⟩
  · intro l hl
    have hbit := congrArg (fun x => x.getLsbD l) (hwhole (SliceUnit.cleared 128))
    simp only [getLsbD_filterUnit predicate cl _ hl] at hbit
    simpa [hl] using hbit
  · intro v
    rw [hwhole (SliceUnit.cleared 128), filterUnit_eq_p64 predicate cl _ v]
  · intro v
    rw [hwhole (SliceUnit.cleared 128), filterUnit_eq_p32 predicate cl _ v]
  · intro l hl
    by_cases h512 : l < 512
    · rw [getLsbD_bitResult s h512, dif_neg (by omega), hhigh]
      simp
    · exact BitVec.getLsbD_of_ge _ _ (by omega)

/-- In `STATE_PROCESSING`: the state is left only when all slices are done, and then `bit_result` is the line of this
pass filtered with the predicate of the cycle before. A line that is posted is this result. -/
theorem lineFiltered_of_reachable {σ : Watched} (h : Reachable watchedRuns σ) (w : DpWires) :
    (σ.afu.state = .processing → w.reset = false → (σ.afu.step w).state ≠ .processing →
      ∀ i, (σ.afu.units i).processingDone = true) ∧
    (σ.afu.state = .processing → (∀ i, (σ.afu.units i).processingDone = true) →
      LineFiltered σ.afu.bitResult σ.predicate σ.afu.rspData) ∧
    ((σ.afu.step w).c1Valid = true → σ.afu.state = .processing ∧ (∀ i, (σ.afu.units i).processingDone = true) ∧
      LineFiltered (σ.afu.step w).c1Data σ.predicate σ.afu.rspData) ∧
    (σ.rewritten = false → σ.predicate = σ.afu.filterPred) := by
  obtain ⟨hhigh, -, hchain, hpredicate⟩ := filtering_of_reachable h
  have hresult : σ.afu.state = .processing → (∀ i, (σ.afu.units i).processingDone = true) →
      LineFiltered σ.afu.bitResult σ.predicate σ.afu.rspData := by
    intro hs hdone
    obtain ⟨j, hj⟩ := hchain hs
    have hall := hj.allProcessed
    rw [(allProcessed_iff σ.afu).mpr hdone, eq_comm, decide_eq_true_iff] at hall
    exact lineFiltered_of_chain hj hall hhigh
  refine ⟨?_, hresult, ?_, hpredicate⟩
  · intro hs hr hnext
    rw [step_state, DpScanAfu.nextState, hr, hs] at hnext
    rw [← allProcessed_iff]
    by_contra hall
    simp [hall] at hnext
  · intro hvalid
    cases hr : w.reset with
    | true => simp [DpScanAfu.step, DpScanAfu.memoryWrite, hr] at hvalid
    | false =>
      simp only [DpScanAfu.step, DpScanAfu.memoryWrite, hr, Bool.false_eq_true, if_false, Bool.and_eq_true,
        decide_eq_true_iff] at hvalid ⊢
      obtain ⟨⟨hs, hall⟩, -⟩ := hvalid
      have hdone := (allProcessed_iff σ.afu).mp hall
      exact ⟨hs, hdone, hresult hs hdone⟩

/-- One line, from the reset to the cycle that posts it. -/
def Watched.oneLine (predicate : MmioData) (cl : ClData) : Watched :=
  watchedRuns.run (Watched.step ⟨.zero, 0, false⟩ { DpWires.quiet with reset := true })
    ([.csr 0 1, .csr 1 predicate, .csr 4 0x1000, .quiet, .quiet, .quiet, .quiet, .respond cl, .quiet] ++
      List.replicate 8 .quiet)

/-- The line `0x9753` with predicate 7: of its low lanes 3, 5, 7 and 9 the last two are selected. -/
theorem lineFiltered_oneLine : LineFiltered (Watched.oneLine 7 0x9753).afu.bitResult 7 0x9753 ∧
    (Watched.oneLine 7 0x9753).afu.bitResult.extractLsb' 0 4 = 0b1100#4 := by
  have hreach : Reachable watchedRuns (Watched.oneLine 7 0x9753) :=
    Reachable.run (.init ⟨.zero, { DpWires.quiet with reset := true }, rfl, rfl⟩) (by decide +kernel)
  have hs : (Watched.oneLine 7 0x9753).afu.state = .processing := by decide +kernel
  have hdone : ∀ i, ((Watched.oneLine 7 0x9753).afu.units i).processingDone = true := by decide +kernel
  have hpredicate : (Watched.oneLine 7 0x9753).predicate = 7 := by decide +kernel
  have hdata : (Watched.oneLine 7 0x9753).afu.rspData = 0x9753 := by decide +kernel
  have hline := (lineFiltered_of_reachable hreach .quiet).2.1 hs hdone
  rw [hpredicate, hdata] at hline
  exact ⟨hline, by decide +kernel⟩

end SdbFpga.Fpga
