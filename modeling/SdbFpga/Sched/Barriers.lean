import SdbFpga.Lib.Barrier

/-!
# The barriers of the handlers

`createProcessingUnit` creates the handlers, `startThreads` and `joinThreads` run them, and every handler crosses the
three barriers of `Syncronizer`.

* `createProcessingUnit` : the handlers, with and without `__FPGA__`;
* `master` : the main thread and the started handlers, in any order;
* `BarriersSafe` : no deadlock and no barrier passed early, `barriersSafe_iff`;
* `deadlock_of_terminal`, `exists_deadlock` : how the runs with an `FPGAHandler` end.
-/

namespace SdbFpga.Sched
open Transition

/-- The barriers of `Syncronizer`, each initialised with `num_of_workers`. -/
inductive SyncBarrier
  | startBarrier
  | fpgaBarrier
  | endBarrier
  deriving DecidableEq, Repr

inductive Handler
  | coreHandler (thrId : Nat)
  | fpgaHandler
  deriving DecidableEq, Repr

/-- The barriers that `run` waits on. -/
def Handler.run : Handler → List SyncBarrier
  | .coreHandler _ => [.startBarrier, .fpgaBarrier, .endBarrier]
  | .fpgaHandler => [.startBarrier, .fpgaBarrier, .endBarrier]

/-- The handlers, in the order of `startThreads`; `fpga` says whether `__FPGA__` is defined. -/
def createProcessingUnit (numOfComputeUnits : Nat) (fpga : Bool) : List Handler :=
  -- `i` starts at 0: the loop over `i = 1` is commented out
  (List.range numOfComputeUnits).map Handler.coreHandler ++ if fpga then [.fpgaHandler] else []

/-! ## The main thread and the handlers -/

structure MasterState where
  /-- the handlers started by `startThreads` -/
  started : Nat
  /-- the handlers joined by `joinThreads` -/
  joined : Nat
  sync : Barrier.State Handler

inductive MasterStep
  | start
  | wait (h : Handler)
  | join
  deriving DecidableEq, Repr

section Master
variable (numOfComputeUnits : Nat) (fpga : Bool)

/-- The handlers on the barriers. -/
def handlers : System (Barrier.State Handler) Handler :=
  Barrier.system (createProcessingUnit numOfComputeUnits fpga).toFinset numOfComputeUnits Handler.run

def MasterState.permits (s : MasterState) : MasterStep → Prop
  | .start => s.started < (createProcessingUnit numOfComputeUnits fpga).length
  | .wait h => h ∈ (createProcessingUnit numOfComputeUnits fpga).take s.started ∧
      (handlers numOfComputeUnits fpga).permits s.sync h
  | .join => s.started = (createProcessingUnit numOfComputeUnits fpga).length ∧
      ∃ h ∈ (createProcessingUnit numOfComputeUnits fpga)[s.joined]?, s.sync.passed h = h.run.length

def MasterState.step (s : MasterState) : MasterStep → MasterState
  | .start => { s with started := s.started + 1 }
  | .wait h => { s with sync := (handlers numOfComputeUnits fpga).step s.sync h }
  | .join => { s with joined := s.joined + 1 }

/-- Every schedule of the main thread and the handlers. -/
def master : System MasterState MasterStep where
  init := fun s => s = ⟨0, 0, Barrier.State.new Handler⟩
  permits := fun s i => s.permits numOfComputeUnits fpga i
  step := fun s i => s.step numOfComputeUnits fpga i

instance : ∀ (s : MasterState) (i : MasterStep), Decidable ((master numOfComputeUnits fpga).permits s i)
  | s, .start => inferInstanceAs (Decidable (s.started < _))
  | s, .wait h => inferInstanceAs (Decidable (h ∈ List.take s.started _ ∧ h ∈ List.toFinset _ ∧ s.sync.waiting h = false ∧
      (s.sync.next Handler.run h).isSome = true))
  | s, .join => inferInstanceAs (Decidable (s.started = _ ∧ ∃ h ∈ _[s.joined]?, s.sync.passed h = h.run.length))

/-- A handler is blocked at a barrier and no thread can take a step. -/
def Deadlock (s : MasterState) : Prop :=
  (∃ h ∈ createProcessingUnit numOfComputeUnits fpga, s.sync.waiting h = true) ∧
    ∀ i, ¬ (master numOfComputeUnits fpga).permits s i

/-- The barriers never deadlock and hold every handler back until all have arrived. -/
def BarriersSafe : Prop :=
  ∀ s, Reachable (master numOfComputeUnits fpga) s → ¬ Deadlock numOfComputeUnits fpga s ∧
    Barrier.NoEarlyPass (createProcessingUnit numOfComputeUnits fpga).toFinset Handler.run s.sync

variable {numOfComputeUnits fpga} {s : MasterState}

theorem run_eq (h : Handler) : h.run = [.startBarrier, .fpgaBarrier, .endBarrier] := by
  cases h <;> rfl

theorem createProcessingUnit_nodup : (createProcessingUnit numOfComputeUnits fpga).Nodup := by
  have hcores : ((List.range numOfComputeUnits).map Handler.coreHandler).Nodup :=
    List.nodup_range.map fun _ _ h => Handler.coreHandler.inj h
  refine hcores.append ?_ ?_
  · cases fpga <;> simp
  · intro h hcore hfpga
    obtain ⟨i, _, rfl⟩ := List.mem_map.mp hcore
    cases fpga <;> simp at hfpga

theorem length_createProcessingUnit :
    (createProcessingUnit numOfComputeUnits fpga).length = numOfComputeUnits + fpga.toNat := by
  cases fpga <;> simp [createProcessingUnit]

theorem card_handlers :
    (createProcessingUnit numOfComputeUnits fpga).toFinset.card = numOfComputeUnits + fpga.toNat := by
  rw [List.toFinset_card_of_nodup createProcessingUnit_nodup, length_createProcessingUnit]

/-! ### The barriers in a run of the main thread -/

/-- What the handlers do in a run of the program. -/
theorem reachable_sync (h : Reachable (master numOfComputeUnits fpga) s) :
    Reachable (handlers numOfComputeUnits fpga) s.sync := by
  refine h.invariant (P := fun s => Reachable (handlers numOfComputeUnits fpga) s.sync) ?_ ?_
  · rintro _ rfl
    exact .init rfl
  · rintro s (_ | t | _) _ hs hi
    · exact hs
    · exact hs.step hi.2
    · exact hs

/-- The main thread can start any number of handlers first. -/
theorem reachable_started (k : Nat) (hk : k ≤ (createProcessingUnit numOfComputeUnits fpga).length) :
    Reachable (master numOfComputeUnits fpga) ⟨k, 0, Barrier.State.new Handler⟩ := by
  induction k with
  | zero => exact .init rfl
  | succ k ih => exact (ih (by omega)).step (i := .start) (show k < _ by omega)

/-- What the handlers can do, they do in a run of the program. -/
theorem reachable_master {sync : Barrier.State Handler} (h : Reachable (handlers numOfComputeUnits fpga) sync) :
    Reachable (master numOfComputeUnits fpga) ⟨(createProcessingUnit numOfComputeUnits fpga).length, 0, sync⟩ := by
  induction h with
  | init h0 =>
    rw [show _ = Barrier.State.new Handler from h0]
    exact reachable_started _ (Nat.le_refl _)
  | @step sync t _ hi ih =>
    have hmem : t ∈ (createProcessingUnit numOfComputeUnits fpga).take
        (createProcessingUnit numOfComputeUnits fpga).length := by
      rw [List.take_length]
      exact List.mem_toFinset.mp hi.1
    have hpermits : (master numOfComputeUnits fpga).permits
        ⟨(createProcessingUnit numOfComputeUnits fpga).length, 0, sync⟩ (.wait t) := ⟨hmem, hi⟩
    exact ih.step hpermits

/-- The main thread cannot hold a handler back. -/
theorem sync_deadlock (h : Deadlock numOfComputeUnits fpga s) : Barrier.Deadlock
    (createProcessingUnit numOfComputeUnits fpga).toFinset numOfComputeUnits Handler.run s.sync := by
  obtain ⟨⟨t, ht, hwait⟩, hstuck⟩ := h
  refine ⟨⟨t, List.mem_toFinset.mpr ht, hwait⟩, fun u hu => ?_⟩
  have hall : (createProcessingUnit numOfComputeUnits fpga).length ≤ s.started := Nat.not_lt.mp (hstuck .start)
  refine hstuck (.wait u) ⟨?_, hu⟩
  rw [List.take_of_length_le hall]
  exact List.mem_toFinset.mp hu.1

/-- The main thread joins the handlers that are done and then waits for the others. -/
theorem exists_joined {sync : Barrier.State Handler} (joined : Nat)
    (h : Reachable (master numOfComputeUnits fpga)
      ⟨(createProcessingUnit numOfComputeUnits fpga).length, joined, sync⟩) :
    ∃ joined, Reachable (master numOfComputeUnits fpga)
        ⟨(createProcessingUnit numOfComputeUnits fpga).length, joined, sync⟩ ∧
      ¬ (master numOfComputeUnits fpga).permits
        ⟨(createProcessingUnit numOfComputeUnits fpga).length, joined, sync⟩ .join := by
  induction hleft : (createProcessingUnit numOfComputeUnits fpga).length - joined generalizing joined with
  | zero =>
    refine ⟨joined, h, ?_⟩
    rintro ⟨_, t, hget, _⟩
    rw [List.getElem?_eq_none (Nat.le_of_sub_eq_zero hleft)] at hget
    cases hget
  | succ k ih =>
    by_cases hjoin : (master numOfComputeUnits fpga).permits
        ⟨(createProcessingUnit numOfComputeUnits fpga).length, joined, sync⟩ .join
    · exact ih (joined + 1) (h.step hjoin) (by omega)
    · exact ⟨joined, h, hjoin⟩

/-- A deadlock of the handlers is one of the program. -/
theorem exists_deadlock_of_sync {sync : Barrier.State Handler} (hr : Reachable (handlers numOfComputeUnits fpga) sync)
    (h : Barrier.Deadlock (createProcessingUnit numOfComputeUnits fpga).toFinset numOfComputeUnits Handler.run sync) :
    ∃ s, Reachable (master numOfComputeUnits fpga) s ∧ Deadlock numOfComputeUnits fpga s := by
  obtain ⟨⟨t, ht, hwait⟩, hstuck⟩ := h
  obtain ⟨joined, hjoined, hjoin⟩ := exists_joined 0 (reachable_master hr)
  refine ⟨_, hjoined, ⟨t, List.mem_toFinset.mp ht, hwait⟩, ?_⟩
  rintro (_ | u | _) hi
  · exact Nat.lt_irrefl _ hi
  · exact hstuck u hi.2
  · exact hjoin hi

/-! ## The number of handlers -/

theorem syncBarriers_nodup : [SyncBarrier.startBarrier, .fpgaBarrier, .endBarrier].Nodup := by decide

/-- Without `__FPGA__` as many handlers are created as the barriers are wide. -/
theorem barriersSafe_of_cores : BarriersSafe numOfComputeUnits false := by
  intro s hs
  have hcard : (createProcessingUnit numOfComputeUnits false).toFinset.card = numOfComputeUnits := card_handlers
  have hsync := reachable_sync hs
  unfold handlers at hsync
  constructor
  · intro hdead
    have hdead := sync_deadlock hdead
    generalize (createProcessingUnit numOfComputeUnits false).toFinset = threads at hcard hsync hdead
    subst hcard
    exact Barrier.not_deadlock_of_card_eq (fun t _ => run_eq t) syncBarriers_nodup hsync hdead
  · generalize (createProcessingUnit numOfComputeUnits false).toFinset = threads at hcard hsync ⊢
    subst hcard
    exact Barrier.noEarlyPass_of_card_eq (fun t _ => run_eq t) syncBarriers_nodup hsync

/-- The `FPGAHandler` comes on top of them: the first handlers leave the start barrier without the last. -/
theorem not_barriersSafe_of_fpga (hn : 1 ≤ numOfComputeUnits) : ¬ BarriersSafe numOfComputeUnits true := by
  intro hsafe
  have hlt : numOfComputeUnits < (createProcessingUnit numOfComputeUnits true).toFinset.card := by
    rw [card_handlers]
    exact Nat.lt_succ_self _
  obtain ⟨sync, hsync, hearly⟩ := Barrier.early_pass (fun t _ => run_eq t) syncBarriers_nodup (by simp) hn hlt
  exact hearly (hsafe _ (reachable_master hsync)).2

/-- With the `FPGAHandler` and two barriers or more there is no other end than a deadlock. -/
theorem deadlock_of_terminal (hn : 2 ≤ numOfComputeUnits) (hs : Reachable (master numOfComputeUnits true) s)
    (hstuck : ∀ i, ¬ (master numOfComputeUnits true).permits s i) : Deadlock numOfComputeUnits true s := by
  have hall : (createProcessingUnit numOfComputeUnits true).length ≤ s.started := Nat.not_lt.mp (hstuck .start)
  have hsync : ∀ t, ¬ (handlers numOfComputeUnits true).permits s.sync t := by
    intro t ht
    refine hstuck (.wait t) ⟨?_, ht⟩
    rw [List.take_of_length_le hall]
    exact List.mem_toFinset.mp ht.1
  obtain ⟨⟨t, ht, hwait⟩, _⟩ := Barrier.deadlock_of_terminal (fun t _ => run_eq t) syncBarriers_nodup (by simp) hn
    card_handlers (reachable_sync hs) hsync
  exact ⟨⟨t, List.mem_toFinset.mp ht, hwait⟩, hstuck⟩

theorem exists_deadlock (hn : 2 ≤ numOfComputeUnits) :
    ∃ s, Reachable (master numOfComputeUnits true) s ∧ Deadlock numOfComputeUnits true s := by
  obtain ⟨sync, hsync, hstuck⟩ := Barrier.exists_terminal (fun t _ => run_eq t) syncBarriers_nodup
    (show 0 < numOfComputeUnits by omega) (reachable_sync (.init rfl) : Reachable (handlers numOfComputeUnits true) _)
  refine exists_deadlock_of_sync hsync ?_
  exact Barrier.deadlock_of_terminal (fun t _ => run_eq t) syncBarriers_nodup (by simp) hn card_handlers hsync hstuck

/-- The barriers are safe exactly in the build without `__FPGA__`. -/
theorem barriersSafe_iff (hn : 1 ≤ numOfComputeUnits) : BarriersSafe numOfComputeUnits fpga ↔ fpga = false := by
  cases fpga with
  | false => exact iff_of_true barriersSafe_of_cores rfl
  | true => exact iff_of_false (not_barriersSafe_of_fpga hn) Bool.noConfusion

end Master

theorem barriersSafe_iff_two : ¬ BarriersSafe 2 true := fun h => by
  cases (barriersSafe_iff (by decide)).mp h

/-- Two cores and the `FPGAHandler` start, the cores cross all barriers and are joined. -/
def twoCores : List MasterStep :=
  [.start, .start, .start, .wait (.coreHandler 0), .wait (.coreHandler 1), .wait (.coreHandler 0),
    .wait (.coreHandler 1), .wait (.coreHandler 0), .wait (.coreHandler 1), .wait .fpgaHandler, .join, .join]

/-- The `FPGAHandler` is left alone at the start barrier. -/
theorem twoCores_deadlock : ∃ s, Reachable (master 2 true) s ∧ Deadlock 2 true s := by
  have hsteps : (master 2 true).Steps (master 2 true).permits ⟨0, 0, Barrier.State.new Handler⟩ twoCores := by
    decide +kernel
  refine ⟨_, (Reachable.init rfl).run hsteps, ⟨.fpgaHandler, by decide, by decide +kernel⟩, ?_⟩
  have hcalls : ∀ h ∈ createProcessingUnit 2 true, ¬ (master 2 true).permits
      ((master 2 true).run ⟨0, 0, Barrier.State.new Handler⟩ twoCores) (.wait h) := by decide +kernel
  rintro (_ | h | _)
  · decide +kernel
  · intro hi
    exact hcalls h (List.mem_of_mem_take hi.1) hi
  · decide +kernel

end SdbFpga.Sched
