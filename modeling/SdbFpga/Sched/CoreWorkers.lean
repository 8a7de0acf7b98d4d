import Mathlib.Algebra.BigOperators.Fin
import Mathlib.Algebra.Order.BigOperators.Group.Finset
import SdbFpga.Api.SimdScan
import SdbFpga.Sched.WorkItems

/-!
# The cores on one scan queue

Every `CoreHandler` in `scanAtATime` takes nodes from the queue and scans the partitions 0, 1, 2, ... of its own
counter; the node it took is not looked at.

* `CoreHandler.step` : the loop, one access at a time, `coreWorkers` : all interleavings of `k` cores;
* `Workers.drain` : the loop of one core as the loop of `DrainLoop`, `exists_drain` : as long as the others have found
  the queue empty;
* `OneWorker` : only one core finds the queue not empty, `steps_oneWorker_iff`;
* `EachScannedOnce`, `eachScannedOnce_iff` : when the cores scan every partition once.
-/

namespace SdbFpga.Sched
open Data Api Exec Transition

/-- Where `scanAtATime` is: before either load of `isNotEmpty`, in `nextElement`, before `simdScan8`, or behind the
loop. -/
inductive CorePc (ν : Type)
  | test
  | testTail (head : Option ν)
  | call (pc : Pc ν)
  | scan (workUnit : Option ν)
  | exit
  deriving DecidableEq, Repr

/-- A `CoreHandler` in `scanAtATime`. `scanned` is history: the arguments of `simdScan8`. -/
structure CoreHandler (ν : Type) where
  pc : CorePc ν
  partId : Int
  loQtyCount : Int
  nodePool : List (Option ν)
  scanned : List Int

def CoreHandler.new (ν : Type) : CoreHandler ν where
  pc := .test
  partId := 0
  loQtyCount := 0
  nodePool := []
  scanned := []

section Cores
variable {ν : Type} [DecidableEq ν] (scanJob : ScanApi) (dataBlock : Int → Nat → Word)

/-- The next access of a core, or its scan. -/
def CoreHandler.step (w : CoreHandler ν) (q : Queue ν) (spurious : Bool) : Queue ν × CoreHandler ν :=
  match w.pc with
  | .test => (q, { w with pc := .testTail q.head })
  | .testTail head => if head ≠ q.tail then (q, { w with pc := .call .nextHead }) else (q, { w with pc := .exit })
  | .call pc =>
    let r := q.exec spurious pc
    match r.2.1 with
    | .nextDone result => (r.1, { w with pc := .scan result })
    | pc' => (r.1, { w with pc := .call pc' })
  | .scan workUnit =>
    -- the counter is scanned, and the node put into the pool
    (q, { pc := .test
          partId := w.partId + 1
          loQtyCount := int32 (w.loQtyCount + (scanJob.simdScan8 (dataBlock w.partId) w.partId).count)
          nodePool := w.nodePool ++ [workUnit]
          scanned := w.scanned ++ [w.partId] })
  | .exit => (q, w)

/-- `k` cores on one queue. -/
structure Workers (k : Nat) (ν : Type) where
  queue : Queue ν
  worker : Fin k → CoreHandler ν

/-- All cores in front of the loop. -/
def Workers.new (k : Nat) (q : Queue ν) : Workers k ν where
  queue := q
  worker := fun _ => CoreHandler.new ν

/-- A step of core `i.1`. -/
def Workers.step {k : Nat} (s : Workers k ν) (i : Fin k × Bool) : Workers k ν :=
  let r := (s.worker i.1).step scanJob dataBlock s.queue i.2
  ⟨r.1, Function.update s.worker i.1 r.2⟩

/-- Every interleaving of the cores. -/
def coreWorkers (k : Nat) (q : Queue ν) : System (Workers k ν) (Fin k × Bool) where
  init := fun s => s = Workers.new k q
  permits := fun s i => (s.worker i.1).pc ≠ .exit
  step := Workers.step scanJob dataBlock

instance {k : Nat} (q : Queue ν) (s : Workers k ν) (i : Fin k × Bool) :
    Decidable ((coreWorkers scanJob dataBlock k q).permits s i) :=
  inferInstanceAs (Decidable ((s.worker i.1).pc ≠ .exit))

/-- The core has found the queue not empty. -/
def CoreHandler.entered (w : CoreHandler ν) : Bool :=
  !w.nodePool.isEmpty || match w.pc with
    | .call _ => true
    | .scan _ => true
    | _ => false

/-- `isNotEmpty` returns true only where no other core has seen it do so. -/
def OneWorker {k : Nat} (s : Workers k ν) (i : Fin k × Bool) : Prop :=
  match (s.worker i.1).pc with
  | .testTail head => head ≠ s.queue.tail → ∀ u, u ≠ i.1 → (s.worker u).entered = false
  | _ => True

instance {k : Nat} (s : Workers k ν) (i : Fin k × Bool) : Decidable (OneWorker s i) := by
  unfold OneWorker
  split <;> infer_instance

/-- The partitions given to `simdScan8` by all cores. -/
def Workers.scanned {k : Nat} (s : Workers k ν) : Multiset Int := ∑ t, ((s.worker t).scanned : Multiset Int)

/-- The cores have scanned the partitions of the queue and counted their values. -/
def EachScannedOnce {k : Nat} (partIds : Multiset Int) (s : Workers k ν) : Prop :=
  s.scanned = partIds ∧
    ∑ t, (s.worker t).loQtyCount = int32 (partIds.map fun p => (scanJob.simdScan8 (dataBlock p) p).count).sum

/-! ## One step -/

variable {scanJob dataBlock} {k : Nat} {s : Workers k ν}

variable (scanJob dataBlock) in
/-- A core stays among those that found the queue not empty, and becomes one at the second load of `isNotEmpty`. -/
theorem CoreHandler.entered_step (w : CoreHandler ν) (q : Queue ν) (spurious : Bool) :
    (w.step scanJob dataBlock q spurious).2.entered = true ↔
      w.entered = true ∨ ∃ head, w.pc = .testTail head ∧ head ≠ q.tail := by
  obtain ⟨pc, partId, loQtyCount, nodePool, scanned⟩ := w
  match pc with
  | .test => simp [CoreHandler.step, CoreHandler.entered]
  | .testTail head =>
    by_cases hdiff : head ≠ q.tail
    · simp [CoreHandler.step, CoreHandler.entered, hdiff]
    · simp [CoreHandler.step, CoreHandler.entered, not_not.mp hdiff]
  | .call pc =>
    refine iff_of_true ?_ (.inl (by simp [CoreHandler.entered]))
    simp only [CoreHandler.step]
    split
    · simp [CoreHandler.entered]
    · simp [CoreHandler.entered]
  | .scan workUnit => simp [CoreHandler.step, CoreHandler.entered]
  | .exit => simp [CoreHandler.step, CoreHandler.entered]

/-- Without a nonempty queue the core leaves it alone. -/
theorem CoreHandler.step_queue {w : CoreHandler ν} {q : Queue ν} {spurious : Bool}
    (hout : (w.step scanJob dataBlock q spurious).2.entered = false) :
    (w.step scanJob dataBlock q spurious).1 = q := by
  obtain ⟨pc, partId, loQtyCount, nodePool, scanned⟩ := w
  match pc with
  | .test => rfl
  | .testTail head =>
    simp only [CoreHandler.step]
    split <;> rfl
  | .call pc =>
    have hin : (CoreHandler.mk (.call pc) partId loQtyCount nodePool scanned).entered = true := by
      simp [CoreHandler.entered]
    have hin' := (CoreHandler.entered_step scanJob dataBlock _ q spurious).mpr (.inl hin)
    exact absurd (hin'.symm.trans hout) Bool.noConfusion
  | .scan _ => rfl
  | .exit => rfl

theorem Workers.step_self (i : Fin k × Bool) : (s.step scanJob dataBlock i).worker i.1 =
    ((s.worker i.1).step scanJob dataBlock s.queue i.2).2 := Function.update_self _ _ _

theorem Workers.step_other (i : Fin k × Bool) {u : Fin k} (hu : u ≠ i.1) :
    (s.step scanJob dataBlock i).worker u = s.worker u := Function.update_of_ne hu _ _

variable (scanJob dataBlock) in
/-- A core that has been in `nextElement` has been there ever since. -/
theorem Workers.entered_mono (i : Fin k × Bool) {u : Fin k} (hin : (s.worker u).entered = true) :
    ((s.step scanJob dataBlock i).worker u).entered = true := by
  by_cases hu : u = i.1
  · subst hu
    rw [Workers.step_self]
    exact (CoreHandler.entered_step _ _ _ _ _).mpr (.inl hin)
  · rw [Workers.step_other i hu]
    exact hin

theorem Workers.entered_run (q : Queue ν) (labels : List (Fin k × Bool)) {u : Fin k}
    (hin : (s.worker u).entered = true) :
    (((coreWorkers scanJob dataBlock k q).run s labels).worker u).entered = true := by
  induction labels generalizing s with
  | nil => exact hin
  | cons i labels ih => exact ih (Workers.entered_mono _ _ i hin)

/-- No other core than `t` has found the queue not empty. -/
def Workers.Only (s : Workers k ν) (t : Fin k) : Prop := ∀ u, u ≠ t → (s.worker u).entered = false

theorem Workers.Only.of_step {t : Fin k} {i : Fin k × Bool} (h : (s.step scanJob dataBlock i).Only t) : s.Only t := by
  intro u hu
  by_contra hin
  exact absurd ((Workers.entered_mono _ _ i ((Bool.not_eq_false _).mp hin)).symm.trans (h u hu)) Bool.noConfusion

variable (scanJob dataBlock) in
/-- A permitted step leaves one core at most. -/
theorem Workers.Only.step {t : Fin k} {i : Fin k × Bool} (h : s.Only t) (hone : OneWorker s i) :
    ∃ t', (s.step scanJob dataBlock i).Only t' := by
  by_cases henter : ∃ head, (s.worker i.1).pc = .testTail head ∧ head ≠ s.queue.tail
  · obtain ⟨head, hpc, hdiff⟩ := henter
    refine ⟨i.1, fun u hu => ?_⟩
    rw [Workers.step_other i hu]
    unfold OneWorker at hone
    rw [hpc] at hone
    exact hone hdiff u hu
  · refine ⟨t, fun u hu => ?_⟩
    by_cases hui : u = i.1
    · subst hui
      rw [Workers.step_self]
      by_contra hin
      rcases (CoreHandler.entered_step _ _ _ _ _).mp ((Bool.not_eq_false _).mp hin) with hold | hnew
      · exact absurd (hold.symm.trans (h _ hu)) Bool.noConfusion
      · exact henter hnew
    · rw [Workers.step_other i hui]
      exact h u hu

/-- At most one core was in `nextElement` exactly if every step left the others out. -/
theorem steps_oneWorker_iff (q : Queue ν) {t : Fin k} (h : s.Only t) (labels : List (Fin k × Bool)) :
    (coreWorkers scanJob dataBlock k q).Steps OneWorker s labels ↔
      ∃ t', ((coreWorkers scanJob dataBlock k q).run s labels).Only t' := by
  induction labels generalizing s t with
  | nil => exact iff_of_true trivial ⟨t, h⟩
  | cons i labels ih =>
    constructor
    · rintro ⟨hone, hrest⟩
      obtain ⟨t', ht'⟩ := h.step scanJob dataBlock hone
      exact (ih ht').mp hrest
    · rintro ⟨t', hend⟩
      -- a core that enters with another inside would leave two in the end
      have hone : OneWorker s i := by
        unfold OneWorker
        split
        · next head hpc =>
          intro hdiff u hu
          by_contra hin
          have hin := Workers.entered_mono scanJob dataBlock i ((Bool.not_eq_false _).mp hin)
          have hself : ((s.step scanJob dataBlock i).worker i.1).entered = true := by
            rw [Workers.step_self]
            exact (CoreHandler.entered_step _ _ _ _ _).mpr (.inr ⟨head, hpc, hdiff⟩)
          have hleft : ∀ v, ((s.step scanJob dataBlock i).worker v).entered = true → v = t' := by
            intro v hv
            by_contra hne
            exact absurd ((Workers.entered_run q labels hv).symm.trans (hend v hne)) Bool.noConfusion
          exact hu ((hleft u hin).trans (hleft i.1 hself).symm)
        · trivial
      obtain ⟨t'', ht''⟩ := h.step scanJob dataBlock hone
      exact ⟨hone, (ih ht'').mpr ⟨t', hend⟩⟩

/-! ## One core alone -/

/-- Where the loop without the scan is. -/
def CorePc.loop {ν : Type} : CorePc ν → LoopPc ν
  | .test => .test
  | .testTail head => .testTail head
  | .call pc => .call pc
  | .scan _ => .test
  | .exit => .exit

/-- What `nextElement` has returned to the core. -/
def CoreHandler.results {ν : Type} (w : CoreHandler ν) : List (Option ν) :=
  w.nodePool ++ match w.pc with
    | .scan workUnit => [workUnit]
    | _ => []

/-- The loop of core `t` without its scans. -/
def Workers.drain {ν : Type} {k : Nat} (s : Workers k ν) (t : Fin k) : Drain ν :=
  ⟨s.queue, (s.worker t).pc.loop, (s.worker t).results⟩

variable (scanJob dataBlock) in
/-- The core takes a step of the loop, or scans. -/
theorem CoreHandler.drain_step (w : CoreHandler ν) (q : Queue ν) (spurious : Bool) :
    ∃ bs : List Bool, Drain.mk (w.step scanJob dataBlock q spurious).1
        (w.step scanJob dataBlock q spurious).2.pc.loop (w.step scanJob dataBlock q spurious).2.results =
      bs.foldl Drain.step ⟨q, w.pc.loop, w.results⟩ := by
  obtain ⟨pc, partId, loQtyCount, nodePool, scanned⟩ := w
  match pc with
  | .test => exact ⟨[spurious], rfl⟩
  | .testTail head =>
    refine ⟨[spurious], ?_⟩
    simp only [CoreHandler.step, CorePc.loop, List.foldl_cons, List.foldl_nil, Drain.step]
    split <;> rfl
  | .call pc =>
    refine ⟨[spurious], ?_⟩
    simp only [CoreHandler.step, CorePc.loop, List.foldl_cons, List.foldl_nil, Drain.step]
    cases (q.exec spurious pc).2.1 <;> simp [CoreHandler.results]
  | .scan workUnit => exact ⟨[], by simp [CoreHandler.step, CoreHandler.results, CorePc.loop]⟩
  | .exit => exact ⟨[], rfl⟩

/-- As long as the others have found the queue empty, a core runs the loop as if it were alone. -/
theorem exists_drain {q : Queue ν} (hr : Reachable (coreWorkers scanJob dataBlock k q) s) {t : Fin k}
    (honly : s.Only t) : ∃ bs, s.drain t = Exec.drain q bs := by
  revert honly
  refine hr.invariant (P := fun s => s.Only t → ∃ bs, s.drain t = Exec.drain q bs) ?_ ?_
  · rintro _ rfl _
    exact ⟨[], rfl⟩
  · intro s i _ ih _ honly
    obtain ⟨bs, hbs⟩ := ih honly.of_step
    by_cases ht : t = i.1
    · subst ht
      obtain ⟨bs', hstep⟩ := (s.worker i.1).drain_step scanJob dataBlock s.queue i.2
      refine ⟨bs ++ bs', ?_⟩
      have hself : Workers.drain (s.step scanJob dataBlock i) i.1 = bs'.foldl Drain.step (s.drain i.1) := by
        unfold Workers.drain
        rw [Workers.step_self]
        exact hstep
      rw [Exec.drain, List.foldl_append]
      exact hself.trans (congrArg (fun d => bs'.foldl Drain.step d) hbs)
    · have hout : ((s.worker i.1).step scanJob dataBlock s.queue i.2).2.entered = false := by
        rw [← Workers.step_self]
        exact honly i.1 (Ne.symm ht)
      refine ⟨bs, Eq.trans ?_ hbs⟩
      show Workers.drain (s.step scanJob dataBlock i) t = s.drain t
      unfold Workers.drain
      rw [Workers.step_other i ht]
      show Drain.mk ((s.worker i.1).step scanJob dataBlock s.queue i.2).1 _ _ = _
      rw [CoreHandler.step_queue hout]

/-! ## The counters -/

/-- The counter of a core is the number of nodes it took. -/
structure CoreHandler.Ok (scanJob : ScanApi) (dataBlock : Int → Nat → Word) {ν : Type} (w : CoreHandler ν) : Prop where
  partId : w.partId = w.nodePool.length
  scanned : w.scanned = (List.range w.nodePool.length).map fun p : Nat => (p : Int)
  count : w.loQtyCount = int32 (w.scanned.map fun p => (scanJob.simdScan8 (dataBlock p) p).count).sum

theorem CoreHandler.Ok.step {w : CoreHandler ν} (h : w.Ok scanJob dataBlock) (q : Queue ν) (spurious : Bool) :
    (w.step scanJob dataBlock q spurious).2.Ok scanJob dataBlock := by
  obtain ⟨pc, partId, loQtyCount, nodePool, scanned⟩ := w
  obtain ⟨hid, hscanned, hcount⟩ := h
  simp only at hid hscanned hcount
  match pc with
  | .test => exact ⟨hid, hscanned, hcount⟩
  | .testTail head =>
    simp only [CoreHandler.step]
    split
    · exact ⟨hid, hscanned, hcount⟩
    · exact ⟨hid, hscanned, hcount⟩
  | .call pc =>
    simp only [CoreHandler.step]
    split
    · exact ⟨hid, hscanned, hcount⟩
    · exact ⟨hid, hscanned, hcount⟩
  | .scan workUnit =>
    refine ⟨?_, ?_, ?_⟩
    · show partId + 1 = ((nodePool ++ [workUnit]).length : Int)
      rw [List.length_append, hid]
      rfl
    · show scanned ++ [partId] = (List.range (nodePool ++ [workUnit]).length).map fun p : Nat => (p : Int)
      rw [List.length_append, List.length_singleton, List.range_succ, List.map_append, ← hscanned, hid]
      rfl
    · show int32 (loQtyCount + (scanJob.simdScan8 (dataBlock partId) partId).count) =
        int32 ((scanned ++ [partId]).map fun p => (scanJob.simdScan8 (dataBlock p) p).count).sum
      rw [List.map_append, List.sum_append, hcount, int32, int32, Int.bmod_add_bmod]
      simp [int32]
  | .exit => exact ⟨hid, hscanned, hcount⟩

theorem ok_of_reachable {q : Queue ν} (hr : Reachable (coreWorkers scanJob dataBlock k q) s) (t : Fin k) :
    (s.worker t).Ok scanJob dataBlock := by
  revert t
  refine hr.invariant (P := fun s => ∀ t, (s.worker t).Ok scanJob dataBlock) ?_ ?_
  · rintro _ rfl t
    exact ⟨rfl, rfl, rfl⟩
  · intro s i _ ih _ t
    by_cases ht : t = i.1
    · subst ht
      show ((s.step scanJob dataBlock i).worker i.1).Ok scanJob dataBlock
      rw [Workers.step_self]
      exact (ih i.1).step _ _
    · show ((s.step scanJob dataBlock i).worker t).Ok scanJob dataBlock
      rw [Workers.step_other i ht]
      exact ih t

/-! ## The scanned partitions -/

omit [DecidableEq ν] in
theorem entered_of_exit {w : CoreHandler ν} (hexit : w.pc = .exit) : w.entered = !w.nodePool.isEmpty := by
  unfold CoreHandler.entered
  rw [hexit]
  exact Bool.or_false _

omit [DecidableEq ν] in
theorem nodePool_of_out {w : CoreHandler ν} (hout : w.entered = false) : w.nodePool = [] := by
  unfold CoreHandler.entered at hout
  rw [Bool.or_eq_false_iff] at hout
  simpa using hout.1

/-- Where one core took all nodes, its counter names the scanned partitions. -/
theorem scanned_of_only {q : Queue ν} (hr : Reachable (coreWorkers scanJob dataBlock k q) s) {t : Fin k}
    (honly : s.Only t) :
    s.scanned = (s.worker t).scanned ∧ ∑ u, (s.worker u).loQtyCount = (s.worker t).loQtyCount := by
  have hidle : ∀ u, u ≠ t → (s.worker u).scanned = [] ∧ (s.worker u).loQtyCount = 0 := by
    intro u hu
    have hok := ok_of_reachable hr u
    have hscanned : (s.worker u).scanned = [] := by
      rw [hok.scanned, nodePool_of_out (honly u hu)]
      rfl
    refine ⟨hscanned, ?_⟩
    rw [hok.count, hscanned]
    rfl
  constructor
  · refine Finset.sum_eq_single t (fun u _ hu => ?_) fun hnot => absurd (Finset.mem_univ t) hnot
    rw [(hidle u hu).1]
    rfl
  · exact Finset.sum_eq_single t (fun u _ hu => (hidle u hu).2) fun hnot => absurd (Finset.mem_univ t) hnot

/-- Two cores that took a node have both scanned partition 0. -/
theorem only_of_nodup {q : Queue ν} (hr : Reachable (coreWorkers scanJob dataBlock k q) s)
    (hexit : ∀ t, (s.worker t).pc = .exit) (hnodup : s.scanned.Nodup) (hk : 1 ≤ k) : ∃ t, s.Only t := by
  have hfirst : ∀ u, (s.worker u).entered = true → 1 ≤ ((s.worker u).scanned : Multiset Int).count 0 := by
    intro u hu
    have hne : (s.worker u).nodePool ≠ [] := by
      intro hnil
      rw [entered_of_exit (hexit u), hnil] at hu
      cases hu
    rw [Multiset.one_le_count_iff_mem, Multiset.mem_coe, (ok_of_reachable hr u).scanned]
    exact List.mem_map.mpr ⟨0, List.mem_range.mpr (List.length_pos_of_ne_nil hne), rfl⟩
  by_cases hsome : ∃ t, (s.worker t).entered = true
  · obtain ⟨t, ht⟩ := hsome
    refine ⟨t, fun u hu => ?_⟩
    by_contra hin
    have hpair : ∑ v ∈ {t, u}, ((s.worker v).scanned : Multiset Int).count 0 ≤ s.scanned.count 0 := by
      rw [Workers.scanned, Multiset.count_sum']
      exact Finset.sum_le_sum_of_subset (Finset.subset_univ _)
    rw [Finset.sum_pair (Ne.symm hu)] at hpair
    have hone := Multiset.nodup_iff_count_le_one.mp hnodup 0
    have hleft := hfirst t ht
    have hright := hfirst u ((Bool.not_eq_false _).mp hin)
    omega
  · refine ⟨⟨0, hk⟩, fun u _ => ?_⟩
    by_contra hin
    exact hsome ⟨u, (Bool.not_eq_false _).mp hin⟩

end Cores

/-! ## The queue of a column -/

section Queue
variable {τ ν : Type} [DecidableEq τ] [DecidableEq ν] (scanJob : ScanApi) (dataBlock : Int → Nat → Word)
  (value : ν → Query)

/-- The partitions in a queue. -/
def partIds (s : State τ ν) : List Int := s.linked.tail.map fun node => (value node).partId

/-- The queue of a scan before the cores start: filled by `add`, with a node for every partition of the column. -/
structure ScanQueue (s : State τ ν) : Prop where
  reachable : Reachable (system τ ν) s
  quiet : ∀ t, (s.pc t).ready = true
  handed : s.handed = []
  partIds : (partIds value s).Perm ((List.range scanJob.baseColumn.numOfPartitions).map fun p : Nat => (p : Int))

variable {scanJob dataBlock value} {s : State τ ν} (hs : ScanQueue scanJob value s) {k : Nat} {w : Workers k ν}
  (hr : Reachable (coreWorkers scanJob dataBlock k s.queue) w) (hexit : ∀ t, (w.worker t).pc = .exit)
include hs hr hexit

/-- A core that took all nodes took each of them exactly if `tail` was the last one. -/
theorem scanned_iff_tail {t : Fin k} (honly : w.Only t) :
    ((w.worker t).scanned : Multiset Int) = partIds value s ↔ s.queue.tail.bind s.queue.next = none := by
  obtain ⟨bs, hbs⟩ := exists_drain hr honly
  obtain ⟨j, hj, hres, hall, _⟩ := drain_linked hs.reachable hs.handed bs
  have hpc : (Exec.drain s.queue bs).pc = .exit := by
    rw [← hbs, Workers.drain, hexit t]
    rfl
  have hpool : (w.worker t).nodePool = (s.linked.tail.take j).map some := by
    rw [← hres, ← hbs, Workers.drain, CoreHandler.results, hexit t]
    exact (List.append_nil _).symm
  have hlength : (w.worker t).nodePool.length = j := by
    rw [hpool, List.length_map, List.length_take, Nat.min_eq_left hj]
  have hnum : s.linked.tail.length = scanJob.baseColumn.numOfPartitions := by
    have hperm := hs.partIds.length_eq
    rw [partIds, List.length_map, List.length_map, List.length_range] at hperm
    exact hperm
  rw [← hall hpc, (ok_of_reachable hr t).scanned, hlength, Multiset.coe_eq_coe]
  constructor
  · intro hperm
    have hlen := hperm.length_eq
    rw [partIds, List.length_map, List.length_map, List.length_range] at hlen
    exact hlen
  · rintro rfl
    rw [hnum]
    exact hs.partIds.symm

/-- The cores scan every partition once exactly if only one of them took nodes and `tail` was the last node. -/
theorem eachScannedOnce_iff_only (hk : 1 ≤ k) : EachScannedOnce scanJob dataBlock (partIds value s) w ↔
    s.queue.tail.bind s.queue.next = none ∧ ∃ t, w.Only t := by
  constructor
  · rintro ⟨hscanned, _⟩
    have hnodup : w.scanned.Nodup := by
      rw [hscanned, Multiset.coe_nodup, hs.partIds.nodup_iff]
      exact List.nodup_range.map fun _ _ h => Int.natCast_inj.mp h
    obtain ⟨t, honly⟩ := only_of_nodup hr hexit hnodup hk
    refine ⟨(scanned_iff_tail hs hr hexit honly).mp ?_, t, honly⟩
    rw [← (scanned_of_only hr honly).1]
    exact hscanned
  · rintro ⟨htail, t, honly⟩
    obtain ⟨hscanned, hcount⟩ := scanned_of_only hr honly
    have hids := (scanned_iff_tail hs hr hexit honly).mpr htail
    refine ⟨hscanned.trans hids, ?_⟩
    rw [hcount, (ok_of_reachable hr t).count, ← hids, Multiset.map_coe, Multiset.sum_coe]

end Queue

section Runs
variable {τ ν : Type} [DecidableEq τ] [DecidableEq ν] {scanJob : ScanApi} {dataBlock : Int → Nat → Word}
  {value : ν → Query} {s : State τ ν} {k : Nat}

/-- In a run to the end of all cores every partition is scanned once exactly if `isNotEmpty` returns true to one core
only and `tail` is the last node. -/
theorem eachScannedOnce_iff (hk : 1 ≤ k) (hs : ScanQueue scanJob value s) (labels : List (Fin k × Bool))
    (hrun : (coreWorkers scanJob dataBlock k s.queue).Steps (coreWorkers scanJob dataBlock k s.queue).permits
      (Workers.new k s.queue) labels)
    (hexit : ∀ t, (((coreWorkers scanJob dataBlock k s.queue).run (Workers.new k s.queue) labels).worker t).pc = .exit) :
    EachScannedOnce scanJob dataBlock (partIds value s)
        ((coreWorkers scanJob dataBlock k s.queue).run (Workers.new k s.queue) labels) ↔
      s.queue.tail.bind s.queue.next = none ∧
        (coreWorkers scanJob dataBlock k s.queue).Steps OneWorker (Workers.new k s.queue) labels := by
  have hstart : (Workers.new k s.queue).Only ⟨0, hk⟩ := fun _ _ => rfl
  rw [eachScannedOnce_iff_only hs ((Reachable.init rfl).run hrun) hexit hk, steps_oneWorker_iff _ hstart]

end Runs

/-- The scan of a column of two pages. -/
def twoPageScan : ScanApi := ScanApi.new .loQuantityScan
  ({ Column.new 8192 with numOfBits := 8 }.initializePageAlignedPartitions fun _ _ => 0) .le 0

/-- The nodes 1 and 2 for the partitions 0 and 1, added one after the other. -/
def twoItems : State Unit Nat := (system Unit Nat).run (.new 0)
  ([.add () 1] ++ List.replicate 5 (.run () false) ++ [.add () 2] ++ List.replicate 5 (.run () false))

def itemOf (node : Nat) : Query := ⟨0, node - 1, .loQuantityScan⟩

theorem scanQueue_twoItems : ScanQueue twoPageScan itemOf twoItems where
  reachable := Reachable.run (.init ⟨0, rfl⟩) (by decide +kernel)
  quiet := by decide +kernel
  handed := by decide +kernel
  partIds := by decide +kernel

/-- Two cores, of which the second finds the queue empty. -/
theorem eachScannedOnce_iff_late : EachScannedOnce twoPageScan (fun _ _ => 0) (partIds itemOf twoItems)
    ((coreWorkers twoPageScan (fun _ _ => 0) 2 twoItems.queue).run (Workers.new 2 twoItems.queue)
      (List.replicate 18 (0, false) ++ List.replicate 2 (1, false))) :=
  (eachScannedOnce_iff (by decide) scanQueue_twoItems _ (by decide +kernel) (by decide +kernel)).mpr
    ⟨by decide +kernel, by decide +kernel⟩

/-- Two cores that take a node each scan partition 0 twice and partition 1 not at all. -/
theorem partition_scanned_twice : ∃ labels : List (Fin 2 × Bool),
    (coreWorkers twoPageScan (fun _ _ => 0) 2 twoItems.queue).Steps
      (coreWorkers twoPageScan (fun _ _ => 0) 2 twoItems.queue).permits (Workers.new 2 twoItems.queue) labels ∧
    (∀ t, (((coreWorkers twoPageScan (fun _ _ => 0) 2 twoItems.queue).run (Workers.new 2 twoItems.queue)
      labels).worker t).pc = .exit) ∧
    ((coreWorkers twoPageScan (fun _ _ => 0) 2 twoItems.queue).run (Workers.new 2 twoItems.queue) labels).scanned =
      {0, 0} ∧
    ¬ EachScannedOnce twoPageScan (fun _ _ => 0) (partIds itemOf twoItems)
      ((coreWorkers twoPageScan (fun _ _ => 0) 2 twoItems.queue).run (Workers.new 2 twoItems.queue) labels) := by
  refine ⟨List.replicate 2 (0, false) ++ List.replicate 2 (1, false) ++ List.replicate 6 (0, false) ++
    List.replicate 6 (1, false) ++ List.replicate 2 (0, false) ++ List.replicate 2 (1, false), ?_, ?_, ?_, ?_⟩
  · decide +kernel
  · decide +kernel
  · decide +kernel
  · rintro ⟨hscanned, _⟩
    revert hscanned
    decide +kernel

end SdbFpga.Sched
