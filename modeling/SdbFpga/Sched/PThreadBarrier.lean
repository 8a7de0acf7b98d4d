import Mathlib.Algebra.Group.Nat.Defs
import Mathlib.Data.List.Nodup
import Mathlib.Data.List.Perm.Subperm
import Mathlib.Logic.Function.Basic
import SdbFpga.Lib.Transition

/-!
# `PThreadBarrier.h`: the emulated barrier

* `pthreadBarrierInit`, `PThreadBarrier.enter` : the code, `barrierSystem` : any threads on one barrier, in any order;
* `NeverEarly` : calls complete in whole groups of arrivals, one of each returns 1;
* `Grouped`, `Grouped.step` : the invariant while no thread wakes up on its own;
* `neverEarly_iff` : for which trip counts it never releases early;
* `exists_early_of_spurious` : every spurious wake-up can become an early release, `neverEarly_spurious_iff` : so where
  these are permitted trip count 1 alone is safe.
-/

namespace SdbFpga.Sched
open Transition

structure PThreadBarrier where
  count : Int
  tripCount : Int
  deriving DecidableEq

/-- `pthread_barrier_init`, with the results of `pthread_mutex_init` and `pthread_cond_init`; `none` for -1. -/
def pthreadBarrierInit (mutexInit condInit : Int) (count : BitVec 32) : Option PThreadBarrier :=
  if count = 0#32 then none
  else if mutexInit < 0 then none
  else if condInit < 0 then none
  -- an `unsigned int` goes into an `int`
  else some { count := 0, tripCount := count.toInt }

/-- The first mutex section of `pthread_barrier_wait`; `true` for a broadcast. -/
def PThreadBarrier.enter (b : PThreadBarrier) : PThreadBarrier × Bool :=
  let count := b.count + 1
  if b.tripCount ≤ count then ({ b with count := 0 }, true) else ({ b with count := count }, false)

/-- Where a thread is in `pthread_barrier_wait`. -/
inductive Place
  | outside
  /-- blocked in `pthread_cond_wait` -/
  | waiting
  /-- woken up, without the mutex so far -/
  | woken
  deriving DecidableEq

inductive BarrierStep (ι : Type)
  | arrive (t : ι)
  /-- a wake-up without a broadcast, which POSIX permits -/
  | spurious (t : ι)
  | resume (t : ι)

/-- The barrier and its threads. The calls are numbered as they arrive. -/
structure BarrierRun (ι : Type) where
  barrier : PThreadBarrier
  place : ι → Place
  /-- the call that a thread is in -/
  call : ι → Nat
  arrivals : Nat
  /-- the calls that have returned, with their results -/
  returned : List (Nat × Int)

def BarrierRun.start (ι : Type) (b : PThreadBarrier) : BarrierRun ι := ⟨b, fun _ => .outside, fun _ => 0, 0, []⟩

section System
variable {ι : Type}

/-- `pthread_cond_broadcast` -/
def BarrierRun.broadcast (s : BarrierRun ι) : BarrierRun ι :=
  { s with place := fun u => if s.place u = .waiting then .woken else s.place u }

def BarrierRun.permits (s : BarrierRun ι) : BarrierStep ι → Prop
  | .arrive t => s.place t = .outside
  | .spurious t => s.place t = .waiting
  | .resume t => s.place t = .woken

variable [DecidableEq ι]

def BarrierRun.step (s : BarrierRun ι) : BarrierStep ι → BarrierRun ι
  | .arrive t =>
    match s.barrier.enter with
    | (b, true) =>
      { s.broadcast with barrier := b, arrivals := s.arrivals + 1, returned := s.returned ++ [(s.arrivals, 1)] }
    | (b, false) =>
      { s with barrier := b, arrivals := s.arrivals + 1, call := Function.update s.call t s.arrivals,
               place := Function.update s.place t .waiting }
  | .spurious t => { s with place := Function.update s.place t .woken }
  | .resume t => { s with place := Function.update s.place t .outside, returned := s.returned ++ [(s.call t, 0)] }

/-- Every schedule of the threads on a barrier with trip count `count`. -/
def barrierSystem (ι : Type) [DecidableEq ι] (count : BitVec 32) : System (BarrierRun ι) (BarrierStep ι) where
  init := fun s => ∃ mutexInit condInit, ∃ b ∈ pthreadBarrierInit mutexInit condInit count, s = .start ι b
  permits := BarrierRun.permits
  step := BarrierRun.step

/-- No thread wakes up on its own. -/
def NoSpurious (_ : BarrierRun ι) : BarrierStep ι → Prop
  | .spurious _ => False
  | _ => True

end System

/-- Not more calls are complete than belong to complete groups of `n` arrivals, and one call of each group returned
1. -/
structure NeverEarly {ι : Type} (n : Nat) (s : BarrierRun ι) : Prop where
  completed_le : s.returned.length ≤ n * (s.arrivals / n)
  one_serial : ∀ g < s.arrivals / n, ∃! c, c / n = g ∧ (c, 1) ∈ s.returned

/-! ## Groups of arrivals -/

section Groups
variable {n a : Nat}

theorem div_succ_of_last (h : a % n + 1 = n) : (a + 1) / n = a / n + 1 := by
  have hsum := Nat.div_add_mod a n
  have hn : 0 < n := by omega
  rw [show a + 1 = n * (a / n + 1) by rw [Nat.mul_add]; omega, Nat.mul_div_cancel_left _ hn]

theorem mod_succ_of_last (h : a % n + 1 = n) : (a + 1) % n = 0 := by
  have hsum := Nat.div_add_mod a n
  rw [show a + 1 = n * (a / n + 1) by rw [Nat.mul_add]; omega, Nat.mul_mod_right]

theorem div_mod_succ_of_not_last (h : a % n + 1 < n) : (a + 1) / n = a / n ∧ (a + 1) % n = a % n + 1 := by
  have hsum := Nat.div_add_mod a n
  refine (Nat.div_mod_unique (by omega)).mpr ⟨?_, h⟩
  omega

end Groups

/-! ## The invariant -/

section Invariant
variable {ι : Type} [DecidableEq ι] {n : Nat} {s : BarrierRun ι}

/-- The barrier counts the arrivals of the group that is not complete; its calls wait, and the calls of the complete
groups are woken up or have returned, each once, the last of a group with 1. -/
structure Grouped (n : Nat) (s : BarrierRun ι) : Prop where
  tripCount_eq : s.barrier.tripCount = n
  count_eq : s.barrier.count = (s.arrivals % n : Nat)
  waiting : ∀ t, s.place t = .waiting → n * (s.arrivals / n) ≤ s.call t ∧ s.call t < s.arrivals
  woken : ∀ t, s.place t = .woken → s.call t < n * (s.arrivals / n)
  blocked : ∀ t, s.place t ≠ .outside → s.call t % n + 1 ≠ n ∧ ∀ r, (s.call t, r) ∉ s.returned
  call_inj : ∀ t u, s.place t ≠ .outside → s.place u ≠ .outside → s.call t = s.call u → t = u
  returned_lt : ∀ p ∈ s.returned, p.1 < n * (s.arrivals / n)
  returned_nodup : (s.returned.map Prod.fst).Nodup
  serial_iff : ∀ p ∈ s.returned, p.2 = 1 ↔ p.1 % n + 1 = n
  serial_mem : ∀ c < s.arrivals, c % n + 1 = n → (c, 1) ∈ s.returned
  accounted : ∀ c < s.arrivals, (∃ r, (c, r) ∈ s.returned) ∨ ∃ t, s.place t ≠ .outside ∧ s.call t = c

omit [DecidableEq ι] in
theorem Grouped.call_lt (h : Grouped n s) {t : ι} (ht : s.place t ≠ .outside) : s.call t < s.arrivals := by
  cases hplace : s.place t with
  | outside => exact absurd hplace ht
  | waiting => exact (h.waiting t hplace).2
  | woken => exact Nat.lt_of_lt_of_le (h.woken t hplace) (Nat.mul_div_le _ _)

omit [DecidableEq ι] in
theorem grouped_start {b : PThreadBarrier} (hb : b.tripCount = n) (hc : b.count = 0) :
    Grouped n (BarrierRun.start ι b) := by
  refine ⟨hb, by simpa [BarrierRun.start] using hc, ?_, ?_, ?_, ?_, ?_, List.nodup_nil, ?_, ?_, ?_⟩ <;>
    simp [BarrierRun.start]

section Returned
variable {returned : List (Nat × Int)} {c : Nat} {r : Int}

/-- One more call returns. -/
theorem forall_mem_concat {P : Nat × Int → Prop} (h : ∀ p ∈ returned, P p) (hnew : P (c, r)) :
    ∀ p ∈ returned ++ [(c, r)], P p :=
  List.forall_mem_append.mpr ⟨h, List.forall_mem_singleton.mpr hnew⟩

theorem notMem_concat {d : Nat} (h : ∀ q, (d, q) ∉ returned) (hne : d ≠ c) : ∀ q, (d, q) ∉ returned ++ [(c, r)] := by
  intro q hq
  rcases List.mem_append.mp hq with hold | hnew
  · exact h q hold
  · exact hne (congrArg Prod.fst (List.mem_singleton.mp hnew))

theorem nodup_fst_concat (h : (returned.map Prod.fst).Nodup) (hc : ∀ p ∈ returned, p.1 ≠ c) :
    ((returned ++ [(c, r)]).map Prod.fst).Nodup := by
  rw [List.map_append, List.nodup_append]
  refine ⟨h, List.nodup_singleton _, ?_⟩
  intro d hd e he
  obtain ⟨p, hp, rfl⟩ := List.mem_map.mp hd
  rw [List.mem_singleton.mp he]
  exact hc p hp

end Returned

/-- The last arrival of a group wakes up all that wait and returns 1. -/
theorem step_arrive_last (h : Grouped n s) (hlast : s.arrivals % n + 1 = n) (t : ι) :
    s.step (.arrive t) =
      { s.broadcast with barrier := { s.barrier with count := 0 }, arrivals := s.arrivals + 1,
                         returned := s.returned ++ [(s.arrivals, 1)] } := by
  have henter : s.barrier.enter = ({ s.barrier with count := 0 }, true) := by
    unfold PThreadBarrier.enter
    have htrip := h.tripCount_eq
    have hcount := h.count_eq
    exact if_pos (by omega)
  simp [BarrierRun.step, henter]

/-- Any other arrival waits. -/
theorem step_arrive_wait (h : Grouped n s) (hlast : s.arrivals % n + 1 < n) (t : ι) :
    s.step (.arrive t) =
      { s with barrier := { s.barrier with count := (s.arrivals % n : Nat) + 1 }, arrivals := s.arrivals + 1,
               call := Function.update s.call t s.arrivals, place := Function.update s.place t .waiting } := by
  have henter : s.barrier.enter = ({ s.barrier with count := (s.arrivals % n : Nat) + 1 }, false) := by
    unfold PThreadBarrier.enter
    have htrip := h.tripCount_eq
    rw [← h.count_eq]
    have hcount := h.count_eq
    exact if_neg (by omega)
  simp [BarrierRun.step, henter]

omit [DecidableEq ι] in
theorem broadcast_place (s : BarrierRun ι) (t : ι) : s.broadcast.place t ≠ .waiting ∧
    (s.broadcast.place t = .outside ↔ s.place t = .outside) := by
  unfold BarrierRun.broadcast
  cases h : s.place t <;> simp [h]

theorem Grouped.arrive_last (h : Grouped n s) (hlast : s.arrivals % n + 1 = n) (t : ι) :
    Grouped n (s.step (.arrive t)) := by
  have hbase : n * ((s.arrivals + 1) / n) = s.arrivals + 1 := by
    have hsum := Nat.div_add_mod s.arrivals n
    rw [div_succ_of_last hlast, Nat.mul_add]
    omega
  have hret : ∀ p ∈ s.returned, p.1 < s.arrivals := fun p hp =>
    Nat.lt_of_lt_of_le (h.returned_lt p hp) (Nat.mul_div_le _ _)
  have hplace := broadcast_place s
  have hblocked : ∀ u, s.broadcast.place u ≠ .outside → s.place u ≠ .outside := fun u hu => (hplace u).2.not.mp hu
  rw [step_arrive_last h hlast]
  refine ⟨h.tripCount_eq, ?_, ?_, ?_, ?_, ?_, ?_, ?_, ?_, ?_, ?_⟩
  · rw [mod_succ_of_last hlast]
    rfl
  · intro u hu
    exact absurd hu (hplace u).1
  · intro u hu
    rw [hbase]
    exact Nat.lt_succ_of_lt (h.call_lt (hblocked u (by rw [hu]; decide)))
  · intro u hu
    obtain ⟨hmod, hnot⟩ := h.blocked u (hblocked u hu)
    exact ⟨hmod, notMem_concat hnot (Nat.ne_of_lt (h.call_lt (hblocked u hu)))⟩
  · intro u v hu hv
    exact h.call_inj u v (hblocked u hu) (hblocked v hv)
  · rw [hbase]
    exact forall_mem_concat (fun p hp => Nat.lt_succ_of_lt (hret p hp)) (Nat.lt_succ_self _)
  · exact nodup_fst_concat h.returned_nodup fun p hp => Nat.ne_of_lt (hret p hp)
  · exact forall_mem_concat h.serial_iff (by simpa using hlast)
  · intro c hc hmod
    rcases Nat.lt_succ_iff_lt_or_eq.mp hc with hlt | rfl
    · exact List.mem_append_left _ (h.serial_mem c hlt hmod)
    · exact List.mem_append_right _ (List.mem_singleton_self _)
  · intro c hc
    rcases Nat.lt_succ_iff_lt_or_eq.mp hc with hlt | rfl
    · rcases h.accounted c hlt with ⟨r, hr⟩ | ⟨u, hu, hcall⟩
      · exact .inl ⟨r, List.mem_append_left _ hr⟩
      · exact .inr ⟨u, (hplace u).2.not.mpr hu, hcall⟩
    · exact .inl ⟨1, List.mem_append_right _ (List.mem_singleton_self _)⟩

/-- A thread that arrives and waits, beside any thread. -/
theorem update_cases (s : BarrierRun ι) (t u : ι) :
    (u = t ∧ Function.update s.place t .waiting u = .waiting ∧ Function.update s.call t s.arrivals u = s.arrivals) ∨
      (u ≠ t ∧ Function.update s.place t .waiting u = s.place u ∧
        Function.update s.call t s.arrivals u = s.call u) := by
  rcases eq_or_ne u t with rfl | hne
  · exact .inl ⟨rfl, Function.update_self _ _ _, Function.update_self _ _ _⟩
  · exact .inr ⟨hne, Function.update_of_ne hne _ _, Function.update_of_ne hne _ _⟩

theorem Grouped.arrive_wait (h : Grouped n s) (hlast : s.arrivals % n + 1 < n) {t : ι} (ht : s.place t = .outside) :
    Grouped n (s.step (.arrive t)) := by
  obtain ⟨hdiv, hmod⟩ := div_mod_succ_of_not_last hlast
  have hbase := Nat.mul_div_le s.arrivals n
  rw [step_arrive_wait h hlast]
  refine ⟨h.tripCount_eq, ?_, ?_, ?_, ?_, ?_, ?_, h.returned_nodup, h.serial_iff, ?_, ?_⟩
  · rw [hmod]
    rfl
  · intro u hu
    rw [hdiv]
    rcases update_cases s t u with ⟨-, -, hcall⟩ | ⟨-, hplace, hcall⟩ <;> simp only [hcall]
    · exact ⟨hbase, Nat.lt_succ_self _⟩
    · obtain ⟨hge, hlt⟩ := h.waiting u (hplace.symm.trans hu)
      exact ⟨hge, Nat.lt_succ_of_lt hlt⟩
  · intro u hu
    rw [hdiv]
    rcases update_cases s t u with ⟨-, hplace, -⟩ | ⟨-, hplace, hcall⟩
    · exact absurd (hplace.symm.trans hu) (by decide)
    · simp only [hcall]
      exact h.woken u (hplace.symm.trans hu)
  · intro u hu
    rcases update_cases s t u with ⟨-, -, hcall⟩ | ⟨-, hplace, hcall⟩ <;> simp only [hcall]
    · refine ⟨by omega, ?_⟩
      intro r hr
      have hlt := h.returned_lt _ hr
      omega
    · exact h.blocked u (hplace ▸ hu)
  · intro u v hu hv heq
    -- the new call is none of those that were open
    have hnew : ∀ w, s.place w ≠ .outside → s.call w ≠ s.arrivals := fun w hw => Nat.ne_of_lt (h.call_lt hw)
    rcases update_cases s t u with ⟨hu', -, hcall⟩ | ⟨-, hplace, hcall⟩
    · rcases update_cases s t v with ⟨hv', -, -⟩ | ⟨-, hplace', hcall'⟩
      · exact hu'.trans hv'.symm
      · simp only [hcall, hcall'] at heq
        exact absurd heq.symm (hnew v (hplace' ▸ hv))
    · rcases update_cases s t v with ⟨-, -, hcall'⟩ | ⟨-, hplace', hcall'⟩ <;> simp only [hcall, hcall'] at heq
      · exact absurd heq (hnew u (hplace ▸ hu))
      · exact h.call_inj u v (hplace ▸ hu) (hplace' ▸ hv) heq
  · rw [hdiv]
    exact h.returned_lt
  · intro c hc hmod'
    rcases Nat.lt_succ_iff_lt_or_eq.mp hc with hlt | rfl
    · exact h.serial_mem c hlt hmod'
    · omega
  · intro c hc
    rcases Nat.lt_succ_iff_lt_or_eq.mp hc with hlt | rfl
    · rcases h.accounted c hlt with hr | ⟨u, hu, hcall⟩
      · exact .inl hr
      · have hne : u ≠ t := fun heq => hu (heq ▸ ht)
        refine .inr ⟨u, ?_, (Function.update_of_ne hne _ _).trans hcall⟩
        simpa [Function.update_of_ne hne] using hu
    · exact .inr ⟨t, by simp, by simp⟩

theorem Grouped.resume (h : Grouped n s) {t : ι} (ht : s.place t = .woken) : Grouped n (s.step (.resume t)) := by
  have hplace : ∀ u, u ≠ t → Function.update s.place t .outside u = s.place u := fun u hu =>
    Function.update_of_ne hu _ _
  have hne : ∀ u p, p ≠ .outside → Function.update s.place t .outside u = p → u ≠ t ∧ s.place u = p := by
    rintro u p hp hu
    rcases eq_or_ne u t with rfl | hut
    · exact absurd hu.symm (by simpa using hp)
    · exact ⟨hut, (hplace u hut).symm.trans hu⟩
  have hblocked : ∀ u, Function.update s.place t .outside u ≠ .outside → u ≠ t ∧ s.place u ≠ .outside := fun u hu =>
    ⟨(hne u _ hu rfl).1, fun h => hu (by rw [hplace u (hne u _ hu rfl).1, h])⟩
  have htout : s.place t ≠ .outside := by rw [ht]; decide
  obtain ⟨hmod, hnot⟩ := h.blocked t htout
  refine ⟨h.tripCount_eq, h.count_eq, ?_, ?_, ?_, ?_, ?_, ?_, ?_, ?_, ?_⟩
  · intro u hu
    exact h.waiting u (hne u _ (by decide) hu).2
  · intro u hu
    exact h.woken u (hne u _ (by decide) hu).2
  · intro u hu
    obtain ⟨hut, hout⟩ := hblocked u hu
    obtain ⟨hmodu, hnotu⟩ := h.blocked u hout
    exact ⟨hmodu, notMem_concat hnotu fun heq => hut (h.call_inj u t hout htout heq)⟩
  · intro u v hu hv
    exact h.call_inj u v (hblocked u hu).2 (hblocked v hv).2
  · exact forall_mem_concat h.returned_lt (h.woken t ht)
  · exact nodup_fst_concat h.returned_nodup fun p hp heq => hnot p.2 (by rw [← heq]; exact hp)
  · exact forall_mem_concat h.serial_iff (by simpa using hmod)
  · intro c hc hmodc
    exact List.mem_append_left _ (h.serial_mem c hc hmodc)
  · intro c hc
    rcases h.accounted c hc with ⟨r, hr⟩ | ⟨u, hu, hcall⟩
    · exact .inl ⟨r, List.mem_append_left _ hr⟩
    · rcases eq_or_ne u t with rfl | hut
      · rw [← hcall]
        exact .inl ⟨0, List.mem_append_right _ (List.mem_singleton_self _)⟩
      · exact .inr ⟨u, fun hout => hu ((hplace u hut).symm.trans hout), hcall⟩

/-- One step of a run without spurious wake-ups. -/
theorem Grouped.step (h : Grouped n s) (hn : 0 < n) {i : BarrierStep ι} (hi : s.permits i) (hc : NoSpurious s i) :
    Grouped n (s.step i) := by
  cases i with
  | arrive t =>
    have hmod := Nat.mod_lt s.arrivals hn
    rcases Nat.lt_or_ge (s.arrivals % n + 1) n with hlt | hge
    · exact h.arrive_wait hlt hi
    · exact h.arrive_last (by omega) t
  | spurious t => exact absurd hc id
  | resume t => exact h.resume hi

omit [DecidableEq ι] in
theorem Grouped.neverEarly (h : Grouped n s) (hn : 0 < n) : NeverEarly n s := by
  refine ⟨?_, ?_⟩
  · have hsub : s.returned.map Prod.fst ⊆ List.range (n * (s.arrivals / n)) := by
      intro c hc
      obtain ⟨p, hp, rfl⟩ := List.mem_map.mp hc
      exact List.mem_range.mpr (h.returned_lt p hp)
    have hlen := (List.subperm_of_subset h.returned_nodup hsub).length_le
    simpa using hlen
  · intro g hg
    have hlast : n * g + (n - 1) < s.arrivals := by
      have hgroup := Nat.mul_le_mul_left n (Nat.succ_le_of_lt hg)
      have hle := Nat.mul_div_le s.arrivals n
      rw [Nat.mul_succ] at hgroup
      omega
    obtain ⟨hdiv, hmod⟩ : (n * g + (n - 1)) / n = g ∧ (n * g + (n - 1)) % n = n - 1 :=
      (Nat.div_mod_unique hn).mpr ⟨by omega, by omega⟩
    refine ⟨n * g + (n - 1), ⟨hdiv, h.serial_mem _ hlast (by omega)⟩, ?_⟩
    rintro c ⟨hcg, hc⟩
    have hcm := (h.serial_iff _ hc).mp rfl
    have hsum := Nat.div_add_mod c n
    rw [hcg] at hsum
    have hmod' : c % n = n - 1 := Nat.eq_sub_of_add_eq hcm
    rw [← hsum, hmod']

end Invariant

/-! ## Which trip counts are safe -/

section TripCount
variable {ι : Type} [DecidableEq ι] {count : BitVec 32} {s : BarrierRun ι}

theorem mem_pthreadBarrierInit {mutexInit condInit : Int} {b : PThreadBarrier}
    (hb : b ∈ pthreadBarrierInit mutexInit condInit count) : count ≠ 0#32 ∧ b = ⟨0, count.toInt⟩ := by
  unfold pthreadBarrierInit at hb
  split_ifs at hb with hzero hmutex hcond
  · cases hb
  · cases hb
  · cases hb
  · exact ⟨hzero, (Option.mem_some.mp hb).symm⟩

theorem grouped_of_reachable (hcount : count.toNat < 2 ^ 31)
    (hr : Reachable ((barrierSystem ι count).when NoSpurious) s) : 0 < count.toNat ∧ Grouped count.toNat s := by
  refine hr.invariant (P := fun s => 0 < count.toNat ∧ Grouped count.toNat s) ?_ ?_
  · rintro _ ⟨mutexInit, condInit, b, hb, rfl⟩
    obtain ⟨hzero, rfl⟩ := mem_pthreadBarrierInit hb
    have hpos : count.toNat ≠ 0 := fun h => hzero (BitVec.eq_of_toNat_eq h)
    exact ⟨by omega, grouped_start (BitVec.toInt_eq_toNat_of_lt (by omega)) rfl⟩
  · intro s i _ hs hi
    exact ⟨hs.1, hs.2.step hs.1 hi.1 hi.2⟩

theorem reachable_start (hzero : count ≠ 0#32) :
    Reachable ((barrierSystem ι count).when NoSpurious) (.start ι ⟨0, count.toInt⟩) := by
  refine .init ⟨0, 0, _, ?_, rfl⟩
  unfold pthreadBarrierInit
  simp [hzero]

/-- A trip count that is negative as an `int`: the first arrival is let through alone. -/
theorem early_of_large (hcount : 2 ^ 31 ≤ count.toNat) (t : ι) :
    ∃ s, Reachable ((barrierSystem ι count).when NoSpurious) s ∧ ¬ NeverEarly count.toNat s := by
  have hlt := count.isLt
  have hzero : count ≠ 0#32 := by
    rintro rfl
    simp at hcount
  have htrip : count.toInt ≤ 0 + 1 := by
    rw [BitVec.toInt_eq_toNat_cond]
    split <;> omega
  have hstart : Reachable ((barrierSystem ι count).when NoSpurious) _ := reachable_start hzero
  have harrive : ((barrierSystem ι count).when NoSpurious).permits (.start ι ⟨0, count.toInt⟩) (.arrive t) :=
    ⟨rfl, trivial⟩
  refine ⟨_, hstart.step harrive, ?_⟩
  intro hnever
  have henter : (⟨0, count.toInt⟩ : PThreadBarrier).enter = (⟨0, count.toInt⟩, true) := if_pos htrip
  have hle := hnever.completed_le
  simp only [System.when, barrierSystem, BarrierRun.step, BarrierRun.start, henter] at hle
  rw [Nat.div_eq_of_lt (by omega)] at hle
  simp at hle

/-- Without spurious wake-ups the barrier never releases early, for the trip counts that fit an `int` and no other. -/
theorem neverEarly_iff [Inhabited ι] :
    (∀ s, Reachable ((barrierSystem ι count).when NoSpurious) s → NeverEarly count.toNat s) ↔
      count.toNat < 2 ^ 31 := by
  constructor
  · intro hnever
    by_contra hlarge
    obtain ⟨s, hr, hearly⟩ := early_of_large (Nat.le_of_not_lt hlarge) (default : ι)
    exact hearly (hnever s hr)
  · intro hcount s hr
    obtain ⟨hpos, hs⟩ := grouped_of_reachable hcount hr
    exact hs.neverEarly hpos

end TripCount

/-- Two threads: the first one wakes up on its own and leaves before the second one arrives. -/
theorem exists_early : ∃ s, Reachable (barrierSystem Bool 2#32) s ∧ s.arrivals = 1 ∧ s.returned = [(0, 0)] ∧
    ¬ NeverEarly 2 s := by
  have hstart : Reachable (barrierSystem Bool 2#32) (.start Bool ⟨0, 2⟩) := .init ⟨0, 0, _, rfl, rfl⟩
  have harrive := hstart.step (i := BarrierStep.arrive false) rfl
  have hspurious := harrive.step (i := BarrierStep.spurious false) rfl
  have hresume := hspurious.step (i := BarrierStep.resume false) rfl
  exact ⟨_, hresume, rfl, rfl, fun h => absurd h.completed_le (by decide)⟩

/-! ## A spurious wake-up -/

section Spurious
variable {ι : Type} [DecidableEq ι] {s s' : BarrierRun ι} {t : ι} {base n k : Nat}

/-- `t` can leave, and the calls below `base` have returned or can return before `t` does. -/
structure Leaving (t : ι) (base : Nat) (s : BarrierRun ι) : Prop where
  woken : s.place t = .woken
  accounted : ∀ c < base, (∃ r, (c, r) ∈ s.returned) ∨ ∃ u ≠ t, s.place u = .woken ∧ s.call u = c

/-- After a spurious wake-up the calls of the complete groups are still accounted for. -/
theorem leaving_spurious (h : Grouped n s) (ht : s.place t = .waiting) :
    Leaving t (n * (s.arrivals / n)) (s.step (.spurious t)) := by
  refine ⟨Function.update_self _ _ _, ?_⟩
  intro c hc
  have hle := Nat.mul_div_le s.arrivals n
  rcases h.accounted c (by omega) with hr | ⟨u, hu, hcall⟩
  · exact .inl hr
  · have hnot : s.place u ≠ .waiting := fun hwait => by
      have hge := (h.waiting u hwait).1
      omega
    have hne : u ≠ t := fun heq => hnot (heq ▸ ht)
    have hwoken : s.place u = .woken := by
      cases hplace : s.place u with
      | outside => exact absurd hplace hu
      | waiting => exact absurd hplace hnot
      | woken => rfl
    exact .inr ⟨u, hne, (Function.update_of_ne hne _ _).trans hwoken, hcall⟩

theorem Leaving.resume {u : ι} (h : Leaving t base s) (hne : u ≠ t) : Leaving t base (s.step (.resume u)) := by
  refine ⟨(Function.update_of_ne hne.symm _ _).trans h.woken, ?_⟩
  intro c hc
  rcases h.accounted c hc with ⟨r, hr⟩ | ⟨v, hv, hplace, hcall⟩
  · exact .inl ⟨r, List.mem_append_left _ hr⟩
  · rcases eq_or_ne v u with rfl | hvu
    · rw [← hcall]
      exact .inl ⟨0, List.mem_append_right _ (List.mem_singleton_self _)⟩
    · exact .inr ⟨v, hv, (Function.update_of_ne hvu _ _).trans hplace, hcall⟩

/-- The calls below `base` return one after the other. -/
theorem Leaving.exists_returned (count : BitVec 32) (h : Leaving t base s) (hk : k ≤ base) :
    ∃ s', Reachable ((barrierSystem ι count).after s) s' ∧ Leaving t base s' ∧ s'.arrivals = s.arrivals ∧
      ∀ c < k, ∃ r, (c, r) ∈ s'.returned := by
  induction k with
  | zero => exact ⟨s, .init rfl, h, rfl, fun _ hc => absurd hc (Nat.not_lt_zero _)⟩
  | succ k ih =>
    obtain ⟨s', hr, hs', harrivals, hreturned⟩ := ih (by omega)
    rcases hs'.accounted k (by omega) with hk' | ⟨u, hne, hplace, hcall⟩
    · refine ⟨s', hr, hs', harrivals, ?_⟩
      intro c hc
      rcases Nat.lt_succ_iff_lt_or_eq.mp hc with hlt | rfl
      · exact hreturned c hlt
      · exact hk'
    · refine ⟨s'.step (.resume u), hr.step (i := BarrierStep.resume u) hplace, hs'.resume hne, harrivals, ?_⟩
      intro c hc
      rcases Nat.lt_succ_iff_lt_or_eq.mp hc with hlt | rfl
      · obtain ⟨r, hmem⟩ := hreturned c hlt
        exact ⟨r, List.mem_append_left _ hmem⟩
      · rw [← hcall]
        exact ⟨0, List.mem_append_right _ (List.mem_singleton_self _)⟩

/-- Whenever a thread wakes up on its own, the run can go on to an early release. -/
theorem exists_early_of_spurious {count : BitVec 32} (hcount : count.toNat < 2 ^ 31)
    (hr : Reachable ((barrierSystem ι count).when NoSpurious) s) (ht : s.place t = .waiting) :
    ∃ s', Reachable ((barrierSystem ι count).after (s.step (.spurious t))) s' ∧ ¬ NeverEarly count.toNat s' := by
  obtain ⟨hpos, hs⟩ := grouped_of_reachable hcount hr
  obtain ⟨s', hr', hleaving, harrivals, hreturned⟩ :=
    (leaving_spurious hs ht).exists_returned count (Nat.le_refl _)
  refine ⟨s'.step (.resume t), hr'.step (i := BarrierStep.resume t) hleaving.woken, ?_⟩
  intro hnever
  have hsub : List.range (count.toNat * (s.arrivals / count.toNat)) ⊆ s'.returned.map Prod.fst := by
    intro c hc
    obtain ⟨r, hmem⟩ := hreturned c (List.mem_range.mp hc)
    exact List.mem_map.mpr ⟨(c, r), hmem, rfl⟩
  have hlen := (List.subperm_of_subset List.nodup_range hsub).length_le
  have hle : (s'.returned ++ [(s'.call t, 0)]).length ≤ count.toNat * (s'.arrivals / count.toNat) :=
    hnever.completed_le
  have hsame : s'.arrivals = s.arrivals := harrivals
  rw [hsame] at hle
  simp only [List.length_range, List.length_map, List.length_append, List.length_singleton] at hlen hle
  omega

/-- With trip count 1 no thread ever waits, so none wakes up on its own. -/
theorem when_noSpurious_of_le_one {count : BitVec 32} (hle : count.toNat ≤ 1)
    (hr : Reachable (barrierSystem ι count) s) :
    Reachable ((barrierSystem ι count).when NoSpurious) s := by
  induction hr with
  | init h0 => exact .init h0
  | @step s i _ hi ih =>
    cases i with
    | arrive t => exact ih.step (i := BarrierStep.arrive t) ⟨hi, trivial⟩
    | spurious t =>
      obtain ⟨hpos, hs⟩ := grouped_of_reachable (by omega) ih
      obtain ⟨hge, hlt⟩ := hs.waiting t hi
      have hone : count.toNat = 1 := by omega
      rw [hone, Nat.div_one] at hge
      omega
    | resume t => exact ih.step (i := BarrierStep.resume t) ⟨hi, trivial⟩

/-- Where wake-ups need no broadcast, trip count 1 is the only one that is safe (a barrier with trip count 0 is not
made). -/
theorem neverEarly_spurious_iff [Inhabited ι] {count : BitVec 32} :
    (∀ s, Reachable (barrierSystem ι count) s → NeverEarly count.toNat s) ↔ count.toNat ≤ 1 := by
  constructor
  · intro hnever
    by_contra hgt
    rcases Nat.lt_or_ge count.toNat (2 ^ 31) with hcount | hlarge
    · have hstart : Reachable ((barrierSystem ι count).when NoSpurious) _ :=
        reachable_start fun hzero => hgt (by simp [hzero])
      have harrive := hstart.step (i := BarrierStep.arrive default) ⟨rfl, trivial⟩
      have hwait : (BarrierRun.step (.start ι ⟨0, count.toInt⟩) (.arrive default)).place default = .waiting := by
        have hlast : (BarrierRun.start ι ⟨0, count.toInt⟩).arrivals % count.toNat + 1 < count.toNat := by
          simp only [BarrierRun.start, Nat.zero_mod]
          omega
        rw [step_arrive_wait (grouped_of_reachable hcount hstart).2 hlast]
        exact Function.update_self _ _ _
      obtain ⟨s, hr, hearly⟩ := exists_early_of_spurious hcount harrive hwait
      have hspurious := harrive.of_when.step (i := BarrierStep.spurious default) hwait
      exact hearly (hnever s (hspurious.of_after hr))
    · obtain ⟨s, hr, hearly⟩ := early_of_large hlarge (default : ι)
      exact hearly (hnever s hr.of_when)
  · intro hle s hr
    obtain ⟨hpos, hs⟩ := grouped_of_reachable (by omega) (when_noSpurious_of_le_one hle hr)
    exact hs.neverEarly hpos

end Spurious

end SdbFpga.Sched
