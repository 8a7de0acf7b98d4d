import Mathlib.Algebra.BigOperators.Group.Finset.Basic
import Mathlib.Algebra.Order.BigOperators.Group.Finset
import Mathlib.Data.Finset.Max
import SdbFpga.Lib.Transition

/-!
# Barriers

Threads that cross a sequence of barriers: a call of `wait` blocks until `width` threads wait at the same barrier,
which releases all of them.

* `State.arrive`, `system` : the calls of the threads, in any order;
* `Passed`, `Reached`, `NoEarlyPass`, `Deadlock` : a barrier passed before all threads reached it, a blocked thread in a
  state without a step;
* `Inv` : the threads that passed are a multiple of `width`, `Inv.arrive` : one call;
* `noEarlyPass_of_card_eq`, `not_deadlock_of_card_eq` : with `width` threads neither happens;
* `early_pass` : with more threads than `width` the first barrier is passed early;
* `exists_terminal`, `deadlock_of_terminal` : every run can come to rest, with one thread more than `width` in a
  deadlock.
-/

namespace Barrier
open Transition

/-- For every thread the number of barriers behind it, and whether it is blocked at the next one. -/
@[ext]
structure State (τ : Type) where
  passed : τ → Nat
  waiting : τ → Bool

/-- No thread has called `wait`. -/
def State.new (τ : Type) : State τ where
  passed := fun _ => 0
  waiting := fun _ => false

section Moves
variable {τ : Type} [DecidableEq τ]

/-- `t` is blocked. -/
def State.wait (s : State τ) (t : τ) : State τ := { s with waiting := Function.update s.waiting t true }

/-- The threads `g` are let through. -/
def State.release (s : State τ) (g : Finset τ) : State τ where
  passed := fun u => if u ∈ g then s.passed u + 1 else s.passed u
  waiting := fun u => if u ∈ g then false else s.waiting u

end Moves

section Barrier
variable {τ β : Type} [DecidableEq τ] [DecidableEq β] (threads : Finset τ) (width : Nat) (prog : τ → List β)

/-- The barrier in front of a thread. -/
def State.next (s : State τ) (t : τ) : Option β := (prog t)[s.passed t]?

/-- The threads blocked at a barrier. -/
def State.blocked (s : State τ) (b : β) : Finset τ :=
  threads.filter fun t => s.waiting t = true ∧ s.next prog t = some b

/-- A thread calls `wait` on its next barrier. -/
def State.arrive (s : State τ) (t : τ) : State τ :=
  match s.next prog t with
  | none => s
  | some b =>
    if (s.blocked threads prog b).card + 1 = width then s.release (insert t (s.blocked threads prog b)) else s.wait t

/-- All orders of calls. -/
def system : System (State τ) τ where
  init := fun s => s = State.new τ
  permits := fun s t => t ∈ threads ∧ s.waiting t = false ∧ (s.next prog t).isSome = true
  step := fun s t => s.arrive threads width prog t

/-- `t` has returned from the call on `b`. -/
def Passed (s : State τ) (t : τ) (b : β) : Prop := b ∈ (prog t).take (s.passed t)

/-- `t` has called `wait` on `b`. -/
def Reached (s : State τ) (t : τ) (b : β) : Prop := Passed prog s t b ∨ (s.waiting t = true ∧ s.next prog t = some b)

/-- Who passed a barrier, passed it after every thread had reached it. -/
def NoEarlyPass (s : State τ) : Prop :=
  ∀ t ∈ threads, ∀ b, Passed prog s t b → ∀ u ∈ threads, Reached prog s u b

/-- A thread is blocked and none can take a step. -/
def Deadlock (s : State τ) : Prop :=
  (∃ t ∈ threads, s.waiting t = true) ∧ ∀ t, ¬ (system threads width prog).permits s t

end Barrier

/-! ## One sequence of barriers for all threads -/

section Count
variable {τ : Type} (threads : Finset τ)

/-- The threads behind barrier `k`. -/
def State.beyond (s : State τ) (k : Nat) : Finset τ := threads.filter fun t => k < s.passed t

/-- The threads blocked at barrier `k`. -/
def State.blockedAt (s : State τ) (k : Nat) : Finset τ := threads.filter fun t => s.waiting t = true ∧ s.passed t = k

variable {threads} {s : State τ} {k : Nat}

theorem mem_beyond {t : τ} : t ∈ s.beyond threads k ↔ t ∈ threads ∧ k < s.passed t := Finset.mem_filter

theorem mem_blockedAt {t : τ} : t ∈ s.blockedAt threads k ↔ t ∈ threads ∧ s.waiting t = true ∧ s.passed t = k :=
  Finset.mem_filter

variable [DecidableEq τ] {g : Finset τ}

theorem release_of_mem {u : τ} (hu : u ∈ g) :
    (s.release g).passed u = s.passed u + 1 ∧ (s.release g).waiting u = false := ⟨if_pos hu, if_pos hu⟩

theorem release_of_not_mem {u : τ} (hu : u ∉ g) :
    (s.release g).passed u = s.passed u ∧ (s.release g).waiting u = s.waiting u := ⟨if_neg hu, if_neg hu⟩

theorem wait_of_ne {t u : τ} (hne : u ≠ t) : (s.wait t).waiting u = s.waiting u := Function.update_of_ne hne _ _

theorem wait_self (t : τ) : (s.wait t).waiting t = true := Function.update_self _ _ _

/-- The threads let through are behind one barrier more. -/
theorem beyond_release (hg : ∀ u ∈ g, u ∈ threads ∧ s.passed u = k) (j : Nat) :
    (s.release g).beyond threads j = if j = k then s.beyond threads j ∪ g else s.beyond threads j := by
  ext u
  rw [mem_beyond]
  by_cases hu : u ∈ g
  · obtain ⟨hmem, hpassed⟩ := hg u hu
    rw [(release_of_mem hu).1, hpassed]
    by_cases hj : j = k
    · rw [if_pos hj, Finset.mem_union]
      exact iff_of_true ⟨hmem, by omega⟩ (.inr hu)
    · rw [if_neg hj, mem_beyond, hpassed]
      exact and_congr_right fun _ => by omega
  · rw [(release_of_not_mem hu).1]
    by_cases hj : j = k
    · rw [if_pos hj, Finset.mem_union, mem_beyond, or_iff_left hu]
    · rw [if_neg hj, mem_beyond]

theorem blockedAt_release (j : Nat) : (s.release g).blockedAt threads j ⊆ s.blockedAt threads j := by
  intro u hu
  rw [mem_blockedAt] at hu ⊢
  by_cases hug : u ∈ g
  · rw [(release_of_mem hug).2] at hu
    exact absurd hu.2.1 Bool.false_ne_true
  · rw [(release_of_not_mem hug).1, (release_of_not_mem hug).2] at hu
    exact hu

variable (threads s) in
theorem blockedAt_wait (t : τ) (j : Nat) : (s.wait t).blockedAt threads j ⊆
    if j = s.passed t then insert t (s.blockedAt threads j) else s.blockedAt threads j := by
  intro u hu
  obtain ⟨hmem, hwait, hpassed⟩ := mem_blockedAt.mp hu
  change s.passed u = j at hpassed
  rcases eq_or_ne u t with rfl | hne
  · rw [if_pos hpassed.symm]
    exact Finset.mem_insert_self _ _
  · rw [wait_of_ne hne] at hwait
    have hold : u ∈ s.blockedAt threads j := mem_blockedAt.mpr ⟨hmem, hwait, hpassed⟩
    split
    · exact Finset.mem_insert_of_mem hold
    · exact hold

end Count

section Sequence
variable {τ β : Type} [DecidableEq τ] [DecidableEq β] {threads : Finset τ} {width : Nat} {prog : τ → List β}
  {bs : List β}

/-- A barrier releases as many threads as it is wide. -/
structure Inv (threads : Finset τ) (width : Nat) (bs : List β) (s : State τ) : Prop where
  beyond : ∀ k, width ∣ (s.beyond threads k).card
  blocked : ∀ k, (s.blockedAt threads k).card < width
  next : ∀ t ∈ threads, s.waiting t = true → s.passed t < bs.length

omit [DecidableEq τ] [DecidableEq β] in
theorem inv_new (hw : 0 < width) : Inv threads width bs (State.new τ) := by
  refine ⟨?_, ?_, ?_⟩
  · intro k
    have hnone : (State.new τ).beyond threads k = ∅ := Finset.filter_eq_empty_iff.mpr fun t _ => Nat.not_lt_zero k
    rw [hnone, Finset.card_empty]
    exact Nat.dvd_zero _
  · intro k
    have hnone : (State.new τ).blockedAt threads k = ∅ :=
      Finset.filter_eq_empty_iff.mpr fun t _ h => Bool.false_ne_true h.1
    rw [hnone, Finset.card_empty]
    exact hw
  · intro t _ h
    cases h

/-- The threads `g` are blocked at the first barrier. -/
def State.gathered (g : Finset τ) : State τ where
  passed := fun _ => 0
  waiting := fun u => decide (u ∈ g)

omit [DecidableEq β] in
theorem blockedAt_gathered {g : Finset τ} (hg : g ⊆ threads) : (State.gathered g).blockedAt threads 0 = g := by
  ext u
  rw [mem_blockedAt]
  constructor
  · rintro ⟨_, hwait, _⟩
    exact of_decide_eq_true hwait
  · intro hu
    exact ⟨hg hu, decide_eq_true hu, rfl⟩

omit [DecidableEq β] in
theorem gathered_wait (g : Finset τ) (t : τ) : (State.gathered g).wait t = State.gathered (insert t g) := by
  refine State.ext rfl (funext fun u => ?_)
  rcases eq_or_ne u t with rfl | hne
  · rw [wait_self]
    exact (decide_eq_true (Finset.mem_insert_self u g)).symm
  · rw [wait_of_ne hne]
    exact decide_eq_decide.mpr (Finset.mem_insert.trans (or_iff_right hne)).symm

variable (hprog : ∀ t ∈ threads, prog t = bs) (hnodup : bs.Nodup)
include hprog

omit [DecidableEq β] in
theorem gathered_next (hbs : bs ≠ []) (g : Finset τ) {t : τ} (ht : t ∈ threads) :
    ((State.gathered g).next prog t).isSome = true := by
  rw [State.next, hprog t ht]
  show (bs[0]?).isSome = true
  rw [List.getElem?_eq_getElem (List.length_pos_of_ne_nil hbs)]
  rfl

include hnodup

omit [DecidableEq τ] in
/-- Where all threads cross the same barriers, these are the threads at one position. -/
theorem blocked_eq {s : State τ} {k : Nat} {b : β} (hk : bs[k]? = some b) :
    s.blocked threads prog b = s.blockedAt threads k := by
  apply Finset.filter_congr
  intro t ht
  rw [State.next, hprog t ht]
  obtain ⟨hlt, hget⟩ := List.getElem?_eq_some_iff.mp hk
  refine and_congr_right fun _ => ?_
  constructor
  · intro h
    obtain ⟨hlt', hget'⟩ := List.getElem?_eq_some_iff.mp h
    exact hnodup.getElem_inj_iff.mp (hget'.trans hget.symm)
  · rintro rfl
    exact hk

variable (width) in
/-- What a call does. -/
theorem arrive_cases {s : State τ} {t : τ} (ht : t ∈ threads) (hrun : s.waiting t = false)
    (hnext : (s.next prog t).isSome = true) : s.passed t < bs.length ∧ t ∉ s.blockedAt threads (s.passed t) ∧
      (((s.blockedAt threads (s.passed t)).card + 1 = width ∧
          s.arrive threads width prog t = s.release (insert t (s.blockedAt threads (s.passed t)))) ∨
        ((s.blockedAt threads (s.passed t)).card + 1 ≠ width ∧ s.arrive threads width prog t = s.wait t)) := by
  obtain ⟨b, hb⟩ := Option.isSome_iff_exists.mp hnext
  have hk : bs[s.passed t]? = some b := by
    rw [← hprog t ht]
    exact hb
  have hfree : t ∉ s.blockedAt threads (s.passed t) := by
    intro hmem
    exact Bool.false_ne_true (hrun.symm.trans (mem_blockedAt.mp hmem).2.1)
  have harrive : s.arrive threads width prog t = if (s.blockedAt threads (s.passed t)).card + 1 = width then
      s.release (insert t (s.blockedAt threads (s.passed t))) else s.wait t := by
    unfold State.arrive
    rw [hb]
    simp only [blocked_eq hprog hnodup hk]
  refine ⟨(List.getElem?_eq_some_iff.mp hk).1, hfree, ?_⟩
  by_cases hfull : (s.blockedAt threads (s.passed t)).card + 1 = width
  · exact .inl ⟨hfull, by rw [harrive, if_pos hfull]⟩
  · exact .inr ⟨hfull, by rw [harrive, if_neg hfull]⟩

/-- One call. -/
theorem Inv.arrive {s : State τ} (h : Inv threads width bs s) {t : τ} (ht : t ∈ threads) (hrun : s.waiting t = false)
    (hnext : (s.next prog t).isSome = true) : Inv threads width bs (s.arrive threads width prog t) := by
  obtain ⟨hlt, hfree, ⟨hfull, heq⟩ | ⟨hroom, heq⟩⟩ := arrive_cases width hprog hnodup ht hrun hnext
  · have hgroup : ∀ u ∈ insert t (s.blockedAt threads (s.passed t)), u ∈ threads ∧ s.passed u = s.passed t := by
      intro u hu
      rcases Finset.mem_insert.mp hu with rfl | hu
      · exact ⟨ht, rfl⟩
      · obtain ⟨hmem, _, hpassed⟩ := mem_blockedAt.mp hu
        exact ⟨hmem, hpassed⟩
    rw [heq]
    refine ⟨?_, ?_, ?_⟩
    · intro k
      rw [beyond_release hgroup]
      split
      · next hk =>
        have hdisj : Disjoint (s.beyond threads k) (insert t (s.blockedAt threads (s.passed t))) := by
          rw [Finset.disjoint_right]
          intro u hu hbeyond
          have hpassed := (hgroup u hu).2
          have hlt := (mem_beyond.mp hbeyond).2
          omega
        rw [Finset.card_union_of_disjoint hdisj, Finset.card_insert_of_notMem hfree, hfull]
        exact (Nat.dvd_add_left (Nat.dvd_refl _)).mpr (h.beyond k)
      · exact h.beyond k
    · intro k
      exact (Finset.card_le_card (blockedAt_release k)).trans_lt (h.blocked k)
    · intro u hu hwait
      have hblocked : u ∈ s.blockedAt threads
          ((s.release (insert t (s.blockedAt threads (s.passed t)))).passed u) :=
        blockedAt_release _ (mem_blockedAt.mpr ⟨hu, hwait, rfl⟩)
      obtain ⟨_, hold, hpassed⟩ := mem_blockedAt.mp hblocked
      rw [← hpassed]
      exact h.next u hu hold
  · rw [heq]
    refine ⟨h.beyond, ?_, ?_⟩
    · intro k
      have hle := Finset.card_le_card (blockedAt_wait threads s t k)
      have hlt := h.blocked k
      split at hle
      · next hk =>
        rw [hk] at hle hlt ⊢
        rw [Finset.card_insert_of_notMem hfree] at hle
        omega
      · omega
    · intro u hu hwait
      rcases eq_or_ne u t with rfl | hne
      · exact hlt
      · rw [wait_of_ne hne] at hwait
        exact h.next u hu hwait

theorem inv_of_reachable (hw : 0 < width) {s : State τ} (h : Reachable (system threads width prog) s) :
    Inv threads width bs s := by
  refine h.invariant ?_ ?_
  · rintro _ rfl
    exact inv_new hw
  · rintro s t _ hs ⟨ht, hrun, hnext⟩
    exact hs.arrive hprog hnodup ht hrun hnext

section Exact
variable {s : State τ} (hr : Reachable (system threads threads.card prog) s)
include hr

/-- With as many threads as the barriers are wide a barrier is passed by all or by none. -/
theorem passed_all {t : τ} (ht : t ∈ threads) {k : Nat} (hk : k < s.passed t) : ∀ u ∈ threads, k < s.passed u := by
  have hinv := inv_of_reachable hprog hnodup (Finset.card_pos.mpr ⟨t, ht⟩) hr
  have hpos : 0 < (s.beyond threads k).card := Finset.card_pos.mpr ⟨t, mem_beyond.mpr ⟨ht, hk⟩⟩
  have hall : s.beyond threads k = threads :=
    Finset.eq_of_subset_of_card_le (Finset.filter_subset _ _) (Nat.le_of_dvd hpos (hinv.beyond k))
  intro u hu
  rw [← hall] at hu
  exact (mem_beyond.mp hu).2

theorem noEarlyPass_of_card_eq : NoEarlyPass threads prog s := by
  intro t ht b hb u hu
  unfold Passed at hb
  rw [hprog t ht] at hb
  obtain ⟨k, hk, hget⟩ := List.mem_take_iff_getElem.mp hb
  have hpassed := passed_all hprog hnodup hr ht (show k < s.passed t by omega) u hu
  left
  unfold Passed
  rw [hprog u hu]
  exact List.mem_take_iff_getElem.mpr ⟨k, by omega, hget⟩

theorem not_deadlock_of_card_eq : ¬ Deadlock threads threads.card prog s := by
  rintro ⟨⟨t, ht, hwait⟩, hstuck⟩
  have hinv := inv_of_reachable hprog hnodup (Finset.card_pos.mpr ⟨t, ht⟩) hr
  -- nobody passed the barrier of a blocked thread, so all threads are blocked
  have hblocked : ∀ u ∈ threads, s.waiting u = true := by
    intro u hu
    by_contra hrun
    have hle : s.passed u ≤ s.passed t := by
      by_contra hlt
      exact Nat.lt_irrefl _ (passed_all hprog hnodup hr hu (Nat.not_le.mp hlt) t ht)
    have hnext : (s.next prog u).isSome = true := by
      rw [State.next, hprog u hu, List.getElem?_eq_getElem (hle.trans_lt (hinv.next t ht hwait))]
      rfl
    exact hstuck u ⟨hu, Bool.not_eq_true _ ▸ hrun, hnext⟩
  obtain ⟨u, hu, hmin⟩ := Finset.exists_min_image threads s.passed ⟨t, ht⟩
  have hsame : s.blockedAt threads (s.passed u) = threads := by
    apply Finset.filter_true_of_mem
    intro v hv
    refine ⟨hblocked v hv, ?_⟩
    by_contra hne
    have hle := hmin v hv
    exact Nat.lt_irrefl _ (passed_all hprog hnodup hr hv (show s.passed u < s.passed v by omega) u hu)
  have hlt := hinv.blocked (s.passed u)
  rw [hsame] at hlt
  exact Nat.lt_irrefl _ hlt

end Exact

/-- Fewer threads than the barriers are wide can be blocked at the first one. -/
theorem gathered_reachable (hbs : bs ≠ []) (g : Finset τ) (hg : g ⊆ threads) (hlt : g.card < width) :
    Reachable (system threads width prog) (State.gathered g) := by
  induction g using Finset.induction_on with
  | empty => exact .init (State.ext rfl (funext fun u => decide_eq_false (Finset.notMem_empty u)))
  | insert t g ht ih =>
    rw [Finset.card_insert_of_notMem ht] at hlt
    have hsub := (Finset.subset_insert t g).trans hg
    have hmem : t ∈ threads := hg (Finset.mem_insert_self t g)
    have hrun : (State.gathered g).waiting t = false := decide_eq_false ht
    have hnext := gathered_next hprog hbs g hmem
    have hstep := (ih hsub (by omega)).step ⟨hmem, hrun, hnext⟩
    obtain ⟨_, _, ⟨hfull, _⟩ | ⟨_, heq⟩⟩ := arrive_cases width hprog hnodup hmem hrun hnext
    · rw [show (State.gathered g).passed t = 0 from rfl, blockedAt_gathered hsub] at hfull
      omega
    · change Reachable _ (State.arrive threads width prog (State.gathered g) t) at hstep
      rw [heq, gathered_wait] at hstep
      exact hstep

/-- More threads than the barriers are wide: the first one is passed before the last thread reaches it. -/
theorem early_pass (hbs : bs ≠ []) (hw : 0 < width) (hlt : width < threads.card) :
    ∃ s, Reachable (system threads width prog) s ∧ ¬ NoEarlyPass threads prog s := by
  obtain ⟨g, hg, hcard⟩ : ∃ g ⊆ threads, g.card = width := Finset.exists_subset_card_eq hlt.le
  obtain ⟨t, ht⟩ : g.Nonempty := Finset.card_pos.mp (by omega)
  obtain ⟨u, hu, hug⟩ := Finset.exists_mem_notMem_of_card_lt_card (show g.card < threads.card by omega)
  have hsub := (Finset.erase_subset t g).trans hg
  have herase := Finset.card_erase_add_one ht
  have hfew : (g.erase t).card < width := by omega
  have hrun : (State.gathered (g.erase t)).waiting t = false := decide_eq_false (Finset.notMem_erase t g)
  have hnext := gathered_next hprog hbs (g.erase t) (hg ht)
  have hstep := (gathered_reachable hprog hnodup hbs (g.erase t) hsub hfew).step ⟨hg ht, hrun, hnext⟩
  refine ⟨_, hstep, ?_⟩
  obtain ⟨hpos, _, ⟨_, heq⟩ | ⟨hroom, _⟩⟩ := arrive_cases width hprog hnodup (hg ht) hrun hnext
  · change ¬ NoEarlyPass threads prog (State.arrive threads width prog (State.gathered (g.erase t)) t)
    have hgroup : insert t ((State.gathered (g.erase t)).blockedAt threads 0) = g := by
      rw [blockedAt_gathered hsub, Finset.insert_erase ht]
    rw [heq, show (State.gathered (g.erase t)).passed t = 0 from rfl, hgroup]
    intro hearly
    have hpassed : Passed prog ((State.gathered (g.erase t)).release g) t bs[0] := by
      unfold Passed
      rw [hprog t (hg ht), (release_of_mem ht).1]
      exact List.mem_take_iff_getElem.mpr ⟨0, by simpa using List.length_pos_of_ne_nil hbs, rfl⟩
    rcases hearly t (hg ht) _ hpassed u hu with hpast | ⟨hwait, _⟩
    · unfold Passed at hpast
      rw [(release_of_not_mem hug).1, show (State.gathered (g.erase t)).passed u = 0 from rfl, List.take_zero] at hpast
      cases hpast
    · rw [(release_of_not_mem hug).2] at hwait
      exact hug (Finset.mem_of_mem_erase (of_decide_eq_true hwait))
  · rw [show (State.gathered (g.erase t)).passed t = 0 from rfl, blockedAt_gathered hsub] at hroom
    omega

/-! ### Where the runs end -/

/-- What is left for a thread to do. -/
def State.pending (s : State τ) (n : Nat) (t : τ) : Nat := 2 * (n - s.passed t) + (!s.waiting t).toNat

omit [DecidableEq β] hprog hnodup in
theorem pending_release {s : State τ} {g : Finset τ} {n : Nat} {u : τ} (hlt : u ∈ g → s.passed u < n) :
    (s.release g).pending n u + (if u ∈ g then 1 else 0) ≤ s.pending n u := by
  unfold State.pending
  by_cases hu : u ∈ g
  · have hle := Bool.toNat_le (!(s.release g).waiting u)
    have hlt := hlt hu
    rw [(release_of_mem hu).1, if_pos hu]
    omega
  · rw [(release_of_not_mem hu).1, (release_of_not_mem hu).2, if_neg hu, Nat.add_zero]

omit [DecidableEq β] hprog hnodup in
theorem pending_wait {s : State τ} {n : Nat} {t : τ} (hrun : s.waiting t = false) (u : τ) :
    (s.wait t).pending n u + (if u = t then 1 else 0) ≤ s.pending n u := by
  change 2 * (n - s.passed u) + (!(s.wait t).waiting u).toNat + _ ≤ 2 * (n - s.passed u) + (!s.waiting u).toNat
  rcases eq_or_ne u t with rfl | hne
  · rw [wait_self, hrun, if_pos rfl]
    rfl
  · rw [wait_of_ne hne, if_neg hne, Nat.add_zero]

/-- Every call leaves less to do. -/
theorem pending_arrive {s : State τ} (h : Inv threads width bs s) {t : τ} (ht : t ∈ threads)
    (hrun : s.waiting t = false) (hnext : (s.next prog t).isSome = true) :
    ∑ u ∈ threads, (s.arrive threads width prog t).pending bs.length u < ∑ u ∈ threads, s.pending bs.length u := by
  obtain ⟨hlt, _, ⟨_, heq⟩ | ⟨_, heq⟩⟩ := arrive_cases width hprog hnodup ht hrun hnext
  · rw [heq]
    have hleft : ∀ u, u ∈ insert t (s.blockedAt threads (s.passed t)) → s.passed u < bs.length := by
      intro u hu
      rcases Finset.mem_insert.mp hu with rfl | hu
      · exact hlt
      · obtain ⟨hmem, hwait, _⟩ := mem_blockedAt.mp hu
        exact h.next u hmem hwait
    refine Finset.sum_lt_sum (fun u _ => (Nat.le_add_right _ _).trans (pending_release (hleft u))) ⟨t, ht, ?_⟩
    have hdone := pending_release (hleft t)
    rw [if_pos (Finset.mem_insert_self t _)] at hdone
    exact hdone
  · rw [heq]
    refine Finset.sum_lt_sum (fun u _ => (Nat.le_add_right _ _).trans (pending_wait hrun u)) ⟨t, ht, ?_⟩
    have hdone := pending_wait (n := bs.length) hrun t
    rw [if_pos rfl] at hdone
    exact hdone

/-- The threads come to rest. -/
theorem exists_terminal (hw : 0 < width) {s : State τ} (h : Reachable (system threads width prog) s) :
    ∃ s', Reachable (system threads width prog) s' ∧ ∀ t, ¬ (system threads width prog).permits s' t := by
  induction hn : ∑ u ∈ threads, s.pending bs.length u using Nat.strong_induction_on generalizing s with
  | _ n ih =>
    by_cases hstuck : ∀ t, ¬ (system threads width prog).permits s t
    · exact ⟨s, h, hstuck⟩
    · push Not at hstuck
      obtain ⟨t, ht, hrun, hnext⟩ := hstuck
      have hless := pending_arrive hprog hnodup (inv_of_reachable hprog hnodup hw h) ht hrun hnext
      exact ih _ (hn ▸ hless) (h.step ⟨ht, hrun, hnext⟩) rfl

/-- One thread more than the barriers are wide: where the threads come to rest, one is blocked. -/
theorem deadlock_of_terminal (hbs : bs ≠ []) (hw : 2 ≤ width) (hcard : threads.card = width + 1) {s : State τ}
    (h : Reachable (system threads width prog) s) (hstuck : ∀ t, ¬ (system threads width prog).permits s t) :
    Deadlock threads width prog s := by
  refine ⟨?_, hstuck⟩
  by_contra hrun
  have hpast : s.beyond threads 0 = threads := by
    apply Finset.filter_true_of_mem
    intro t ht
    by_contra hzero
    refine hstuck t ⟨ht, ?_, ?_⟩
    · exact Bool.not_eq_true _ ▸ fun hwait => hrun ⟨t, ht, hwait⟩
    · rw [State.next, hprog t ht, Nat.eq_zero_of_not_pos hzero,
        List.getElem?_eq_getElem (List.length_pos_of_ne_nil hbs)]
      rfl
  have hdvd := (inv_of_reachable hprog hnodup (by omega) h).beyond 0
  rw [hpast, hcard] at hdvd
  have hone := Nat.dvd_one.mp ((Nat.dvd_add_right (Nat.dvd_refl width)).mp hdvd)
  omega

end Sequence

end Barrier
