import Mathlib.Algebra.BigOperators.Group.Finset.Basic
import Mathlib.Algebra.Order.BigOperators.Group.Finset
import Mathlib.Data.Fintype.BigOperators
import SdbFpga.Exec.WorkQueueInvariant

/-!
# `WorkQueue`: some call always returns

* `Pc.rank` : the accesses a call still needs if no other thread changes the queue;
* `exec_rank` : an access that does not change the queue lowers the rank of its thread;
* `State.moves`, `Inv.run_moves` : an access that changes the queue moves `head`, `tail` or the end of the list forward;
* `lock_free` : the accesses of a run are bounded by the calls made in it.
-/

namespace SdbFpga.Exec
open LinkedList Transition

variable {ν : Type} {q q' : Queue ν} {linked : List ν} {h k : Nat} {pc : Pc ν}

/-! ## Accesses to go -/

/-- Two nodes in a row differ. -/
theorem Shape.ne_of_consecutive {last next : Option ν} (hs : Shape q linked h k)
    (hc : Consecutive linked last next) : last ≠ next := by
  obtain ⟨i, hi, hlast, hnext⟩ := hc
  intro heq
  have := hs.list.getElem?_inj (by omega) (hlast.symm.trans (heq.trans hnext))
  omega

section Rank
variable [DecidableEq ν]

/-- The accesses a call needs at most if the queue stays as it is; outdated locals cost one more round of its loop. -/
def Pc.rank (q : Queue ν) : Pc ν → Nat
  | .idle => 0
  | .addTail _ => 4
  | .addNext _ last => if last = q.tail then 3 else 7
  | .addCheck _ last next => if last = q.tail ∧ last.bind q.next = next then 2 else 6
  | .addLink _ last => if last.bind q.next = none then 1 else 5
  | .addSwing _ _ => 1
  | .addHelp _ last _ => if q.tail = last then 1 else 5
  | .addDone => 0
  | .nextHead => 5
  | .nextTail first => if first = q.head then 4 else 9
  | .nextNext first last => if first = q.head ∧ last = q.tail then 3 else 8
  | .nextCheck first last next => if first = q.head ∧ last = q.tail ∧ first.bind q.next = next then 2 else 7
  | .nextHelp last _ => if q.tail = last then 1 else 6
  | .nextSwing first _ => if q.head = first then 1 else 6
  | .nextDone _ => 0
  | .fault => 0

theorem rank_ready (hr : pc.ready = true) : pc.rank q = 0 := by
  cases pc <;> first | rfl | cases hr

theorem rank_le (q : Queue ν) (pc : Pc ν) : pc.rank q ≤ 9 := by
  unfold Pc.rank
  split <;> first | omega | (split <;> omega)

/-- A swing from the current `tail` to the next node changes the queue. -/
theorem Shape.tail_ne_of_swing {last next : Option ν} (hs : Shape q linked h k) (hc : Consecutive linked last next)
    (hq : q.swingTail false last next = q) : q.tail ≠ last := by
  intro heq
  unfold Queue.swingTail at hq
  rw [if_pos ⟨rfl, heq⟩] at hq
  have htail : next = q.tail := congrArg Queue.tail hq
  exact hs.ne_of_consecutive hc (heq.symm.trans htail.symm)

/-- An access that succeeds and leaves the queue as it is brings its thread closer to the end of its call. -/
theorem exec_rank {d : Prop} (hs : Shape q linked h k) (hok : pc.Ok linked h k d) (hrun : pc.ready = false)
    (hq : (q.exec false pc).1 = q) : (q.exec false pc).2.1.rank q < pc.rank q := by
  match pc with
  | .addTail node => simp [Queue.exec, Pc.rank]
  | .addNext node none => simp only [Queue.exec, Pc.rank]; split <;> omega
  | .addNext node (some l) =>
    simp only [Queue.exec, Pc.rank, Option.bind_some, and_true]
    split <;> omega
  | .addCheck node last next =>
    simp only [Queue.exec]
    split
    · next hlast =>
      split <;> grind [Pc.rank]
    · next hne => simp [Pc.rank, hne]
  | .addLink node none => simp [Queue.exec, Pc.rank]
  | .addLink node (some l) =>
    simp only [Queue.exec, true_and] at hq ⊢
    split
    · next hnull =>
      rw [if_pos hnull] at hq
      have hnext := congrFun (congrArg Queue.next hq) l
      rw [hnull] at hnext
      simp at hnext
    · next hne => simp [Pc.rank, hne]
  | .addSwing node last => exact Nat.zero_lt_one
  | .addHelp node last next =>
    simp only [Queue.exec, Pc.rank] at hq ⊢
    rw [if_neg (hs.tail_ne_of_swing hok hq)]
    exact (by decide : 4 < 5)
  | .nextHead => simp [Queue.exec, Pc.rank]
  | .nextTail first =>
    simp only [Queue.exec, Pc.rank, and_true]
    split <;> omega
  | .nextNext none last => simp only [Queue.exec, Pc.rank]; split <;> omega
  | .nextNext (some f) last =>
    simp only [Queue.exec, Pc.rank, Option.bind_some, and_true]
    split <;> omega
  | .nextCheck first last next =>
    simp only [Queue.exec]
    split
    · next hfirst =>
      split
      · split <;> grind [Pc.rank]
      · grind [Pc.rank]
    · next hne => simp [Pc.rank, hne]
  | .nextHelp last next =>
    simp only [Queue.exec, Pc.rank] at hq ⊢
    rw [if_neg (hs.tail_ne_of_swing hok hq)]
    exact (by decide : 5 < 6)
  | .nextSwing first next =>
    simp only [Queue.exec, true_and]
    split
    · next heq => simp [Pc.rank, heq]
    · next hne => simp [Pc.rank, hne]
  | .fault => cases hok

end Rank

/-! ## Moves of the queue -/

/-- The list and the two positions make up the queue. -/
theorem Shape.queue_eq (hs : Shape q linked h k) (hs' : Shape q' linked h k) : q' = q := by
  have hheadNode : q'.headNode = q.headNode := by
    have h0 := (isList_iff.mp hs.list).1
    have h0' := (isList_iff.mp hs'.list).1
    exact Option.some.inj (h0'.trans h0.symm)
  have hnext : q'.next = q.next := by
    funext n
    by_cases hn : n ∈ linked
    · obtain ⟨i, hi⟩ := List.mem_iff_getElem?.mp hn
      rw [hs.list.next_eq hi, hs'.list.next_eq hi]
    · rw [hs.fresh n hn, hs'.fresh n hn]
  obtain ⟨headNode, head, tail, next⟩ := q
  obtain ⟨headNode', head', tail', next'⟩ := q'
  simp only [Queue.mk.injEq]
  exact ⟨hheadNode, hs'.head.trans hs.head.symm, hs'.tail.trans hs.tail.symm, hnext⟩

theorem Shape.unique {h' k' : Nat} (hs : Shape q linked h k) (hs' : Shape q linked h' k') : h' = h ∧ k' = k := by
  have hle := hs.le
  have hlt := hs.lt
  constructor
  · exact (hs.list.getElem?_inj (by omega) (hs.head.symm.trans hs'.head)).symm
  · exact (hs.list.getElem?_inj hlt (hs.tail.symm.trans hs'.tail)).symm

variable [DecidableEq ν] {τ : Type} [DecidableEq τ] {s : State τ ν}

/-- How often the queue has been moved on, when `head` and `tail` are the nodes `h` and `k`. -/
def State.moves (s : State τ ν) (h k : Nat) : Nat := s.linked.length + h + k

/-- An access never moves the queue back, and one that does not move it on leaves it as it is. -/
theorem Inv.run_moves (hi : Inv s h k) (t : τ) (spurious : Bool) : ∃ h' k',
    Inv (s.step (.run t spurious)) h' k' ∧ s.moves h k ≤ (s.step (.run t spurious)).moves h' k' ∧
      ((s.step (.run t spurious)).moves h' k' = s.moves h k → (s.step (.run t spurious)).queue = s.queue) := by
  obtain ⟨linked', h', k', m⟩ := exec_moved hi.shape (hi.ok t) (fun n hn => (hi.pending t n hn).2) spurious
  obtain ⟨h'', k'', hi'⟩ := hi.run t spurious
  have hlinked : (s.step (.run t spurious)).linked = linked' := by
    have he := m.event
    rw [step_run_linked]
    split
    · next node hr =>
      rw [hr] at he
      exact he.1.symm
    · next hr =>
      match hr' : (s.queue.exec spurious (s.pc t)).2.2 with
      | .silent =>
        rw [hr'] at he
        exact he.1.symm
      | .linked node => exact absurd hr' (hr node)
      | .handed _ =>
        rw [hr'] at he
        exact he.1.symm
  have hshape : Shape (s.step (.run t spurious)).queue (s.step (.run t spurious)).linked h' k' := by
    rw [step_run_queue, hlinked]
    exact m.shape
  obtain ⟨rfl, rfl⟩ := hshape.unique hi'.shape
  have hlen := m.grow.length_le
  have hhle := m.hle
  have hkle := m.kle
  refine ⟨h'', k'', hi', ?_, ?_⟩
  · unfold State.moves
    rw [hlinked]
    omega
  · intro heq
    unfold State.moves at heq
    rw [hlinked] at heq
    have hsame : s.linked = linked' := m.grow.eq_of_length (by omega)
    have hh : h'' = h := by omega
    have hk : k'' = k := by omega
    subst hh hk
    rw [hlinked, ← hsame] at hshape
    exact hi.shape.queue_eq hshape

/-! ## The potential -/

omit [DecidableEq ν] [DecidableEq τ] in
/-- Every node was added, so the queue cannot be moved on for ever. -/
theorem Inv.moves_le (hi : Inv s h k) : s.moves h k ≤ 3 * s.added.length + 1 := by
  have hle := hi.shape.le
  have hlt := hi.shape.lt
  have hnodup : s.linked.tail.Nodup := (List.tail_sublist _).nodup hi.shape.list.nodup
  have hsub : s.linked.tail.length ≤ s.added.length := (List.subperm_of_subset hnodup hi.added).length_le
  rw [List.length_tail] at hsub
  unfold State.moves
  omega

variable [Fintype τ]

/-- The accesses all running calls need at most if the queue stays as it is. -/
def State.ranks (s : State τ ν) : Nat := ∑ t, (s.pc t).rank s.queue

/-- What is left of the run: the moves still possible, each of which may outdate all locals, and the ranks. -/
def State.Potential (s : State τ ν) (m : Nat) : Prop :=
  ∃ h k, Inv s h k ∧ m = (3 * s.added.length + 1 - s.moves h k) * (9 * Fintype.card τ + 1) + s.ranks

omit [DecidableEq τ] in
theorem ranks_le (s : State τ ν) : s.ranks ≤ 9 * Fintype.card τ := by
  unfold State.ranks
  calc ∑ t, (s.pc t).rank s.queue ≤ ∑ _t : τ, 9 := Finset.sum_le_sum fun t _ => rank_le _ _
    _ = 9 * Fintype.card τ := by simp [Nat.mul_comm]

/-- The ranks after one thread has moved and the queue has not. -/
theorem ranks_update {s' : State τ ν} {t : τ} {pc' : Pc ν} (hq : s'.queue = s.queue)
    (hpc : s'.pc = Function.update s.pc t pc') :
    s'.ranks + (s.pc t).rank s.queue = s.ranks + pc'.rank s.queue := by
  unfold State.ranks
  rw [hq, hpc, ← Finset.add_sum_erase _ _ (Finset.mem_univ t), ← Finset.add_sum_erase _ _ (Finset.mem_univ t)]
  have hrest : ∑ u ∈ Finset.univ.erase t, (Function.update s.pc t pc' u).rank s.queue =
      ∑ u ∈ Finset.univ.erase t, (s.pc u).rank s.queue := by
    apply Finset.sum_congr rfl
    intro u hu
    rw [Function.update_of_ne (Finset.ne_of_mem_erase hu)]
  rw [hrest, Function.update_self]
  omega

/-- A step is an access of a running call. -/
def Label.isAccess : Label τ ν → Bool
  | .run _ _ => true
  | _ => false

def Label.isAdd : Label τ ν → Bool
  | .add _ _ => true
  | _ => false

def Label.isNextElement : Label τ ν → Bool
  | .nextElement _ => true
  | _ => false

/-- A step is an access whose compare-and-swap may fail spuriously. -/
def Label.isSpurious : Label τ ν → Bool
  | .run _ spurious => spurious
  | _ => false

/-- What a step adds to the accesses of a run. -/
def Label.credit (n : Nat) : Label τ ν → Nat
  | .add _ _ => 27 * n + 7
  | .nextElement _ => 5
  | .run _ spurious => if spurious then 10 else 0

theorem potential_add {m : Nat} {t : τ} {node : ν} (hp : s.Potential m) (hperm : s.Permits (.add t node)) :
    (s.step (.add t node)).Potential (m + (27 * Fintype.card τ + 7)) := by
  obtain ⟨h, k, hi, rfl⟩ := hp
  obtain ⟨hready, hadded, hlinked⟩ := hperm
  have hranks : (s.step (.add t node)).ranks + (s.pc t).rank s.queue =
      s.ranks + (Pc.addTail node).rank s.queue := ranks_update rfl rfl
  have hle := hi.moves_le
  have hmoves : (s.step (.add t node)).moves h k = s.moves h k := rfl
  have hlen : (s.step (.add t node)).added.length = s.added.length + 1 := List.length_append
  have hgain : 3 * (s.added.length + 1) + 1 - s.moves h k = (3 * s.added.length + 1 - s.moves h k) + 3 := by omega
  have hfour : (Pc.addTail node).rank s.queue = 4 := rfl
  rw [rank_ready hready, hfour] at hranks
  refine ⟨h, k, hi.add t hadded hlinked, ?_⟩
  rw [hmoves, hlen, hgain, Nat.add_mul]
  omega

theorem potential_nextElement {m : Nat} {t : τ} (hp : s.Potential m) (hready : (s.pc t).ready = true) :
    (s.step (.nextElement t)).Potential (m + 5) := by
  obtain ⟨h, k, hi, rfl⟩ := hp
  have hranks : (s.step (.nextElement t)).ranks + (s.pc t).rank s.queue =
      s.ranks + (Pc.nextHead : Pc ν).rank s.queue := ranks_update rfl rfl
  have hfive : (Pc.nextHead : Pc ν).rank s.queue = 5 := rfl
  have hmoves : (s.step (.nextElement t)).moves h k = s.moves h k := rfl
  have hadded : (s.step (.nextElement t)).added = s.added := rfl
  rw [rank_ready hready, hfive] at hranks
  refine ⟨h, k, hi.nextElement t, ?_⟩
  rw [hmoves, hadded]
  omega

/-- An access pays with its own rank, or, where it moves the queue on, with the move. -/
theorem potential_run {m : Nat} {t : τ} {spurious : Bool} (hp : s.Potential m) (hrun : (s.pc t).ready = false) :
    ∃ m', (s.step (.run t spurious)).Potential m' ∧ m' + 1 ≤ m + if spurious then 10 else 0 := by
  obtain ⟨h, k, hi, rfl⟩ := hp
  obtain ⟨h', k', hi', hmono, hsame⟩ := hi.run_moves t spurious
  refine ⟨_, ⟨h', k', hi', rfl⟩, ?_⟩
  have hadded : (s.step (.run t spurious)).added = s.added := step_run_added s t spurious
  have hle := hi'.moves_le
  rw [hadded] at hle ⊢
  by_cases heq : (s.step (.run t spurious)).moves h' k' = s.moves h k
  · have hq := hsame heq
    have hpc : (s.step (.run t spurious)).pc =
        Function.update s.pc t (s.queue.exec spurious (s.pc t)).2.1 := record_pc _ _
    have hranks := ranks_update hq hpc
    rw [step_run_queue] at hq
    rw [heq]
    cases spurious with
    | false =>
      have := exec_rank hi.shape (hi.ok t) hrun hq
      simp only [Bool.false_eq_true, if_false]
      omega
    | true =>
      have := rank_le s.queue (s.queue.exec true (s.pc t)).2.1
      simp only [if_true]
      omega
  · have hranks := ranks_le (s.step (.run t spurious))
    have hfewer : 3 * s.added.length + 1 - s.moves h k =
        (3 * s.added.length + 1 - (s.step (.run t spurious)).moves h' k') +
          ((s.step (.run t spurious)).moves h' k' - s.moves h k) := by omega
    have hpos : 9 * Fintype.card τ + 1 ≤
        ((s.step (.run t spurious)).moves h' k' - s.moves h k) * (9 * Fintype.card τ + 1) :=
      Nat.le_mul_of_pos_left _ (by omega)
    rw [hfewer, Nat.add_mul]
    omega

omit [DecidableEq ν] [DecidableEq τ] [Fintype τ] in
theorem cost_sum (is : List (Label τ ν)) :
    (is.map fun i => if i.isAccess then 1 else 0).sum = is.countP Label.isAccess := by
  induction is with
  | nil => rfl
  | cons i is ih => rw [List.map_cons, List.sum_cons, ih, List.countP_cons, Nat.add_comm]

omit [DecidableEq ν] [DecidableEq τ] [Fintype τ] in
theorem credit_sum (n : Nat) (is : List (Label τ ν)) : (is.map (Label.credit n)).sum =
    (27 * n + 7) * is.countP Label.isAdd + 5 * is.countP Label.isNextElement + 10 * is.countP Label.isSpurious := by
  induction is with
  | nil => rfl
  | cons i is ih =>
    rw [List.map_cons, List.sum_cons, ih, List.countP_cons, List.countP_cons, List.countP_cons]
    have hcredit : i.credit n = (27 * n + 7) * (if i.isAdd then 1 else 0) + 5 * (if i.isNextElement then 1 else 0) +
        10 * (if i.isSpurious then 1 else 0) := by
      match i with
      | .add _ _ => simp [Label.credit, Label.isAdd, Label.isNextElement, Label.isSpurious]
      | .nextElement _ => simp [Label.credit, Label.isAdd, Label.isNextElement, Label.isSpurious]
      | .run _ true => rfl
      | .run _ false => rfl
    rw [hcredit, Nat.mul_add, Nat.mul_add, Nat.mul_add]
    omega

/-- Whatever the interleaving, the threads make a bounded number of accesses for the calls made and the spurious
failures suffered: while calls are running, some call returns. -/
theorem lock_free {dummy : ν} {is : List (Label τ ν)}
    (hp : (system τ ν).Steps (system τ ν).permits (State.new dummy) is) :
    is.countP Label.isAccess ≤ (27 * Fintype.card τ + 7) * is.countP Label.isAdd +
      5 * is.countP Label.isNextElement + 10 * is.countP Label.isSpurious := by
  have hinit : (State.new dummy : State τ ν).Potential 0 :=
    ⟨0, 0, inv_new dummy, by simp [State.ranks, State.moves, State.new, Pc.rank]⟩
  have hstep : ∀ (s : State τ ν) i m, s.Potential m → (system τ ν).permits s i →
      ∃ m', ((system τ ν).step s i).Potential m' ∧
        m' + (if i.isAccess then 1 else 0) ≤ m + i.credit (Fintype.card τ) := by
    intro s i m hm hperm
    match i, hperm with
    | .add t node, hperm => exact ⟨_, potential_add hm hperm, Nat.le_refl _⟩
    | .nextElement t, hperm => exact ⟨_, potential_nextElement hm hperm, Nat.le_refl _⟩
    | .run t spurious, hperm => exact potential_run hm hperm
  have hcost := System.run_cost hstep hinit hp
  rw [cost_sum, credit_sum] at hcost
  omega

/-- The bound for the interleaving `helped`, with its one spurious failure. -/
theorem lock_free_helped : helped.countP Label.isAccess ≤
    (27 * Fintype.card (Fin 2) + 7) * helped.countP Label.isAdd + 5 * helped.countP Label.isNextElement +
      10 * helped.countP Label.isSpurious := by
  have hp : (system (Fin 2) Nat).Steps (system (Fin 2) Nat).permits (State.new 0) helped := by decide +kernel
  exact lock_free hp

end SdbFpga.Exec
