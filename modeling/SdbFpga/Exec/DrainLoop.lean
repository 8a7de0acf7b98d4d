import Mathlib.Data.Fintype.Basic
import SdbFpga.Exec.WorkQueueInvariant

/-!
# The work loop of the FPGA handler

`while(queue->isNotEmpty()) queue->nextElement()`, run by one thread after all items were added. `isNotEmpty` compares
`head` with `tail`, and `tail` may be one node behind.

* `Drain`, `drain` : the loop under a list of spurious failures;
* `DrainInv`, `drain_spec` : it returns the nodes up to `tail` and ends;
* `OneAtATime`, `seq_of_reachable` : after `add` calls one by one the list is in the order of the calls;
* `drainsAll_iff` : nothing is lost exactly if `tail` is the last node.
-/

namespace SdbFpga.Exec
open LinkedList Transition

/-! ## The loop -/

/-- Where the loop is: before either load of `isNotEmpty`, in `nextElement`, or behind the loop. -/
inductive LoopPc (ν : Type)
  | test
  | testTail (head : Option ν)
  | call (pc : Pc ν)
  | exit
  deriving DecidableEq, Repr

/-- The loop with the results it has obtained. -/
structure Drain (ν : Type) where
  queue : Queue ν
  pc : LoopPc ν
  results : List (Option ν)

section Loop
variable {ν : Type} [DecidableEq ν]

/-- One access of the loop. -/
def Drain.step (d : Drain ν) (spurious : Bool) : Drain ν :=
  match d.pc with
  | .test => { d with pc := .testTail d.queue.head }
  | .testTail head => if head ≠ d.queue.tail then { d with pc := .call .nextHead } else { d with pc := .exit }
  | .call pc =>
    let r := d.queue.exec spurious pc
    match r.2.1 with
    | .nextDone result => { queue := r.1, pc := .test, results := d.results ++ [result] }
    | pc' => { d with queue := r.1, pc := .call pc' }
  | .exit => d

/-- The two loads of a test are `isNotEmpty`. -/
theorem Drain.step_test {d : Drain ν} (htest : d.pc = .test) (spurious spurious' : Bool) :
    (d.step spurious).step spurious' =
      if d.queue.isNotEmpty then { d with pc := .call .nextHead } else { d with pc := .exit } := by
  obtain ⟨q, pc, results⟩ := d
  subst htest
  unfold Queue.isNotEmpty
  by_cases hdiff : q.head ≠ q.tail
  · simp [Drain.step, hdiff]
  · simp [Drain.step, not_not.mp hdiff]

theorem Drain.step_exit {d : Drain ν} (hexit : d.pc = .exit) (spurious : Bool) : d.step spurious = d := by
  unfold Drain.step
  rw [hexit]

theorem Drain.foldl_exit {d : Drain ν} (hexit : d.pc = .exit) (bs : List Bool) : bs.foldl Drain.step d = d := by
  induction bs with
  | nil => rfl
  | cons b bs ih => rw [List.foldl_cons, Drain.step_exit hexit, ih]

/-- The loop, from its start. -/
def drain (q : Queue ν) (spurious : List Bool) : Drain ν := spurious.foldl Drain.step ⟨q, .test, []⟩

/-- The loop loses nothing and adds nothing: what it has returned is always a beginning of `nodes`, it is all of them
when the loop ends, and the loop ends unless its swings keep failing. -/
def DrainsAll (q : Queue ν) (nodes : List ν) : Prop :=
  ∀ spurious : List Bool,
    (drain q spurious).results <+: nodes.map some ∧
      ((drain q spurious).pc = .exit → (drain q spurious).results = nodes.map some) ∧
      (7 * (nodes.length + 1) + 5 * spurious.count true ≤ spurious.length → (drain q spurious).pc = .exit)

/-- The locals of the loop when `head` is node `j` and `tail` node `m`. -/
def LoopPc.Ok (l : List ν) (m j : Nat) : LoopPc ν → Prop
  | .test => True
  | .testTail head => head = l[j]?
  | .call .nextHead => j < m
  | .call (.nextTail first) => j < m ∧ first = l[j]?
  | .call (.nextNext first last) => j < m ∧ first = l[j]? ∧ last = l[m]?
  | .call (.nextCheck first last next) => j < m ∧ first = l[j]? ∧ last = l[m]? ∧ next = l[j + 1]?
  | .call (.nextSwing first next) => j < m ∧ first = l[j]? ∧ next = l[j + 1]?
  | .call _ => False
  | .exit => j = m

/-- The accesses left in a round. -/
def LoopPc.rank : LoopPc ν → Nat
  | .test => 7
  | .testTail _ => 6
  | .call .nextHead => 5
  | .call (.nextTail _) => 4
  | .call (.nextNext _ _) => 3
  | .call (.nextCheck _ _ _) => 2
  | .call (.nextSwing _ _) => 1
  | .call _ => 0
  | .exit => 0

/-- The loop after `j` results on the list `l`, whose node `m` is `tail`. -/
structure DrainInv (next : ν → Option ν) (l : List ν) (m j : Nat) (d : Drain ν) : Prop where
  next : d.queue.next = next
  tail : d.queue.tail = l[m]?
  head : d.queue.head = l[j]?
  le : j ≤ m
  results : d.results = (l.tail.take j).map some
  pc : d.pc.Ok l m j

section Run
variable {next : ν → Option ν} {l : List ν} {m j : Nat} (hm : m < l.length)
include hm

/-- The swing hands out the node it moves `head` to, or fails and the call starts again. -/
theorem DrainInv.swing {q : Queue ν} {first nx : Option ν} {results : List (Option ν)}
    (hd : DrainInv next l m j ⟨q, .call (.nextSwing first nx), results⟩) (spurious : Bool) :
    ∃ j', DrainInv next l m j' (Drain.step ⟨q, .call (.nextSwing first nx), results⟩ spurious) ∧
      7 * (m - j') + (Drain.step ⟨q, .call (.nextSwing first nx), results⟩ spurious).pc.rank + 1 ≤
        7 * (m - j) + 1 + (if spurious then 5 else 0) := by
  obtain ⟨hnext, htail, hhead, hle, hres, hlt, hfirst, hnx⟩ := hd
  have hcur : q.head = first := hhead.trans hfirst.symm
  cases spurious with
  | false =>
    have hstep : Drain.step ⟨q, .call (.nextSwing first nx), results⟩ false =
        ⟨{ q with head := nx }, .test, results ++ [nx]⟩ := by
      simp only [Drain.step, Queue.exec, hcur, and_self, if_true]
    have hget : l.tail[j]? = l[j + 1]? := List.getElem?_tail
    have hin : j + 1 < l.length := by omega
    rw [hstep]
    refine ⟨j + 1, ⟨hnext, htail, hnx, hlt, ?_, trivial⟩, ?_⟩
    · show results ++ [nx] = _
      rw [List.take_add_one, hget, List.getElem?_eq_getElem hin, List.map_append, ← hres, hnx,
        List.getElem?_eq_getElem hin]
      rfl
    · show 7 * (m - (j + 1)) + 7 + 1 ≤ 7 * (m - j) + 1 + 0
      omega
  | true =>
    refine ⟨j, ⟨hnext, htail, hhead, hle, hres, hlt⟩, ?_⟩
    show 7 * (m - j) + 5 + 1 ≤ 7 * (m - j) + 1 + 5
    omega

variable {p : Option ν} (hl : IsList next p l)
include hl

/-- One access brings the end nearer, unless it is a swing that fails. -/
theorem DrainInv.step {d : Drain ν} (hd : DrainInv next l m j d) (hne : d.pc ≠ .exit) (spurious : Bool) :
    ∃ j', DrainInv next l m j' (d.step spurious) ∧
      7 * (m - j') + (d.step spurious).pc.rank + 1 ≤ 7 * (m - j) + d.pc.rank + (if spurious then 5 else 0) := by
  obtain ⟨⟨headNode, head, tail, nextOf⟩, pc, results⟩ := d
  obtain ⟨hnext, htail, hhead, hle, hres, hpc⟩ := hd
  simp only at hnext htail hhead hres hne hpc
  have hj : j < l.length := by omega
  match pc, hpc with
  | .test, _ =>
    refine ⟨j, ⟨hnext, htail, hhead, hle, hres, hhead⟩, ?_⟩
    show 7 * (m - j) + 6 + 1 ≤ 7 * (m - j) + 7 + _
    omega
  | .testTail first, hpc =>
    have hfirst : first = l[j]? := hpc
    simp only [Drain.step]
    split
    · next hdiff =>
      have hjm : j ≠ m := by
        rintro rfl
        exact hdiff (hfirst.trans htail.symm)
      refine ⟨j, ⟨hnext, htail, hhead, hle, hres, ?_⟩, ?_⟩
      · show j < m
        omega
      · show 7 * (m - j) + 5 + 1 ≤ 7 * (m - j) + 6 + _
        omega
    · next hsame =>
      rw [not_not] at hsame
      have hjm : j = m := hl.getElem?_inj hj (by rw [← hfirst, hsame, htail])
      refine ⟨j, ⟨hnext, htail, hhead, hle, hres, hjm⟩, ?_⟩
      show 7 * (m - j) + 0 + 1 ≤ 7 * (m - j) + 6 + _
      omega
  | .call .nextHead, hlt =>
    refine ⟨j, ⟨hnext, htail, hhead, hle, hres, hlt, hhead⟩, ?_⟩
    show 7 * (m - j) + 4 + 1 ≤ 7 * (m - j) + 5 + _
    omega
  | .call (.nextTail first), ⟨hlt, hfirst⟩ =>
    refine ⟨j, ⟨hnext, htail, hhead, hle, hres, hlt, hfirst, htail⟩, ?_⟩
    show 7 * (m - j) + 3 + 1 ≤ 7 * (m - j) + 4 + _
    omega
  | .call (.nextNext first last), ⟨hlt, hfirst, hlast⟩ =>
    rw [List.getElem?_eq_getElem hj] at hfirst
    subst hfirst
    refine ⟨j, ⟨hnext, htail, hhead, hle, hres, hlt, ?_, hlast, ?_⟩, ?_⟩
    · exact (List.getElem?_eq_getElem hj).symm
    · show nextOf l[j] = l[j + 1]?
      rw [hnext]
      exact hl.next_eq (List.getElem?_eq_getElem hj)
    · show 7 * (m - j) + 2 + 1 ≤ 7 * (m - j) + 3 + _
      omega
  | .call (.nextCheck first last nx), ⟨hlt, hfirst, hlast, hnx⟩ =>
    have hcur : first = head := hfirst.trans hhead.symm
    have hdiff : first ≠ last := by
      intro heq
      have := hl.getElem?_inj hj (hfirst.symm.trans (heq.trans hlast))
      omega
    have hstep : (Drain.mk ⟨headNode, head, tail, nextOf⟩ (.call (.nextCheck first last nx)) results).step spurious =
        ⟨⟨headNode, head, tail, nextOf⟩, .call (.nextSwing first nx), results⟩ := by
      simp only [Drain.step, Queue.exec, if_pos hcur, if_neg hdiff]
    rw [hstep]
    refine ⟨j, ⟨hnext, htail, hhead, hle, hres, hlt, hfirst, hnx⟩, ?_⟩
    show 7 * (m - j) + 1 + 1 ≤ 7 * (m - j) + 2 + _
    omega
  | .call (.nextSwing first nx), hpc => exact swing hm ⟨hnext, htail, hhead, hle, hres, hpc⟩ spurious
  | .exit, _ => exact absurd rfl hne

/-- The whole loop. -/
theorem DrainInv.run (bs : List Bool) : ∀ {j : Nat} {d : Drain ν}, DrainInv next l m j d →
    ∃ j', DrainInv next l m j' (bs.foldl Drain.step d) ∧
      (7 * (m - j) + d.pc.rank + 5 * bs.count true ≤ bs.length → (bs.foldl Drain.step d).pc = .exit) := by
  induction bs with
  | nil =>
    intro j d hd
    refine ⟨j, hd, ?_⟩
    intro hlen
    have hzero : d.pc.rank = 0 := by
      rw [List.count_nil, List.length_nil] at hlen
      omega
    have hok := hd.pc
    show d.pc = .exit
    match d.pc, hok, hzero with
    | .exit, _, _ => rfl
  | cons b bs ih =>
    intro j d hd
    by_cases hexit : d.pc = .exit
    · rw [Drain.foldl_exit hexit]
      exact ⟨j, hd, fun _ => hexit⟩
    · obtain ⟨j₁, hd₁, hmeasure⟩ := hd.step hm hl hexit b
      obtain ⟨j', hd', hend⟩ := ih hd₁
      refine ⟨j', hd', ?_⟩
      intro hlen
      apply hend
      rw [List.count_cons, List.length_cons] at hlen
      cases b with
      | false =>
        simp only [Bool.false_eq_true, if_false] at hmeasure
        simp at hlen
        omega
      | true =>
        simp only [if_true] at hmeasure
        simp at hlen
        omega

end Run

/-- The loop returns the nodes behind `head` up to `tail`, in order, and ends. -/
theorem drain_spec {q : Queue ν} {l : List ν} {m : Nat} (hl : IsList q.next q.head l) (hm : m < l.length)
    (htail : q.tail = l[m]?) (bs : List Bool) :
    ∃ j ≤ m, (drain q bs).results = (l.tail.take j).map some ∧ ((drain q bs).pc = .exit → j = m) ∧
      (7 * (m + 1) + 5 * bs.count true ≤ bs.length → (drain q bs).pc = .exit) := by
  have hstart : DrainInv q.next l m 0 ⟨q, .test, []⟩ :=
    ⟨rfl, htail, (isList_iff.mp hl).1, Nat.zero_le _, rfl, trivial⟩
  obtain ⟨j, hd, hend⟩ := hstart.run hm hl bs
  refine ⟨j, hd.le, hd.results, ?_, ?_⟩
  · intro hexit
    have hok := hd.pc
    have hexit' : (bs.foldl Drain.step ⟨q, .test, []⟩).pc = .exit := hexit
    rw [hexit'] at hok
    exact hok
  · intro hlen
    apply hend
    show 7 * (m - 0) + 7 + _ ≤ _
    omega

end Loop

/-! ## Calls of `add` one by one -/

/-- The program counters of `add`. -/
def Pc.adding {ν : Type} : Pc ν → Bool
  | .idle => true
  | .addTail _ => true
  | .addNext _ _ => true
  | .addCheck _ _ _ => true
  | .addLink _ _ => true
  | .addSwing _ _ => true
  | .addHelp _ _ _ => true
  | .addDone => true
  | _ => false

section Sequential
variable {τ ν : Type} [DecidableEq τ] [DecidableEq ν] {s : State τ ν}

/-- A call of `add` begins when every earlier one has returned. -/
def OneAtATime (s : State τ ν) : Label τ ν → Prop
  | .add _ _ => ∀ t, (s.pc t).ready = true
  | .nextElement _ => False
  | .run _ _ => True

instance [Fintype τ] (s : State τ ν) (i : Label τ ν) : Decidable (OneAtATime s i) :=
  match i with
  | .add _ _ => inferInstanceAs (Decidable (∀ t, (s.pc t).ready = true))
  | .nextElement _ => inferInstanceAs (Decidable False)
  | .run _ _ => inferInstanceAs (Decidable True)

omit [DecidableEq τ] [DecidableEq ν] in
theorem pending_of_ready {pc : Pc ν} (hr : pc.ready = true) : pc.pending = none := by
  cases pc <;> first | rfl | cases hr

omit [DecidableEq τ] in
/-- An access of an `add` links its node or leaves the list alone. -/
theorem exec_adding {pc : Pc ν} {q : Queue ν} (spurious : Bool) (hadd : pc.adding = true) (hrun : pc.ready = false)
    (hfault : (q.exec spurious pc).2.1 ≠ .fault) :
    (q.exec spurious pc).2.1.adding = true ∧
      ((∃ n, (q.exec spurious pc).2.2 = .linked n ∧ pc.pending = some n ∧ (q.exec spurious pc).2.1.pending = none) ∨
        (q.exec spurious pc).2.2 = .silent ∧ (q.exec spurious pc).2.1.pending = pc.pending) := by
  match pc, hadd, hrun with
  | .addTail node, _, _ => exact ⟨rfl, .inr ⟨rfl, rfl⟩⟩
  | .addNext node (some l), _, _ => exact ⟨rfl, .inr ⟨rfl, rfl⟩⟩
  | .addNext node none, _, _ => exact absurd rfl hfault
  | .addCheck node last next, _, _ =>
    simp only [Queue.exec]
    split
    · split
      · exact ⟨rfl, .inr ⟨rfl, rfl⟩⟩
      · exact ⟨rfl, .inr ⟨rfl, rfl⟩⟩
    · exact ⟨rfl, .inr ⟨rfl, rfl⟩⟩
  | .addLink node (some l), _, _ =>
    simp only [Queue.exec]
    split
    · exact ⟨rfl, .inl ⟨node, rfl, rfl, rfl⟩⟩
    · exact ⟨rfl, .inr ⟨rfl, rfl⟩⟩
  | .addLink node none, _, _ => exact absurd rfl hfault
  | .addSwing node last, _, _ => exact ⟨rfl, .inr ⟨rfl, rfl⟩⟩
  | .addHelp node last next, _, _ => exact ⟨rfl, .inr ⟨rfl, rfl⟩⟩

/-- `add` comes to its last access only by linking its node. -/
theorem exec_eq_addSwing {pc : Pc ν} {q : Queue ν} {spurious : Bool} {node : ν} {last : Option ν}
    (hpc : (q.exec spurious pc).2.1 = .addSwing node last) (hrun : pc.ready = false) :
    ∃ l, pc = .addLink node (some l) ∧ last = some l ∧ q.next l = none ∧
      (q.exec spurious pc).1 = { q with next := Function.update q.next l (some node) } := by
  match pc, hrun with
  | .addLink node' (some l), _ =>
    simp only [Queue.exec] at hpc ⊢
    split at hpc
    · next hcas =>
      cases hpc
      refine ⟨l, rfl, rfl, hcas.2, ?_⟩
      rw [if_pos hcas]
    · cases hpc
  | .addCheck _ _ _, _ =>
    simp only [Queue.exec] at hpc
    split at hpc
    · split at hpc <;> cases hpc
    · cases hpc
  | .addNext _ (some _), _ => cases hpc
  | .nextNext (some _) _, _ => cases hpc
  | .nextCheck _ _ _, _ =>
    simp only [Queue.exec] at hpc
    split at hpc
    · split at hpc
      · split at hpc <;> cases hpc
      · cases hpc
    · cases hpc
  | .nextSwing _ _, _ =>
    simp only [Queue.exec] at hpc
    split at hpc <;> cases hpc

/-- The list is in the order of the calls; the node of a running call is still to come or was the last one, and before
the last access of a call `tail` stands in front of its node. -/
structure Seq (s : State τ ν) : Prop where
  handed : s.handed = []
  adding : ∀ t, (s.pc t).adding = true
  alone : ∀ t u, (s.pc t).ready = false → (s.pc u).ready = false → t = u
  idle : (∀ t, (s.pc t).ready = true) → s.added = s.linked.tail
  busy : ∀ t, (s.pc t).ready = false → s.added = s.linked.tail ++ (s.pc t).pending.toList
  swing : ∀ t node last, s.pc t = .addSwing node last →
    s.queue.tail = last ∧ last.bind s.queue.next = some node ∧ s.queue.next node = none

theorem Seq.add (hs : Seq s) (t : τ) (node : ν) (hall : ∀ t, (s.pc t).ready = true) :
    Seq (s.step (.add t node)) := by
  have hpc : ∀ u, u ≠ t → (s.step (.add t node)).pc u = s.pc u := fun u hu => Function.update_of_ne hu _ _
  have hpct : (s.step (.add t node)).pc t = .addTail node := Function.update_self _ _ _
  have hready : ∀ u, ((s.step (.add t node)).pc u).ready = false → u = t := by
    intro u hu
    by_contra hne
    rw [hpc u hne, hall u] at hu
    cases hu
  refine ⟨hs.handed, ?_, ?_, ?_, ?_, ?_⟩
  · intro u
    by_cases hu : u = t
    · rw [hu, hpct]
      rfl
    · rw [hpc u hu]
      exact hs.adding u
  · intro u v hu hv
    rw [hready u hu, hready v hv]
  · intro h
    have := h t
    rw [hpct] at this
    cases this
  · intro u hu
    rw [hready u hu, hpct]
    exact congrArg (· ++ [node]) (hs.idle hall)
  · intro u node' last hu
    have hut := hready u (by rw [hu]; rfl)
    rw [hut, hpct] at hu
    cases hu

theorem exec_ne_fault {h k : Nat} (hi : Inv s h k) (t : τ) (spurious : Bool) :
    (s.queue.exec spurious (s.pc t)).2.1 ≠ .fault := by
  obtain ⟨h', k', hi'⟩ := hi.run t spurious
  have hok := hi'.ok t
  rw [step_run_self] at hok
  intro hfault
  rw [hfault] at hok
  exact hok

/-- Before the last access of an `add`, `tail` stands in front of its node. -/
theorem swing_step {h k : Nat} (hi : Inv s h k) {t : τ} {spurious : Bool} (hrun : (s.pc t).ready = false) {node : ν}
    {last : Option ν} (hpc : (s.queue.exec spurious (s.pc t)).2.1 = .addSwing node last) :
    (s.step (.run t spurious)).queue.tail = last ∧
      last.bind (s.step (.run t spurious)).queue.next = some node ∧
      (s.step (.run t spurious)).queue.next node = none := by
  obtain ⟨l, hlink, rfl, hnull, hqueue⟩ := exec_eq_addSwing hpc hrun
  have hlt := hi.shape.lt
  have hok := hi.ok t
  rw [hlink] at hok
  obtain ⟨i, hik, hlast⟩ := hok
  obtain ⟨_, hnew⟩ := hi.pending t node (by rw [hlink]; rfl)
  have hend : i + 1 = s.linked.length := by
    rw [hi.shape.list.next_eq hlast.symm, List.getElem?_eq_none_iff] at hnull
    omega
  have hki : k = i := by omega
  have hnl : node ≠ l := by
    rintro rfl
    exact hnew (List.mem_of_getElem? hlast.symm)
  rw [step_run_queue, hqueue]
  refine ⟨?_, ?_, ?_⟩
  · show s.queue.tail = some l
    rw [hi.shape.tail, hki, hlast]
  · show Function.update s.queue.next l (some node) l = some node
    exact Function.update_self _ _ _
  · show Function.update s.queue.next l (some node) node = none
    rw [Function.update_of_ne hnl]
    exact hi.shape.fresh node hnew

theorem Seq.run (hs : Seq s) (t : τ) (spurious : Bool) (hrun : (s.pc t).ready = false)
    {h k : Nat} (hi : Inv s h k) : Seq (s.step (.run t spurious)) := by
  have hlt := hi.shape.lt
  have hne : s.linked ≠ [] := List.ne_nil_of_length_pos (by omega)
  obtain ⟨hadding, hevent⟩ := exec_adding spurious (hs.adding t) hrun (exec_ne_fault hi t spurious)
  have hother : ∀ u, u ≠ t → ((s.step (.run t spurious)).pc u).ready = true := by
    intro u hu
    rw [step_run_other s t spurious hu]
    by_contra hne
    exact hu (hs.alone u t ((Bool.not_eq_true _).mp hne) hrun)
  have hready : ∀ u, ((s.step (.run t spurious)).pc u).ready = false → u = t := by
    intro u hu
    by_contra hne
    rw [hother u hne] at hu
    cases hu
  have hlist : (s.step (.run t spurious)).added =
      (s.step (.run t spurious)).linked.tail ++ ((s.step (.run t spurious)).pc t).pending.toList := by
    rw [step_run_added, step_run_linked, step_run_self, hs.busy t hrun]
    rcases hevent with ⟨n, hlink, hold, hnew⟩ | ⟨hsilent, hsame⟩
    · rw [hlink, hold, hnew]
      show s.linked.tail ++ [n] = (s.linked ++ [n]).tail ++ []
      rw [List.tail_append_of_ne_nil hne, List.append_nil]
    · rw [hsilent, hsame]
  refine ⟨?_, ?_, ?_, ?_, ?_, ?_⟩
  · rw [step_run_handed]
    rcases hevent with ⟨n, hlink, _⟩ | ⟨hsilent, _⟩
    · rw [hlink]
      exact hs.handed
    · rw [hsilent]
      exact hs.handed
  · intro u
    by_cases hu : u = t
    · rw [hu, step_run_self]
      exact hadding
    · rw [step_run_other s t spurious hu]
      exact hs.adding u
  · intro u v hu hv
    rw [hready u hu, hready v hv]
  · intro hall
    rw [hlist, pending_of_ready (hall t)]
    exact List.append_nil _
  · intro u hu
    rw [hready u hu]
    exact hlist
  · intro u node last hu
    have hut := hready u (by rw [hu]; rfl)
    rw [hut, step_run_self] at hu
    exact swing_step hi hrun hu

theorem seq_of_reachable (hr : Reachable ((system τ ν).when OneAtATime) s) : Seq s := by
  apply hr.invariant
  · rintro s ⟨dummy, rfl⟩
    refine ⟨rfl, fun _ => rfl, ?_, fun _ => rfl, ?_, ?_⟩
    · rintro t u ⟨⟩
    · rintro t ⟨⟩
    · rintro t node last ⟨⟩
  · rintro s i hr hs ⟨hperm, hone⟩
    match i, hperm, hone with
    | .add t node, _, hall => exact hs.add t node hall
    | .nextElement _, _, hfalse => exact hfalse.elim
    | .run t spurious, hrun, _ =>
      obtain ⟨h, k, hi⟩ := inv_of_reachable hr.of_when
      exact hs.run t spurious hrun hi

/-- The last access of an `add` leaves `tail` at the last node unless it fails. -/
theorem tail_next_swing (hr : Reachable ((system τ ν).when OneAtATime) s) {t : τ} {node : ν} {last : Option ν}
    (hpc : s.pc t = .addSwing node last) (spurious : Bool) :
    (s.step (.run t spurious)).queue.tail.bind (s.step (.run t spurious)).queue.next = none ↔ spurious = false := by
  obtain ⟨htail, hlink, hlast⟩ := (seq_of_reachable hr).swing t node last hpc
  rw [step_run_queue, hpc]
  simp only [Queue.exec, Queue.swingTail]
  cases spurious with
  | false =>
    rw [if_pos ⟨rfl, htail⟩]
    exact iff_of_true hlast rfl
  | true =>
    rw [if_neg (by simp), htail, hlink]
    simp

/-! ## What the loop loses -/

/-- The loop on a queue from which nothing has been taken returns the linked nodes in order; where it ends, they are all
of them exactly if `tail` is the last one. -/
theorem drain_linked (hr : Reachable (system τ ν) s) (hnone : s.handed = []) (spurious : List Bool) :
    ∃ j ≤ s.linked.tail.length, (drain s.queue spurious).results = (s.linked.tail.take j).map some ∧
      ((drain s.queue spurious).pc = .exit → (j = s.linked.tail.length ↔ s.queue.tail.bind s.queue.next = none)) ∧
      (7 * (s.linked.tail.length + 1) + 5 * spurious.count true ≤ spurious.length →
        (drain s.queue spurious).pc = .exit) := by
  obtain ⟨h, k, hi⟩ := inv_of_reachable hr
  have hs := hi.shape
  have hlt := hs.lt
  have hlag := hs.lag
  have hle := hs.le
  have hlen : s.linked.tail.length = s.linked.length - 1 := List.length_tail
  have hzero : h = 0 := by
    have hcount := congrArg List.length hi.handed
    rw [hnone, List.length_map, List.length_take, List.length_nil] at hcount
    omega
  have hlist : IsList s.queue.next s.queue.head s.linked := by
    rw [hs.head, hzero]
    exact hs.list.drop 0
  have hnext : s.queue.tail.bind s.queue.next = s.linked[k + 1]? := by
    rw [hs.tail, List.getElem?_eq_getElem hlt, Option.bind_some]
    exact hs.list.next_eq (List.getElem?_eq_getElem hlt)
  obtain ⟨j, hj, hres, hexit, hends⟩ := drain_spec hlist hlt hs.tail spurious
  refine ⟨j, by omega, hres, ?_, ?_⟩
  · intro hdone
    rw [hnext, List.getElem?_eq_none_iff, hexit hdone]
    omega
  · intro hbound
    exact hends (by omega)

/-- The loop on such a queue returns all linked nodes exactly if `tail` is the last one. -/
theorem drainsAll_linked (hr : Reachable (system τ ν) s) (hnone : s.handed = []) :
    DrainsAll s.queue s.linked.tail ↔ s.queue.tail.bind s.queue.next = none := by
  constructor
  · intro hall
    -- without failures the loop ends, and its results are all nodes
    obtain ⟨_, hresults, hends⟩ := hall (List.replicate (7 * (s.linked.tail.length + 1)) false)
    obtain ⟨j, hj, hres, hexit, _⟩ := drain_linked hr hnone (List.replicate (7 * (s.linked.tail.length + 1)) false)
    have hdone := hends (by simp [List.count_replicate])
    have hcount := congrArg List.length (hres.symm.trans (hresults hdone))
    rw [List.length_map, List.length_map, List.length_take] at hcount
    exact (hexit hdone).mp (by omega)
  · intro hend spurious
    obtain ⟨j, hj, hres, hexit, hends⟩ := drain_linked hr hnone spurious
    rw [hres]
    refine ⟨?_, ?_, hends⟩
    · exact (List.take_prefix j s.linked.tail).map some
    · intro hdone
      rw [(hexit hdone).mpr hend, List.take_length]

/-- After `add` calls one by one, none of which is still running, the loop returns all added nodes, each once and in
order, exactly if `tail` is the last node. -/
theorem drainsAll_iff (hr : Reachable ((system τ ν).when OneAtATime) s) (hquiet : ∀ t, (s.pc t).ready = true) :
    DrainsAll s.queue s.added ↔ s.queue.tail.bind s.queue.next = none := by
  have hs := seq_of_reachable hr
  rw [hs.idle hquiet]
  exact drainsAll_linked hr.of_when hs.handed

end Sequential

/-- A thread adds node 1 to a queue with head node 0; `spurious` decides its last swing. -/
def addOne (spurious : Bool) : List (Label Unit Nat) :=
  [.add () 1, .run () false, .run () false, .run () false, .run () false, .run () spurious]

/-- Where the swing succeeds the loop returns the node. -/
theorem drainsAll_iff_one : DrainsAll ((system Unit Nat).run (State.new 0) (addOne false)).queue [1] :=
  (drainsAll_iff (s := ((system Unit Nat).when OneAtATime).run (State.new 0) (addOne false))
    (Reachable.run (.init ⟨0, rfl⟩) (by decide +kernel)) (by decide +kernel)).mpr (by decide +kernel)

/-- Where it fails the loop ends at once and the node is lost. -/
theorem item_lost : ∃ s : State Unit Nat, Reachable ((system Unit Nat).when OneAtATime) s ∧
    (∀ t, (s.pc t).ready = true) ∧ s.added = [1] ∧ ¬ DrainsAll s.queue s.added := by
  refine ⟨((system Unit Nat).when OneAtATime).run (State.new 0) (addOne true),
    Reachable.run (.init ⟨0, rfl⟩) ?_, ?_, ?_, ?_⟩
  · decide +kernel
  · decide +kernel
  · decide +kernel
  · intro h
    have hresults := (h [false, false]).2.1 (by decide +kernel)
    revert hresults
    decide +kernel

end SdbFpga.Exec
