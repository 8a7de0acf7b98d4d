import SdbFpga.Exec.WorkQueue

/-!
# `WorkQueue`: the list behind a lagging tail

* `Shape` : the linked nodes form one list, `head` is its node `h`, `tail` its node `k`, at most one from the end;
* `Pc.Ok` : what a thread's locals still mean, `Pc.Ok.mono` : others cannot spoil it;
* `exec_moved` : one access;
* `Inv`, `inv_of_reachable` : the invariant of all interleavings;
* `fifo` : the queue is first in, first out.
-/

namespace SdbFpga.Exec
open LinkedList Transition

variable {ν : Type} {q : Queue ν} {linked linked' : List ν} {h h' k k' : Nat} {pc : Pc ν}

/-! ## The list -/

/-- The queue holds the nodes `linked`, of which node `h` is `head` and node `k` is `tail`. -/
structure Shape (q : Queue ν) (linked : List ν) (h k : Nat) : Prop where
  list : IsList q.next (some q.headNode) linked
  head : q.head = linked[h]?
  tail : q.tail = linked[k]?
  le : h ≤ k
  lt : k < linked.length
  lag : linked.length ≤ k + 2
  fresh : ∀ n, n ∉ linked → q.next n = none

/-- Two nodes in a row. -/
def Consecutive (linked : List ν) (last next : Option ν) : Prop :=
  ∃ i, i + 1 < linked.length ∧ last = linked[i]? ∧ next = linked[i + 1]?

/-- The locals of a thread: nodes of the list, never ahead of the pointer they were read from. A null `next` read by
`nextElement` means that the queue was drained then. -/
def Pc.Ok (linked : List ν) (h k : Nat) (drained : Prop) : Pc ν → Prop
  | .addNext _ last => ∃ i ≤ k, last = linked[i]?
  | .addCheck _ last next => (∃ i ≤ k, last = linked[i]?) ∧ (next = none ∨ Consecutive linked last next)
  | .addLink _ last => ∃ i ≤ k, last = linked[i]?
  | .addSwing node last => Consecutive linked last (some node)
  | .addHelp _ last next => Consecutive linked last next
  | .nextTail first => ∃ i ≤ h, first = linked[i]?
  | .nextNext first last => ∃ i ≤ h, ∃ j ≤ k, i ≤ j ∧ first = linked[i]? ∧ last = linked[j]?
  | .nextCheck first last next => ∃ i ≤ h, ∃ j ≤ k, i ≤ j ∧ first = linked[i]? ∧ last = linked[j]? ∧
      (i + 1 < linked.length ∧ next = linked[i + 1]? ∨ i = j ∧ next = none ∧ drained)
  | .nextHelp last next => Consecutive linked last next
  | .nextSwing first next => ∃ i, i + 1 ≤ k ∧ first = linked[i]? ∧ next = linked[i + 1]?
  | .nextDone result => result = none ∧ drained ∨ ∃ i, 0 < i ∧ i ≤ h ∧ result = linked[i]?
  | .fault => False
  | .idle => True
  | .addTail _ => True
  | .addDone => True
  | .nextHead => True

theorem getElem?_grow (hp : linked <+: linked') {i : Nat} (hi : i < linked.length) :
    linked'[i]? = linked[i]? := by
  rw [List.prefix_iff_getElem?.mp hp i hi, List.getElem?_eq_getElem hi]

theorem Consecutive.mono {last next : Option ν} (hp : linked <+: linked') (hc : Consecutive linked last next) :
    Consecutive linked' last next := by
  obtain ⟨i, hi, hlast, hnext⟩ := hc
  refine ⟨i, Nat.lt_of_lt_of_le hi hp.length_le, ?_, ?_⟩
  · rw [getElem?_grow hp (by omega)]
    exact hlast
  · rw [getElem?_grow hp hi]
    exact hnext

/-- The queue only grows, and the pointers only move forward. -/
theorem Pc.Ok.mono {d d' : Prop} (hp : linked <+: linked') (hh : h ≤ h') (hk : k ≤ k') (hlt : k < linked.length)
    (hhk : h ≤ k) (hd : d → d') (hok : pc.Ok linked h k d) : pc.Ok linked' h' k' d' := by
  have hget : ∀ i ≤ k, linked'[i]? = linked[i]? := fun i hi => getElem?_grow hp (by omega)
  have hback : ∀ {last : Option ν}, (∃ i ≤ k, last = linked[i]?) → ∃ i ≤ k', last = linked'[i]? := by
    rintro last ⟨i, hi, hlast⟩
    exact ⟨i, by omega, hlast.trans (hget i hi).symm⟩
  match pc with
  | .idle => exact hok
  | .addTail _ => exact hok
  | .addNext _ _ => exact hback hok
  | .addCheck _ _ _ => exact ⟨hback hok.1, hok.2.imp_right (Consecutive.mono hp)⟩
  | .addLink _ _ => exact hback hok
  | .addSwing _ _ => exact Consecutive.mono hp hok
  | .addHelp _ _ _ => exact Consecutive.mono hp hok
  | .addDone => exact hok
  | .nextHead => exact hok
  | .nextTail _ =>
    obtain ⟨i, hi, hfirst⟩ := hok
    exact ⟨i, by omega, hfirst.trans (hget i (by omega)).symm⟩
  | .nextNext _ _ =>
    obtain ⟨i, hi, j, hj, hij, hfirst, hlast⟩ := hok
    exact ⟨i, by omega, j, by omega, hij, hfirst.trans (hget i (by omega)).symm, hlast.trans (hget j hj).symm⟩
  | .nextCheck _ _ _ =>
    obtain ⟨i, hi, j, hj, hij, hfirst, hlast, hnext⟩ := hok
    refine ⟨i, by omega, j, by omega, hij, hfirst.trans (hget i (by omega)).symm, hlast.trans (hget j hj).symm, ?_⟩
    rcases hnext with ⟨hlen, hnext⟩ | ⟨heq, hnull, hdr⟩
    · refine .inl ⟨Nat.lt_of_lt_of_le hlen hp.length_le, ?_⟩
      rw [getElem?_grow hp hlen]
      exact hnext
    · exact .inr ⟨heq, hnull, hd hdr⟩
  | .nextHelp _ _ => exact Consecutive.mono hp hok
  | .nextSwing _ _ =>
    obtain ⟨i, hi, hfirst, hnext⟩ := hok
    exact ⟨i, by omega, hfirst.trans (hget i (by omega)).symm, hnext.trans (hget (i + 1) hi).symm⟩
  | .nextDone _ =>
    rcases hok with ⟨hnull, hdr⟩ | ⟨i, hpos, hi, hres⟩
    · exact .inl ⟨hnull, hd hdr⟩
    · exact .inr ⟨i, hpos, by omega, hres.trans (hget i (by omega)).symm⟩
  | .fault => exact hok

/-! ## One access -/

/-- The effect of an event on the history. -/
def Event.Effect (linked : List ν) (h : Nat) (linked' : List ν) (h' : Nat) : Event ν → Prop
  | .silent => linked' = linked ∧ h' = h
  | .linked node => linked' = linked ++ [node] ∧ h' = h
  | .handed result => linked' = linked ∧ h' = h + 1 ∧ h + 1 < linked.length ∧ result = linked[h + 1]?

/-- The history after an event with effect. -/
theorem record_eq {τ : Type} {s : State τ ν} {e : Event ν} {h : Nat} (hlt : h < s.linked.length)
    (hhanded : s.handed = (s.linked.tail.take h).map some) (he : e.Effect s.linked h linked' h') :
    s.record e = { s with linked := linked', handed := (linked'.tail.take h').map some } := by
  match e with
  | .silent =>
    obtain ⟨rfl, rfl⟩ := he
    rw [← hhanded]
    rfl
  | .linked node =>
    obtain ⟨rfl, rfl⟩ := he
    have hne : s.linked ≠ [] := List.ne_nil_of_length_pos (by omega)
    rw [List.tail_append_of_ne_nil hne, List.take_append_of_le_length (by rw [List.length_tail]; omega), ← hhanded]
    rfl
  | .handed result =>
    obtain ⟨rfl, rfl, hin, hres⟩ := he
    have hget : s.linked.tail[h]? = s.linked[h + 1]? := List.getElem?_tail
    rw [List.take_add_one, hget, List.getElem?_eq_getElem hin, List.map_append, ← hhanded]
    show { s with handed := s.handed ++ [result] } = _
    rw [hres, List.getElem?_eq_getElem hin]
    rfl

/-- The outcome `r` of an access of a thread at `pc`, where `d` says that the thread has seen a drained queue. -/
structure Moved (pc : Pc ν) (d : Prop) (linked : List ν) (h k : Nat) (r : Queue ν × Pc ν × Event ν)
    (linked' : List ν) (h' k' : Nat) : Prop where
  shape : Shape r.1 linked' h' k'
  grow : linked <+: linked'
  hle : h ≤ h'
  kle : k ≤ k'
  event : r.2.2.Effect linked h linked' h'
  ok : ∀ d' : Prop, (d → d') → (r.2.1.ready = false → h' + 1 = linked'.length → d') → r.2.1.Ok linked' h' k' d'
  pending : ∀ n, r.2.1.pending = some n → pc.pending = some n ∧ linked' = linked
  link : ∀ n, r.2.2 = .linked n → pc.pending = some n

theorem Moved.linked_cases {d : Prop} {r : Queue ν × Pc ν × Event ν} (m : Moved pc d linked h k r linked' h' k') :
    linked' = linked ∨ ∃ node, pc.pending = some node ∧ linked' = linked ++ [node] := by
  have he := m.event
  match hr : r.2.2 with
  | .silent =>
    rw [hr] at he
    exact .inl he.1
  | .linked node =>
    rw [hr] at he
    exact .inr ⟨node, m.link node hr, he.1⟩
  | .handed _ =>
    rw [hr] at he
    exact .inl he.1

/-- An access that leaves the queue alone. -/
theorem moved_silent {d : Prop} {pc' : Pc ν} (hs : Shape q linked h k)
    (hpend : ∀ n, pc'.pending = some n → pc.pending = some n)
    (hok : ∀ d' : Prop, (d → d') → (pc'.ready = false → h + 1 = linked.length → d') → pc'.Ok linked h k d') :
    Moved pc d linked h k (q, pc', .silent) linked h k where
  shape := hs
  grow := List.prefix_refl _
  hle := Nat.le_refl _
  kle := Nat.le_refl _
  event := ⟨rfl, rfl⟩
  ok := hok
  pending := fun n hn => ⟨hpend n hn, rfl⟩
  link := by
    rintro n ⟨⟩

/-- A node of the list is an old one or the thread's. -/
theorem Moved.mem {d : Prop} {r : Queue ν × Pc ν × Event ν} (m : Moved pc d linked h k r linked' h' k') {n : ν}
    (hn : n ∈ linked') : n ∈ linked ∨ pc.pending = some n := by
  rcases m.linked_cases with rfl | ⟨node, hnode, rfl⟩
  · exact .inl hn
  · rw [List.mem_append, List.mem_singleton] at hn
    rcases hn with hold | rfl
    · exact .inl hold
    · exact .inr hnode

theorem Moved.mem_tail {d : Prop} {r : Queue ν × Pc ν × Event ν} (m : Moved pc d linked h k r linked' h' k')
    (hne : linked ≠ []) {n : ν} (hn : n ∈ linked'.tail) : n ∈ linked.tail ∨ pc.pending = some n := by
  rcases m.linked_cases with rfl | ⟨node, hnode, rfl⟩
  · exact .inl hn
  · rw [List.tail_append_of_ne_nil hne, List.mem_append, List.mem_singleton] at hn
    rcases hn with hold | rfl
    · exact .inl hold
    · exact .inr hnode

variable [DecidableEq ν]

/-- Swinging `tail` from a node to the next one. -/
theorem Shape.swingTail {last next : Option ν} (hs : Shape q linked h k) (hc : Consecutive linked last next)
    (spurious : Bool) : ∃ k', k ≤ k' ∧ Shape (q.swingTail spurious last next) linked h k' := by
  obtain ⟨i, hi, hlast, hnext⟩ := hc
  unfold Queue.swingTail
  by_cases hcas : spurious = false ∧ q.tail = last
  · have hk : k = i := by
      apply hs.list.getElem?_inj hs.lt
      rw [← hs.tail, hcas.2, hlast]
    have hle := hs.le
    have hlag := hs.lag
    subst hk
    rw [if_pos hcas]
    exact ⟨k + 1, by omega, hs.list, hs.head, hnext, by omega, hi, by omega, hs.fresh⟩
  · rw [if_neg hcas]
    exact ⟨k, Nat.le_refl _, hs⟩

/-- `tail` is swung, and the thread goes on. -/
theorem moved_swingTail {d : Prop} {pc' : Pc ν} {last next : Option ν} {spurious : Bool} (hs : Shape q linked h k)
    (hc : Consecutive linked last next) (hpend : ∀ n, pc'.pending = some n → pc.pending = some n)
    (hok : ∀ k' (d' : Prop), pc'.Ok linked h k' d') :
    ∃ linked' h' k', Moved pc d linked h k (q.swingTail spurious last next, pc', .silent) linked' h' k' := by
  obtain ⟨k', hk, hshape⟩ := hs.swingTail hc spurious
  refine ⟨linked, h, k', hshape, List.prefix_refl _, Nat.le_refl _, hk, ⟨rfl, rfl⟩, fun d' _ _ => hok k' d',
    fun n hn => ⟨hpend n hn, rfl⟩, ?_⟩
  rintro n ⟨⟩

/-- Linking a new node. -/
theorem Shape.link {l node : ν} {i : Nat} (hs : Shape q linked h k) (hi : i ≤ k) (hl : some l = linked[i]?)
    (hnull : q.next l = none) (hnew : node ∉ linked) :
    Shape { q with next := Function.update q.next l (some node) } (linked ++ [node]) h k ∧
      Consecutive (linked ++ [node]) (some l) (some node) := by
  have hlt := hs.lt
  have hle := hs.le
  have hend : i + 1 = linked.length := by
    rw [hs.list.next_eq hl.symm, List.getElem?_eq_none_iff] at hnull
    omega
  have hlast : linked[linked.length - 1]? = some l := by
    rw [← hend, Nat.add_sub_cancel]
    exact hl.symm
  refine ⟨⟨hs.list.snoc hlast hnew (hs.fresh _ hnew), ?_, ?_, hle, ?_, ?_, ?_⟩, i, ?_, ?_, ?_⟩
  · show q.head = _
    rw [List.getElem?_append_left (by omega)]
    exact hs.head
  · show q.tail = _
    rw [List.getElem?_append_left hlt]
    exact hs.tail
  · rw [List.length_append]
    omega
  · rw [List.length_append, List.length_singleton]
    omega
  · intro n hn
    rw [List.mem_append, not_or] at hn
    have hne : n ≠ l := by
      rintro rfl
      exact hn.1 (List.mem_of_getElem? hl.symm)
    show Function.update q.next l (some node) n = none
    rw [Function.update_of_ne hne]
    exact hs.fresh n hn.1
  · rw [List.length_append, List.length_singleton]
    omega
  · rw [List.getElem?_append_left (by omega)]
    exact hl
  · rw [hend, List.getElem?_concat_length]

/-- The link of `add`. -/
theorem moved_link {d : Prop} {node l : ν} {i : Nat} (hs : Shape q linked h k) (hi : i ≤ k)
    (hlast : some l = linked[i]?) (hnew : node ∉ linked) (spurious : Bool) : ∃ linked' h' k',
    Moved (.addLink node (some l)) d linked h k (q.exec spurious (.addLink node (some l))) linked' h' k' := by
  simp only [Queue.exec]
  split
  · next hcas =>
    obtain ⟨hshape, hc⟩ := hs.link hi hlast hcas.2 hnew
    refine ⟨_, _, _, hshape, List.prefix_append _ _, Nat.le_refl _, Nat.le_refl _, ⟨rfl, rfl⟩, fun _ _ _ => hc,
      ?_, ?_⟩
    · rintro n ⟨⟩
    · rintro n ⟨⟩
      rfl
  · exact ⟨_, _, _, moved_silent hs (fun _ hn => hn) fun _ _ _ => trivial⟩

/-- The comparison of `nextElement`: `tail` lags exactly if there is a next node. -/
theorem moved_check {d : Prop} {first last next : Option ν} (hs : Shape q linked h k)
    (hok : (Pc.nextCheck first last next).Ok linked h k d) (spurious : Bool) : ∃ linked' h' k',
    Moved (.nextCheck first last next) d linked h k (q.exec spurious (.nextCheck first last next)) linked' h' k' := by
  have hlt := hs.lt
  have hle := hs.le
  obtain ⟨i, hi, j, hj, hij, hfirst, hlast, hnext⟩ := hok
  simp only [Queue.exec]
  split
  · split
    · next heq =>
      have hijeq : i = j := by
        apply hs.list.getElem?_inj (by omega)
        rw [← hfirst, ← hlast, heq]
      split
      · next hnull =>
        refine ⟨_, _, _, moved_silent hs (by rintro n ⟨⟩) fun d' hd _ => .inl ⟨rfl, hd ?_⟩⟩
        rcases hnext with ⟨hend, hnext⟩ | ⟨_, _, hdr⟩
        · rw [hnull, List.getElem?_eq_getElem hend] at hnext
          cases hnext
        · exact hdr
      · next hne =>
        refine ⟨_, _, _, moved_silent hs (by rintro n ⟨⟩) fun _ _ _ => ?_⟩
        rcases hnext with ⟨hend, hnext⟩ | ⟨_, hnull, _⟩
        · exact ⟨i, hend, by rw [hlast, hijeq], hnext⟩
        · exact absurd hnull hne
    · next hne =>
      have hijne : i ≠ j := by
        rintro rfl
        exact hne (hfirst.trans hlast.symm)
      refine ⟨_, _, _, moved_silent hs (by rintro n ⟨⟩) fun _ _ _ => ⟨i, by omega, hfirst, ?_⟩⟩
      rcases hnext with ⟨_, hnext⟩ | ⟨heq, _⟩
      · exact hnext
      · exact absurd heq hijne
  · exact ⟨_, _, _, moved_silent hs (by rintro n ⟨⟩) fun _ _ _ => trivial⟩

/-- The head swing. -/
theorem moved_swing {d : Prop} {first next : Option ν} (hs : Shape q linked h k)
    (hok : (Pc.nextSwing first next).Ok linked h k d) (spurious : Bool) : ∃ linked' h' k',
    Moved (.nextSwing first next) d linked h k (q.exec spurious (.nextSwing first next)) linked' h' k' := by
  have hlt := hs.lt
  have hle := hs.le
  obtain ⟨i, hi, hfirst, hnext⟩ := hok
  simp only [Queue.exec]
  split
  · next hcas =>
    have hhi : h = i := by
      apply hs.list.getElem?_inj (by omega)
      rw [← hs.head, hcas.2, hfirst]
    subst hhi
    refine ⟨linked, h + 1, k, ⟨hs.list, hnext, hs.tail, hi, hlt, hs.lag, hs.fresh⟩, List.prefix_refl _, by omega,
      Nat.le_refl _, ⟨rfl, rfl, by omega, hnext⟩, fun _ _ _ => .inr ⟨h + 1, by omega, Nat.le_refl _, hnext⟩,
      ?_, ?_⟩
    · rintro n ⟨⟩
    · rintro n ⟨⟩
  · exact ⟨_, _, _, moved_silent hs (by rintro n ⟨⟩) fun _ _ _ => trivial⟩

/-- One access of one thread. -/
theorem exec_moved {d : Prop} (hs : Shape q linked h k) (hok : pc.Ok linked h k d)
    (hnew : ∀ n, pc.pending = some n → n ∉ linked) (spurious : Bool) :
    ∃ linked' h' k', Moved pc d linked h k (q.exec spurious pc) linked' h' k' := by
  have hlt := hs.lt
  have hle := hs.le
  match pc with
  | .idle => exact ⟨_, _, _, moved_silent hs (fun _ hn => hn) fun _ _ _ => trivial⟩
  | .addTail node =>
    exact ⟨_, _, _, moved_silent hs (fun _ hn => hn) fun _ _ _ => ⟨k, Nat.le_refl _, hs.tail⟩⟩
  | .addNext node last =>
    obtain ⟨i, hi, hlast⟩ := hok
    match last with
    | none =>
      have := List.getElem?_eq_none_iff.mp hlast.symm
      omega
    | some l =>
      refine ⟨_, _, _, moved_silent hs (fun _ hn => hn) fun _ _ _ => ⟨⟨i, hi, hlast⟩, ?_⟩⟩
      rw [hs.list.next_eq hlast.symm]
      by_cases hend : i + 1 < linked.length
      · exact .inr ⟨i, hend, hlast, rfl⟩
      · exact .inl (List.getElem?_eq_none (by omega))
  | .addCheck node last next =>
    simp only [Queue.exec]
    split
    · split
      · exact ⟨_, _, _, moved_silent hs (fun _ hn => hn) fun _ _ _ => hok.1⟩
      · next hne => exact ⟨_, _, _, moved_silent hs (fun _ hn => hn) fun _ _ _ => hok.2.resolve_left hne⟩
    · exact ⟨_, _, _, moved_silent hs (fun _ hn => hn) fun _ _ _ => trivial⟩
  | .addLink node last =>
    obtain ⟨i, hi, hlast⟩ := hok
    match last with
    | none =>
      have := List.getElem?_eq_none_iff.mp hlast.symm
      omega
    | some l => exact moved_link hs hi hlast (hnew node rfl) spurious
  | .addSwing node last => exact moved_swingTail hs hok (by rintro n ⟨⟩) fun _ _ => trivial
  | .addHelp node last next => exact moved_swingTail hs hok (fun _ hn => hn) fun _ _ => trivial
  | .addDone => exact ⟨_, _, _, moved_silent hs (fun _ hn => hn) fun _ _ _ => trivial⟩
  | .nextHead =>
    exact ⟨_, _, _, moved_silent hs (by rintro n ⟨⟩) fun _ _ _ => ⟨h, Nat.le_refl _, hs.head⟩⟩
  | .nextTail first =>
    obtain ⟨i, hi, hfirst⟩ := hok
    exact ⟨_, _, _, moved_silent hs (by rintro n ⟨⟩)
      fun _ _ _ => ⟨i, hi, k, Nat.le_refl _, by omega, hfirst, hs.tail⟩⟩
  | .nextNext first last =>
    obtain ⟨i, hi, j, hj, hij, hfirst, hlast⟩ := hok
    match first with
    | none =>
      have := List.getElem?_eq_none_iff.mp hfirst.symm
      omega
    | some f =>
      refine ⟨_, _, _, moved_silent hs (by rintro n ⟨⟩) fun d' _ hnow => ⟨i, hi, j, hj, hij, hfirst, hlast, ?_⟩⟩
      rw [hs.list.next_eq hfirst.symm]
      by_cases hend : i + 1 < linked.length
      · exact .inl ⟨hend, rfl⟩
      · exact .inr ⟨by omega, List.getElem?_eq_none (by omega), hnow rfl (by omega)⟩
  | .nextCheck first last next => exact moved_check hs hok spurious
  | .nextHelp last next => exact moved_swingTail hs hok (by rintro n ⟨⟩) fun _ _ => trivial
  | .nextSwing first next => exact moved_swing hs hok spurious
  | .nextDone result =>
    exact ⟨_, _, _, moved_silent hs (by rintro n ⟨⟩) fun _ hd _ => hok.imp_left fun hnull => ⟨hnull.1, hd hnull.2⟩⟩

/-! ## All threads -/

variable {τ : Type} [DecidableEq τ] {s : State τ ν}

/-- The invariant, with the positions of `head` and `tail`. -/
structure Inv (s : State τ ν) (h k : Nat) : Prop where
  shape : Shape s.queue s.linked h k
  handed : s.handed = (s.linked.tail.take h).map some
  added : ∀ n ∈ s.linked.tail, n ∈ s.added
  pending : ∀ t n, (s.pc t).pending = some n → n ∈ s.added ∧ n ∉ s.linked
  distinct : ∀ t u n, (s.pc t).pending = some n → (s.pc u).pending = some n → t = u
  ok : ∀ t, (s.pc t).Ok s.linked h k (s.drained t = true)

omit [DecidableEq ν] [DecidableEq τ] in
theorem inv_new (dummy : ν) : Inv (State.new dummy : State τ ν) 0 0 := by
  refine ⟨⟨⟨rfl, rfl⟩, rfl, rfl, Nat.le_refl _, Nat.zero_lt_one, (by decide : 1 ≤ 2), fun _ _ => rfl⟩, rfl, ?_, ?_, ?_,
    fun _ => trivial⟩
  · rintro n ⟨⟩
  · rintro t n ⟨⟩
  · rintro t u n ⟨⟩

omit [DecidableEq τ] in
theorem isDrained_of_handed (hhanded : s.handed = (s.linked.tail.take h).map some) (hall : h + 1 = s.linked.length) :
    s.isDrained = true := by
  unfold State.isDrained
  rw [List.all_eq_true]
  intro n hn
  rw [hhanded, List.take_of_length_le (by rw [List.length_tail]; omega)]
  exact List.contains_iff_mem.mpr (List.mem_map_of_mem hn)

/-- One access of a running call. -/
theorem Inv.run (hi : Inv s h k) (t : τ) (spurious : Bool) : ∃ h' k', Inv (s.step (.run t spurious)) h' k' := by
  obtain ⟨linked', h', k', m⟩ := exec_moved hi.shape (hi.ok t) (fun n hn => (hi.pending t n hn).2) spurious
  have hlt := hi.shape.lt
  have hle := hi.shape.le
  have hstep : s.step (.run t spurious) = State.observe
      { s with
        queue := (s.queue.exec spurious (s.pc t)).1
        pc := Function.update s.pc t (s.queue.exec spurious (s.pc t)).2.1
        linked := linked'
        handed := (linked'.tail.take h').map some } :=
    congrArg State.observe (record_eq (Nat.lt_of_le_of_lt hle hlt) hi.handed m.event)
  have hpending : ∀ u n, (Function.update s.pc t (s.queue.exec spurious (s.pc t)).2.1 u).pending = some n →
      (s.pc u).pending = some n := by
    intro u n hn
    by_cases hu : u = t
    · subst hu
      rw [Function.update_self] at hn
      exact (m.pending n hn).1
    · rwa [Function.update_of_ne hu] at hn
  rw [hstep]
  refine ⟨h', k', m.shape, rfl, ?_, ?_, ?_, ?_⟩
  · intro n hn
    rcases m.mem_tail (List.ne_nil_of_length_pos (by omega)) hn with hold | hnode
    · exact hi.added n hold
    · exact (hi.pending t n hnode).1
  · intro u n hn
    obtain ⟨hadded, hnew⟩ := hi.pending u n (hpending u n hn)
    refine ⟨hadded, ?_⟩
    intro hmem
    rcases m.mem hmem with hold | hnode
    · exact hnew hold
    · -- a node is linked by its own thread, which then has nothing left to link
      have hut := hi.distinct u t n (hpending u n hn) hnode
      subst hut
      have hn' : (Function.update s.pc u (s.queue.exec spurious (s.pc u)).2.1 u).pending = some n := hn
      rw [Function.update_self] at hn'
      rw [(m.pending n hn').2] at hmem
      exact hnew hmem
  · intro u v n hu hv
    exact hi.distinct u v n (hpending u n hu) (hpending v n hv)
  · intro u
    by_cases hu : u = t
    · subst hu
      show (Function.update s.pc u (s.queue.exec spurious (s.pc u)).2.1 u).Ok linked' h' k' _
      rw [Function.update_self]
      apply m.ok
      · intro hd
        exact Bool.or_eq_true_iff.mpr (.inl hd)
      · intro hrun hall
        refine Bool.or_eq_true_iff.mpr (.inr (Bool.and_eq_true_iff.mpr ⟨?_, isDrained_of_handed (h := h') rfl hall⟩))
        show (!(Function.update s.pc u (s.queue.exec spurious (s.pc u)).2.1 u).ready) = true
        rw [Function.update_self, hrun]
        rfl
    · show (Function.update s.pc t (s.queue.exec spurious (s.pc t)).2.1 u).Ok linked' h' k' _
      rw [Function.update_of_ne hu]
      exact (hi.ok u).mono m.grow m.hle m.kle hlt hle fun hd => Bool.or_eq_true_iff.mpr (.inl hd)

/-- A call of `add`. -/
theorem Inv.add (hi : Inv s h k) (t : τ) {node : ν} (hadded : node ∉ s.added) (hlinked : node ∉ s.linked) :
    Inv (s.step (.add t node)) h k := by
  have hpending : ∀ u n, (Function.update s.pc t (.addTail node) u).pending = some n →
      u = t ∧ n = node ∨ u ≠ t ∧ (s.pc u).pending = some n := by
    intro u n hn
    by_cases hu : u = t
    · rw [hu, Function.update_self] at hn
      cases hn
      exact .inl ⟨hu, rfl⟩
    · rw [Function.update_of_ne hu] at hn
      exact .inr ⟨hu, hn⟩
  refine ⟨hi.shape, hi.handed, ?_, ?_, ?_, ?_⟩
  · intro n hn
    exact List.mem_append_left _ (hi.added n hn)
  · intro u n hn
    rcases hpending u n hn with ⟨_, rfl⟩ | ⟨_, hn⟩
    · exact ⟨List.mem_append_right _ (List.mem_singleton.mpr rfl), hlinked⟩
    · exact ⟨List.mem_append_left _ (hi.pending u n hn).1, (hi.pending u n hn).2⟩
  · intro u v n hu hv
    rcases hpending u n hu with ⟨rfl, rfl⟩ | ⟨_, hu'⟩
    · rcases hpending v n hv with ⟨rfl, _⟩ | ⟨_, hv'⟩
      · rfl
      · exact absurd (hi.pending v n hv').1 hadded
    · rcases hpending v n hv with ⟨_, rfl⟩ | ⟨_, hv'⟩
      · exact absurd (hi.pending u n hu').1 hadded
      · exact hi.distinct u v n hu' hv'
  · intro u
    show (Function.update s.pc t (.addTail node) u).Ok s.linked h k _
    by_cases hu : u = t
    · rw [hu, Function.update_self]
      trivial
    · rw [Function.update_of_ne hu]
      exact (hi.ok u).mono (List.prefix_refl _) (Nat.le_refl _) (Nat.le_refl _) hi.shape.lt hi.shape.le
        fun hd => Bool.or_eq_true_iff.mpr (.inl hd)

/-- A call of `nextElement`. -/
theorem Inv.nextElement (hi : Inv s h k) (t : τ) : Inv (s.step (.nextElement t)) h k := by
  have hpending : ∀ u n, (Function.update s.pc t .nextHead u).pending = some n → (s.pc u).pending = some n := by
    intro u n hn
    by_cases hu : u = t
    · rw [hu, Function.update_self] at hn
      cases hn
    · rwa [Function.update_of_ne hu] at hn
  refine ⟨hi.shape, hi.handed, hi.added, fun u n hn => hi.pending u n (hpending u n hn),
    fun u v n hu hv => hi.distinct u v n (hpending u n hu) (hpending v n hv), ?_⟩
  intro u
  show (Function.update s.pc t .nextHead u).Ok s.linked h k _
  by_cases hu : u = t
  · rw [hu, Function.update_self]
    trivial
  · rw [Function.update_of_ne hu]
    apply (hi.ok u).mono (List.prefix_refl _) (Nat.le_refl _) (Nat.le_refl _) hi.shape.lt hi.shape.le
    intro hd
    refine Bool.or_eq_true_iff.mpr (.inl ?_)
    show Function.update s.drained t false u = true
    rwa [Function.update_of_ne hu]

/-- The invariant holds along every interleaving. -/
theorem inv_of_reachable (hr : Reachable (system τ ν) s) : ∃ h k, Inv s h k := by
  apply hr.invariant
  · rintro s ⟨dummy, rfl⟩
    exact ⟨0, 0, inv_new dummy⟩
  · rintro s i _ ⟨h, k, hi⟩ hperm
    match i, hperm with
    | .add t node, ⟨_, hadded, hlinked⟩ => exact ⟨h, k, hi.add t hadded hlinked⟩
    | .nextElement t, _ => exact ⟨h, k, hi.nextElement t⟩
    | .run t spurious, _ => exact hi.run t spurious

/-! ## First in, first out -/

/-- No step takes a node out of the list. -/
theorem linked_prefix_step (s : State τ ν) (i : Label τ ν) : s.linked <+: (s.step i).linked := by
  match i with
  | .add _ _ => exact List.prefix_refl _
  | .nextElement _ => exact List.prefix_refl _
  | .run t spurious =>
    show s.linked <+: (s.step (.run t spurious)).linked
    rw [step_run_linked]
    split
    · exact List.prefix_append _ _
    · exact List.prefix_refl _

theorem linked_prefix_run (is : List (Label τ ν)) : ∀ s : State τ ν, s.linked <+: ((system τ ν).run s is).linked := by
  induction is with
  | nil => exact fun s => List.prefix_refl _
  | cons i is ih => exact fun s => (linked_prefix_step s i).trans (ih (s.step i))

/-- A call returns the node of its head swing, or null. -/
theorem exec_nextDone {spurious : Bool} {r : Option ν} (hpc : (q.exec spurious pc).2.1 = .nextDone r)
    (hrun : pc.ready = false) : r = none ∨ (q.exec spurious pc).2.2 = .handed r := by
  match pc, hrun with
  | .nextSwing _ _, _ =>
    simp only [Queue.exec] at hpc ⊢
    split at hpc
    · next hcas =>
      cases hpc
      rw [if_pos hcas]
      exact .inr rfl
    · cases hpc
  | .nextCheck _ _ _, _ =>
    simp only [Queue.exec] at hpc
    split at hpc
    · split at hpc
      · split at hpc
        · cases hpc
          exact .inl rfl
        · cases hpc
      · cases hpc
    · cases hpc
  | .addCheck _ _ _, _ =>
    simp only [Queue.exec] at hpc
    split at hpc
    · split at hpc <;> cases hpc
    · cases hpc
  | .addLink _ (some _), _ =>
    simp only [Queue.exec] at hpc
    split at hpc <;> cases hpc
  | .addNext _ (some _), _ => cases hpc
  | .nextNext (some _) _, _ => cases hpc

/-- What the queue promises. -/
structure Fifo (s : State τ ν) : Prop where
  /-- The nodes reachable from `head` form a finite list without cycle, which contains `tail`. -/
  reachable : ∃ l, IsList s.queue.next s.queue.head l ∧ l.Nodup ∧ ∃ n ∈ l, s.queue.tail = some n
  /-- A node that is linked behind the head node stays linked. -/
  linked : IsList s.queue.next (some s.queue.headNode) s.linked
  stays : ∀ is, s.linked <+: ((system τ ν).run s is).linked
  /-- Nodes are handed out in the order of their links, each once, and only nodes that were added. -/
  order : s.handed = (s.linked.tail.take s.handed.length).map some
  once : s.handed.Nodup
  added : ∀ r ∈ s.handed, ∃ n ∈ s.added, r = some n
  /-- A call returns a node only by handing it out. -/
  result : ∀ t spurious n, (s.pc t).ready = false → (s.step (.run t spurious)).pc t = .nextDone (some n) →
    (s.step (.run t spurious)).handed = s.handed ++ [some n]
  /-- What a call returns was handed out, or the queue was drained at some moment during the call. -/
  returned : ∀ t r, s.pc t = .nextDone r → r ∈ s.handed ∧ r ≠ none ∨ r = none ∧ s.drained t = true

theorem fifo (hr : Reachable (system τ ν) s) : Fifo s := by
  obtain ⟨h, k, hi⟩ := inv_of_reachable hr
  have hlt := hi.shape.lt
  have hle := hi.shape.le
  have hlen : s.handed.length = h := by
    rw [hi.handed, List.length_map, List.length_take, List.length_tail]
    omega
  have htail : s.queue.tail = some s.linked[k] := by rw [hi.shape.tail, List.getElem?_eq_getElem hlt]
  refine ⟨⟨s.linked.drop h, ?_, ?_, s.linked[k], ?_, htail⟩, hi.shape.list, fun is => linked_prefix_run is s, ?_, ?_,
    ?_, ?_, ?_⟩
  · rw [hi.shape.head]
    exact hi.shape.list.drop h
  · exact (List.drop_sublist h _).nodup hi.shape.list.nodup
  · rw [List.mem_iff_getElem?]
    refine ⟨k - h, ?_⟩
    rw [List.getElem?_drop, Nat.add_sub_cancel' hle, List.getElem?_eq_getElem hlt]
  · rw [hlen]
    exact hi.handed
  · rw [hi.handed]
    have hsub : (s.linked.tail.take h).Sublist s.linked := (List.take_sublist _ _).trans (List.tail_sublist _)
    exact (hsub.nodup hi.shape.list.nodup).map fun _ _ heq => Option.some.inj heq
  · intro r hmem
    rw [hi.handed, List.mem_map] at hmem
    obtain ⟨n, hn, rfl⟩ := hmem
    exact ⟨n, hi.added n (List.mem_of_mem_take hn), rfl⟩
  · intro t spurious n hrun hpc
    rw [step_run_self] at hpc
    rw [step_run_handed, (exec_nextDone hpc hrun).resolve_left (by rintro ⟨⟩)]
  · intro t r hpc
    have hok := hi.ok t
    rw [hpc] at hok
    rcases hok with ⟨hnull, hdr⟩ | ⟨i, hpos, hih, hres⟩
    · exact .inr ⟨hnull, hdr⟩
    · have hin : i < s.linked.length := by omega
      rw [List.getElem?_eq_getElem hin] at hres
      refine .inl ⟨?_, by rw [hres]; simp⟩
      rw [hi.handed, hres, List.mem_map]
      refine ⟨_, ?_, rfl⟩
      rw [List.mem_take_iff_getElem]
      refine ⟨i - 1, ?_, ?_⟩
      · rw [List.length_tail]
        omega
      · rw [List.getElem_tail]
        congr 1
        omega

/-- Two threads on a queue with head node 0: thread 0 links node 1 and loses its last swing, thread 1 helps `tail`
forward and obtains the node. -/
def helped : List (Label (Fin 2) Nat) :=
  [.add 0 1, .nextElement 1, .run 1 false, .run 0 false, .run 0 false, .run 0 false, .run 0 false, .run 1 false,
    .run 1 false, .run 0 true, .run 1 false, .run 1 false, .run 1 false, .run 1 false, .run 1 false, .run 1 false,
    .run 1 false]

/-- The queue's promise after this interleaving, in which node 1 has been returned. -/
theorem fifo_helped : Fifo ((system (Fin 2) Nat).run (State.new 0) helped) ∧
    ((system (Fin 2) Nat).run (State.new 0) helped).handed = [some 1] := by
  refine ⟨fifo (Reachable.run (.init ⟨0, rfl⟩) ?_), ?_⟩
  · decide +kernel
  · decide +kernel

end SdbFpga.Exec
