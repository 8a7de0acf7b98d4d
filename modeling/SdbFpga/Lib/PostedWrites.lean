import Mathlib.Data.List.Perm.Basic
import Mathlib.Logic.Function.Basic
import Mathlib.Tactic.Common
import SdbFpga.Lib.Transition

/-!
# A memory with posted writes

A device posts writes and the memory performs each of them later, in any order; another agent writes at once.

* `Memory` : the contents, the posted writes on their way and the ones performed;
* `post`, `perform`, `write` : the three operations;
* `Issued` : a write was posted, `issued_post`, `issued_perform` : and stays so;
* `Settled` : where a write was performed, memory holds the value of some performed write;
* `Settled.mem_eq` : a write whose address nobody else uses is in memory once nothing for the address is on its way;
* `mem_perform` : a performed write changes only its own address;
* `Device`, `Device.withMemory` : a transition system that reads from such a memory and posts writes to it;
* `mem_of_posted`, `mem_of_fetched` : what a run of the two leaves in memory.
-/

namespace PostedWrites
open Transition

universe u v w x
variable {α : Type u} {β : Type v}

/-- A memory in front of which posted writes wait. -/
structure Memory (α : Type u) (β : Type v) where
  mem : α → β
  pending : List (α × β)
  performed : List (α × β)

/-- The contents `mem`, and no write posted. -/
def Memory.new (mem : α → β) : Memory α β := ⟨mem, [], []⟩

/-- A write is posted, if there is one. -/
def Memory.post (m : Memory α β) (o : Option (α × β)) : Memory α β := { m with pending := m.pending ++ o.toList }

section Operations
variable [DecidableEq α]

/-- The posted write at position `i` is performed. -/
def Memory.perform (m : Memory α β) (i : Nat) : Memory α β :=
  match m.pending[i]? with
  | some e => ⟨Function.update m.mem e.1 e.2, m.pending.eraseIdx i, m.performed ++ [e]⟩
  | none => m

/-- Another agent writes. -/
def Memory.write (m : Memory α β) (a : α) (v : β) : Memory α β := { m with mem := Function.update m.mem a v }

end Operations

/-- `e` was posted. -/
def Memory.Issued (m : Memory α β) (e : α × β) : Prop := e ∈ m.performed ∨ e ∈ m.pending

/-- Where a write was performed, memory holds the value of a performed write. -/
def Memory.Settled (m : Memory α β) : Prop := ∀ e ∈ m.performed, (e.1, m.mem e.1) ∈ m.performed

variable {m : Memory α β} {e : α × β}

theorem issued_post {o : Option (α × β)} : (m.post o).Issued e ↔ m.Issued e ∨ o = some e := by
  unfold Memory.Issued Memory.post
  rw [List.mem_append, Option.mem_toList, or_assoc]

theorem settled_post (h : m.Settled) (o : Option (α × β)) : (m.post o).Settled := h

theorem settled_new (mem : α → β) : (Memory.new mem).Settled := by
  rintro e ⟨⟩

variable [DecidableEq α]

theorem issued_perform {i : Nat} : (m.perform i).Issued e ↔ m.Issued e := by
  unfold Memory.perform
  split
  · next e' he =>
    unfold Memory.Issued
    obtain ⟨hlt, rfl⟩ := List.getElem?_eq_some_iff.mp he
    have hmem : e ∈ m.pending ↔ e = m.pending[i] ∨ e ∈ m.pending.eraseIdx i := by
      rw [← (List.getElem_cons_eraseIdx_perm hlt).mem_iff, List.mem_cons]
    simp only [List.mem_append, List.mem_singleton]
    rw [hmem, or_assoc]
  · exact Iff.rfl

theorem mem_pending_perform {i : Nat} (he : e ∈ (m.perform i).pending) : e ∈ m.pending := by
  unfold Memory.perform at he
  split at he
  · exact List.mem_of_mem_eraseIdx he
  · exact he

theorem mem_performed_perform {i : Nat} (he : e ∈ m.performed) : e ∈ (m.perform i).performed := by
  unfold Memory.perform
  split
  · exact List.mem_append_left _ he
  · exact he

/-- An address keeps its contents or is the one of a performed write. -/
theorem mem_perform (m : Memory α β) (i : Nat) (a : α) :
    (m.perform i).mem a = m.mem a ∨ ∃ e ∈ (m.perform i).performed, e.1 = a := by
  unfold Memory.perform
  split
  · next e _ =>
    by_cases ha : a = e.1
    · exact .inr ⟨e, List.mem_append_right _ (List.mem_singleton.mpr rfl), ha.symm⟩
    · exact .inl (Function.update_of_ne ha _ _)
  · exact .inl rfl

theorem settled_perform (h : m.Settled) (i : Nat) : (m.perform i).Settled := by
  unfold Memory.perform
  split
  · next e' _ =>
    intro e he
    show (e.1, Function.update m.mem e'.1 e'.2 e.1) ∈ m.performed ++ [e']
    by_cases heq : e.1 = e'.1
    · rw [heq, Function.update_self]
      exact List.mem_append_right _ (List.mem_singleton.mpr rfl)
    · rw [Function.update_of_ne heq]
      refine List.mem_append_left _ (h e ?_)
      rw [List.mem_append, List.mem_singleton] at he
      rcases he with hold | rfl
      · exact hold
      · exact absurd rfl heq
  · exact h

/-- Another agent that keeps off the performed writes. -/
theorem settled_write (h : m.Settled) {a : α} (v : β) (ha : ∀ e ∈ m.performed, e.1 ≠ a) : (m.write a v).Settled := by
  intro e he
  show (e.1, Function.update m.mem a v e.1) ∈ m.performed
  rw [Function.update_of_ne (ha e he)]
  exact h e he

omit [DecidableEq α] in
/-- Nothing for its address is on the way, and nobody else uses it: the write is in memory. -/
theorem Memory.Settled.mem_eq (h : m.Settled) (he : m.Issued e) (hdone : ∀ e' ∈ m.pending, e'.1 ≠ e.1)
    (hown : ∀ e', m.Issued e' → e'.1 = e.1 → e' = e) : m.mem e.1 = e.2 := by
  have hperformed : e ∈ m.performed := by
    rcases he with hp | hp
    · exact hp
    · exact absurd rfl (hdone e hp)
  have heq := hown _ (.inl (h e hperformed)) rfl
  exact congrArg Prod.snd heq

/-! ## Devices -/

/-- A transition system whose steps fetch values from a memory and post writes to it. -/
structure Device (σ : Type w) (ι : Type x) (α : Type u) (β : Type v) extends System σ ι where
  /-- the write a step posts -/
  posts : σ → ι → Option (α × β)
  /-- what the memory keeps to when it answers in a step -/
  answers : σ → ι → Memory α β → Prop
  /-- the writes posted so far -/
  Posted : σ → α × β → Prop
  /-- a value was fetched from an address -/
  Fetched : σ → α → β → Prop
  /-- addresses that other agents leave alone -/
  Uses : σ → α → Prop

/-- What the records of a device have to do with its steps. -/
structure Device.Lawful {σ : Type w} {ι : Type x} (D : Device σ ι α β) : Prop where
  posted_init : ∀ s, D.init s → ∀ e, ¬ D.Posted s e
  posted_step : ∀ s i, Reachable D.toSystem s → D.permits s i → ∀ e,
    D.Posted (D.step s i) e ↔ D.Posted s e ∨ D.posts s i = some e
  posted_uses : ∀ s, Reachable D.toSystem s → ∀ e, D.Posted s e → D.Uses s e.1
  fetched_init : ∀ s, D.init s → ∀ a v, ¬ D.Fetched s a v
  fetched_step : ∀ s i m, Reachable D.toSystem s → D.permits s i → D.answers s i m → ∀ a v,
    D.Fetched (D.step s i) a v → D.Fetched s a v ∨ m.mem a = v
  fetched_uses : ∀ s, Reachable D.toSystem s → ∀ a v, D.Fetched s a v → D.Uses s a

/-- A device and its memory. -/
structure Attached (σ : Type w) (α : Type u) (β : Type v) where
  dev : σ
  host : Memory α β

/-- A step of the device, the delivery of a posted write, or a write of another agent. -/
inductive AttachedLabel (ι : Type x) (α : Type u) (β : Type v)
  | step (i : ι)
  | perform (n : Nat)
  | write (a : α) (v : β)

section Attached
variable {σ : Type w} {ι : Type x} {D : Device σ ι α β} {s : Attached σ α β}

/-- One label. -/
def Device.attachedStep (D : Device σ ι α β) (s : Attached σ α β) : AttachedLabel ι α β → Attached σ α β
  | .step i => { dev := D.step s.dev i, host := s.host.post (D.posts s.dev i) }
  | .perform n => { s with host := s.host.perform n }
  | .write a v => { s with host := s.host.write a v }

/-- The memory answers, performs what is on its way, and other agents keep off the addresses in use. -/
def Device.attachedPermits (D : Device σ ι α β) (s : Attached σ α β) : AttachedLabel ι α β → Prop
  | .step i => D.permits s.dev i ∧ D.answers s.dev i s.host
  | .perform n => n < s.host.pending.length
  | .write a _ => ¬ D.Uses s.dev a

instance [∀ d i, Decidable (D.permits d i)] [∀ d i m, Decidable (D.answers d i m)] [∀ d a, Decidable (D.Uses d a)]
    (s : Attached σ α β) (i : AttachedLabel ι α β) : Decidable (D.attachedPermits s i) :=
  match i with
  | .step i => inferInstanceAs (Decidable (D.permits s.dev i ∧ D.answers s.dev i s.host))
  | .perform n => inferInstanceAs (Decidable (n < s.host.pending.length))
  | .write a _ => inferInstanceAs (Decidable (¬ D.Uses s.dev a))

/-- The device in front of a memory with arbitrary contents. -/
def Device.withMemory (D : Device σ ι α β) : System (Attached σ α β) (AttachedLabel ι α β) where
  init := fun s => D.init s.dev ∧ ∃ mem, s.host = .new mem
  permits := D.attachedPermits
  step := D.attachedStep

instance [∀ d i, Decidable (D.permits d i)] [∀ d i m, Decidable (D.answers d i m)] [∀ d a, Decidable (D.Uses d a)]
    (s : Attached σ α β) (i : AttachedLabel ι α β) : Decidable (D.withMemory.permits s i) :=
  inferInstanceAs (Decidable (D.attachedPermits s i))

/-- The device runs as it does alone. -/
theorem reachable_dev (h : Reachable D.withMemory s) : Reachable D.toSystem s.dev := by
  induction h with
  | init h0 => exact .init h0.1
  | @step s i _ hp ih =>
    match i with
    | .step _ => exact ih.step hp.1
    | .perform _ => exact ih
    | .write _ _ => exact ih

/-- The invariant: the memory has been given the writes that were posted, and a fetched value is still in memory
unless a posted write hit its address. -/
structure Device.Inv (D : Device σ ι α β) (s : Attached σ α β) : Prop where
  settled : s.host.Settled
  issued : ∀ e, s.host.Issued e ↔ D.Posted s.dev e
  fetched : ∀ a v, D.Fetched s.dev a v → s.host.mem a = v ∨ ∃ e ∈ s.host.performed, e.1 = a

theorem Device.Inv.step (h : D.Inv s) (hD : D.Lawful) (hr : Reachable D.toSystem s.dev) {i : ι}
    (hp : D.permits s.dev i) (ha : D.answers s.dev i s.host) : D.Inv (D.attachedStep s (.step i)) := by
  refine ⟨settled_post h.settled _, ?_, ?_⟩
  · intro e
    show (s.host.post (D.posts s.dev i)).Issued e ↔ D.Posted (D.step s.dev i) e
    rw [issued_post, hD.posted_step s.dev i hr hp e, h.issued]
  · intro a v hv
    rcases hD.fetched_step s.dev i s.host hr hp ha a v hv with hold | hmem
    · exact h.fetched a v hold
    · exact .inl hmem

theorem Device.Inv.perform (h : D.Inv s) (n : Nat) : D.Inv (D.attachedStep s (.perform n)) := by
  refine ⟨settled_perform h.settled n, ?_, ?_⟩
  · intro e
    show (s.host.perform n).Issued e ↔ D.Posted s.dev e
    rw [issued_perform, h.issued]
  · intro a v hv
    rcases mem_perform s.host n a with hsame | hwritten
    · rcases h.fetched a v hv with hmem | ⟨e, he, ha⟩
      · exact .inl (hsame.trans hmem)
      · exact .inr ⟨e, mem_performed_perform he, ha⟩
    · exact .inr hwritten

theorem Device.Inv.write (h : D.Inv s) (hD : D.Lawful) (hr : Reachable D.toSystem s.dev) {a : α} (v : β)
    (ha : ¬ D.Uses s.dev a) : D.Inv (D.attachedStep s (.write a v)) := by
  have hposted : ∀ e ∈ s.host.performed, e.1 ≠ a := by
    rintro e he rfl
    exact ha (hD.posted_uses s.dev hr e ((h.issued e).mp (.inl he)))
  refine ⟨settled_write h.settled v hposted, h.issued, ?_⟩
  intro b u hu
  have hne : b ≠ a := by
    rintro rfl
    exact ha (hD.fetched_uses s.dev hr b u hu)
  have hsame : (s.host.write a v).mem b = s.host.mem b := Function.update_of_ne hne _ _
  rcases h.fetched b u hu with hmem | hex
  · exact .inl (hsame.trans hmem)
  · exact .inr hex

/-- The invariant holds in every run of a device with its memory. -/
theorem Device.inv_of_reachable (hD : D.Lawful) (h : Reachable D.withMemory s) : D.Inv s := by
  apply h.invariant
  · rintro ⟨dev, host⟩ ⟨hinit, mem, rfl⟩
    refine ⟨settled_new mem, ?_, ?_⟩
    · intro e
      refine iff_of_false ?_ (hD.posted_init dev hinit e)
      rintro (he | he) <;> cases he
    · exact fun a v hv => absurd hv (hD.fetched_init dev hinit a v)
  · intro s i hr hi hp
    match i with
    | .step i => exact hi.step hD (reachable_dev hr) hp.1 hp.2
    | .perform n => exact hi.perform n
    | .write a v => exact hi.write hD (reachable_dev hr) v hp

/-- A posted write with an address of its own is in memory once nothing for that address is on its way. -/
theorem mem_of_posted (hD : D.Lawful) (h : Reachable D.withMemory s) {e : α × β} (he : D.Posted s.dev e)
    (hdone : ∀ e' ∈ s.host.pending, e'.1 ≠ e.1) (hown : ∀ e', D.Posted s.dev e' → e'.1 = e.1 → e' = e) :
    s.host.mem e.1 = e.2 := by
  have hi := Device.inv_of_reachable hD h
  exact hi.settled.mem_eq ((hi.issued e).mpr he) hdone fun e' he' => hown e' ((hi.issued e').mp he')

/-- A fetched value is still in memory where no posted write went. -/
theorem mem_of_fetched (hD : D.Lawful) (h : Reachable D.withMemory s) {a : α} {v : β} (hv : D.Fetched s.dev a v)
    (hown : ∀ e, D.Posted s.dev e → e.1 ≠ a) : s.host.mem a = v := by
  have hi := Device.inv_of_reachable hD h
  rcases hi.fetched a v hv with hmem | ⟨e, he, ha⟩
  · exact hmem
  · exact absurd ha (hown e ((hi.issued e).mp (.inl he)))

end Attached

end PostedWrites
