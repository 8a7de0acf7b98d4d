import SdbFpga.Lib.LinkedList
import SdbFpga.Lib.Transition

/-!
# `WorkQueue`: one atomic access at a time

`add` and `nextElement` are cut at their atomic loads and compare-and-swaps; between two of them a thread only moves
its local variables, which the program counter carries.

* `Queue` : `head`, `tail` and the `next` pointers of all nodes;
* `Queue.exec` : one access of one thread; a weak compare-and-swap may fail spuriously;
* `State` : any number of threads on one queue, with the history of links and results;
* `system` : all interleavings.
-/

namespace SdbFpga.Exec
open Transition

/-- `WorkQueue` and the memory of its nodes. -/
structure Queue (ν : Type) where
  headNode : ν
  head : Option ν
  tail : Option ν
  next : ν → Option ν

/-- Where a thread is, with the locals of the source still in use: `last`, `next`, `first`. -/
inductive Pc (ν : Type)
  | idle
  | addTail (node : ν)
  | addNext (node : ν) (last : Option ν)
  | addCheck (node : ν) (last next : Option ν)
  | addLink (node : ν) (last : Option ν)
  | addSwing (node : ν) (last : Option ν)
  | addHelp (node : ν) (last next : Option ν)
  | addDone
  | nextHead
  | nextTail (first : Option ν)
  | nextNext (first last : Option ν)
  | nextCheck (first last next : Option ν)
  | nextHelp (last next : Option ν)
  | nextSwing (first next : Option ν)
  | nextDone (result : Option ν)
  | fault
  deriving DecidableEq, Repr

/-- No call is running. -/
def Pc.ready {ν : Type} : Pc ν → Bool
  | .idle => true
  | .addDone => true
  | .nextDone _ => true
  | _ => false

/-- The node an `add` has yet to link. -/
def Pc.pending {ν : Type} : Pc ν → Option ν
  | .addTail node => some node
  | .addNext node _ => some node
  | .addCheck node _ _ => some node
  | .addLink node _ => some node
  | .addHelp node _ _ => some node
  | _ => none

/-- What an access means for the queue: a node is linked, or `head` is swung to a node. -/
inductive Event (ν : Type)
  | silent
  | linked (node : ν)
  | handed (result : Option ν)
  deriving DecidableEq, Repr

section Source
variable {ν : Type} [DecidableEq ν]

/-- The constructor; `dummy` is the new head node. -/
def Queue.new (dummy : ν) : Queue ν where
  headNode := dummy
  head := some dummy
  tail := some dummy
  next := fun _ => none

/-- `isNotEmpty`. -/
def Queue.isNotEmpty (q : Queue ν) : Bool := q.head ≠ q.tail

/-- `tail.compare_exchange_weak(expected, desired)`. -/
def Queue.swingTail (q : Queue ν) (spurious : Bool) (expected desired : Option ν) : Queue ν :=
  if spurious = false ∧ q.tail = expected then { q with tail := desired } else q

/-- The next atomic access of a thread. A null pointer that is followed is a fault. -/
def Queue.exec (q : Queue ν) (spurious : Bool) : Pc ν → Queue ν × Pc ν × Event ν
  | .idle => (q, .idle, .silent)
  | .addTail node => (q, .addNext node q.tail, .silent)
  | .addNext node last =>
    match last with
    | some l => (q, .addCheck node last (q.next l), .silent)
    | none => (q, .fault, .silent)
  | .addCheck node last next =>
    if last = q.tail then
      if next = none then (q, .addLink node last, .silent) else (q, .addHelp node last next, .silent)
    else (q, .addTail node, .silent)
  | .addLink node last =>
    match last with
    | some l =>
      if spurious = false ∧ q.next l = none then
        ({ q with next := Function.update q.next l (some node) }, .addSwing node last, .linked node)
      else (q, .addTail node, .silent)
    | none => (q, .fault, .silent)
  | .addSwing node last => (q.swingTail spurious last (some node), .addDone, .silent)
  | .addHelp node last next => (q.swingTail spurious last next, .addTail node, .silent)
  | .addDone => (q, .addDone, .silent)
  | .nextHead => (q, .nextTail q.head, .silent)
  | .nextTail first => (q, .nextNext first q.tail, .silent)
  | .nextNext first last =>
    match first with
    | some f => (q, .nextCheck first last (q.next f), .silent)
    | none => (q, .fault, .silent)
  | .nextCheck first last next =>
    if first = q.head then
      if first = last then
        if next = none then (q, .nextDone none, .silent) else (q, .nextHelp last next, .silent)
      else (q, .nextSwing first next, .silent)
    else (q, .nextHead, .silent)
  | .nextHelp last next => (q.swingTail spurious last next, .nextHead, .silent)
  | .nextSwing first next =>
    if spurious = false ∧ q.head = first then ({ q with head := next }, .nextDone next, .handed next)
    else (q, .nextHead, .silent)
  | .nextDone result => (q, .nextDone result, .silent)
  | .fault => (q, .fault, .silent)

end Source

/-! ## Threads -/

/-- Threads `τ` on one queue. The last four fields are history: the nodes in the order of their links, the nodes given
to `add`, the results in the order of the head swings, and for every thread whether the queue has been without an
unreturned node at some moment since its call of `nextElement`. -/
structure State (τ ν : Type) where
  queue : Queue ν
  pc : τ → Pc ν
  linked : List ν
  added : List ν
  handed : List (Option ν)
  drained : τ → Bool

/-- A call, or one access of a running call. -/
inductive Label (τ ν : Type)
  | add (t : τ) (node : ν)
  | nextElement (t : τ)
  | run (t : τ) (spurious : Bool)
  deriving DecidableEq, Repr

section Threads
variable {τ ν : Type} [DecidableEq τ] [DecidableEq ν]

/-- A new queue. -/
def State.new (dummy : ν) : State τ ν where
  queue := .new dummy
  pc := fun _ => .idle
  linked := [dummy]
  added := []
  handed := []
  drained := fun _ => false

/-- Every node linked behind the head node has been handed out. -/
def State.isDrained (s : State τ ν) : Bool := s.linked.tail.all fun n => s.handed.contains (some n)

/-- The running calls take note of a drained queue. -/
def State.observe (s : State τ ν) : State τ ν :=
  { s with drained := fun t => s.drained t || (!(s.pc t).ready && s.isDrained) }

/-- The history after an access. -/
def State.record (s : State τ ν) : Event ν → State τ ν
  | .silent => s
  | .linked node => { s with linked := s.linked ++ [node] }
  | .handed result => { s with handed := s.handed ++ [result] }

/-- One step of the threads. -/
def State.step (s : State τ ν) : Label τ ν → State τ ν
  | .add t node =>
    State.observe { s with pc := Function.update s.pc t (.addTail node), added := s.added ++ [node] }
  | .nextElement t =>
    State.observe { s with pc := Function.update s.pc t .nextHead, drained := Function.update s.drained t false }
  | .run t spurious =>
    let r := s.queue.exec spurious (s.pc t)
    State.observe (State.record { s with queue := r.1, pc := Function.update s.pc t r.2.1 } r.2.2)

/-! The fields after an access. -/

omit [DecidableEq τ] [DecidableEq ν] in
theorem record_queue (s : State τ ν) (e : Event ν) : (s.record e).queue = s.queue := by
  cases e <;> rfl

omit [DecidableEq τ] [DecidableEq ν] in
theorem record_pc (s : State τ ν) (e : Event ν) : (s.record e).pc = s.pc := by
  cases e <;> rfl

omit [DecidableEq τ] [DecidableEq ν] in
theorem record_added (s : State τ ν) (e : Event ν) : (s.record e).added = s.added := by
  cases e <;> rfl

section Access
variable (s : State τ ν) (t : τ) (spurious : Bool)

theorem step_run_queue : (s.step (.run t spurious)).queue = (s.queue.exec spurious (s.pc t)).1 := by
  show (State.record _ _).queue = _
  rw [record_queue]

theorem step_run_self : (s.step (.run t spurious)).pc t = (s.queue.exec spurious (s.pc t)).2.1 := by
  show (State.record _ _).pc t = _
  rw [record_pc]
  exact Function.update_self _ _ _

theorem step_run_other {u : τ} (hu : u ≠ t) : (s.step (.run t spurious)).pc u = s.pc u := by
  show (State.record _ _).pc u = _
  rw [record_pc]
  exact Function.update_of_ne hu _ _

theorem step_run_added : (s.step (.run t spurious)).added = s.added := by
  show (State.record _ _).added = _
  rw [record_added]

/-- The list and the results, by what the access meant. -/
theorem step_run_linked : (s.step (.run t spurious)).linked =
    match (s.queue.exec spurious (s.pc t)).2.2 with
    | .linked node => s.linked ++ [node]
    | _ => s.linked := by
  show (State.record _ (s.queue.exec spurious (s.pc t)).2.2).linked = _
  cases (s.queue.exec spurious (s.pc t)).2.2 <;> rfl

theorem step_run_handed : (s.step (.run t spurious)).handed =
    match (s.queue.exec spurious (s.pc t)).2.2 with
    | .handed result => s.handed ++ [result]
    | _ => s.handed := by
  show (State.record _ (s.queue.exec spurious (s.pc t)).2.2).handed = _
  cases (s.queue.exec spurious (s.pc t)).2.2 <;> rfl

end Access

/-- Calls begin where no call is running; a node given to `add` is new. -/
def State.Permits (s : State τ ν) : Label τ ν → Prop
  | .add t node => (s.pc t).ready = true ∧ node ∉ s.added ∧ node ∉ s.linked
  | .nextElement t => (s.pc t).ready = true
  | .run t _ => (s.pc t).ready = false

instance (s : State τ ν) (i : Label τ ν) : Decidable (s.Permits i) :=
  match i with
  | .add t node => inferInstanceAs (Decidable ((s.pc t).ready = true ∧ node ∉ s.added ∧ node ∉ s.linked))
  | .nextElement t => inferInstanceAs (Decidable ((s.pc t).ready = true))
  | .run t _ => inferInstanceAs (Decidable ((s.pc t).ready = false))

/-- All interleavings of `add` and `nextElement` calls. -/
def system (τ ν : Type) [DecidableEq τ] [DecidableEq ν] : System (State τ ν) (Label τ ν) where
  init := fun s => ∃ dummy, s = State.new dummy
  permits := State.Permits
  step := State.step

instance (s : State τ ν) (i : Label τ ν) : Decidable ((system τ ν).permits s i) :=
  inferInstanceAs (Decidable (s.Permits i))

end Threads

end SdbFpga.Exec
