import Mathlib.Data.List.Nodup
import Mathlib.Logic.Function.Basic
import Mathlib.Tactic.Common

/-!
# Linked lists in a memory of `next` pointers

* `IsList next p l` : following `next` from pointer `p` visits exactly the nodes of `l` and ends in a null pointer;
* `isList_iff` : the same by position, `IsList.drop` : from a node of the list;
* `IsList.unique`, `IsList.nodup` : the list is determined by its pointer and has no cycle;
* `IsList.snoc` : linking one more node behind the last one.
-/

namespace LinkedList

universe u
variable {ν : Type u} {next : ν → Option ν} {p : Option ν} {l : List ν}

/-- The nodes on the way from `p` to null. -/
def IsList (next : ν → Option ν) : Option ν → List ν → Prop
  | p, [] => p = none
  | p, n :: l => p = some n ∧ IsList next (next n) l

theorem isList_iff : IsList next p l ↔ p = l[0]? ∧ ∀ i n, l[i]? = some n → next n = l[i + 1]? := by
  induction l generalizing p with
  | nil => simp [IsList]
  | cons m l ih =>
    rw [IsList, ih]
    constructor
    · rintro ⟨hp, hm, hrest⟩
      refine ⟨hp, ?_⟩
      intro i n hi
      cases i with
      | zero =>
        rw [List.getElem?_cons_zero, Option.some.injEq] at hi
        rw [← hi]
        exact hm
      | succ i => exact hrest i n hi
    · rintro ⟨hp, hall⟩
      exact ⟨hp, hall 0 m rfl, fun i n hi => hall (i + 1) n hi⟩

theorem IsList.next_eq (h : IsList next p l) {i : Nat} {n : ν} (hi : l[i]? = some n) : next n = l[i + 1]? :=
  (isList_iff.mp h).2 i n hi

theorem IsList.drop (h : IsList next p l) (i : Nat) : IsList next l[i]? (l.drop i) := by
  rw [isList_iff] at h ⊢
  constructor
  · rw [List.getElem?_drop, Nat.add_zero]
  · intro j n hj
    rw [List.getElem?_drop] at hj ⊢
    exact h.2 (i + j) n hj

theorem IsList.unique {l' : List ν} (h : IsList next p l) (h' : IsList next p l') : l = l' := by
  induction l generalizing p l' with
  | nil =>
    cases l' with
    | nil => rfl
    | cons n l' =>
      rw [IsList] at h
      rw [h] at h'
      cases h'.1
  | cons m l ih =>
    cases l' with
    | nil =>
      rw [IsList] at h'
      rw [h'] at h
      cases h.1
    | cons n l' =>
      have hmn : m = n := by
        have := h.1.symm.trans h'.1
        rwa [Option.some.injEq] at this
      subst hmn
      rw [ih h.2 h'.2]

/-- There is no way back to a node. -/
theorem IsList.nodup (h : IsList next p l) : l.Nodup := by
  induction l generalizing p with
  | nil => exact List.nodup_nil
  | cons m l ih =>
    rw [List.nodup_cons]
    refine ⟨?_, ih h.2⟩
    intro hmem
    obtain ⟨i, hi, hget⟩ := List.getElem_of_mem hmem
    have hsome : l[i]? = some m := by rw [List.getElem?_eq_getElem hi, hget]
    have hback : IsList next (some m) (l.drop i) := by
      rw [← hsome]
      exact h.2.drop i
    have heq : m :: l = l.drop i := by
      apply IsList.unique (p := some m) _ hback
      exact ⟨rfl, h.2⟩
    have hlen := congrArg List.length heq
    rw [List.length_cons, List.length_drop] at hlen
    omega

theorem IsList.getElem?_inj (h : IsList next p l) {i j : Nat} (hi : i < l.length) (hij : l[i]? = l[j]?) : i = j :=
  (List.getElem?_inj hi h.nodup).mp hij

/-- One more node behind the last one. -/
theorem IsList.snoc [DecidableEq ν] (h : IsList next p l) {last new : ν} (hlast : l[l.length - 1]? = some last)
    (hnew : new ∉ l) (hfree : next new = none) : IsList (Function.update next last (some new)) p (l ++ [new]) := by
  have hpos : 0 < l.length := by
    have := (List.getElem?_eq_some_iff.mp hlast).1
    omega
  have hmem : last ∈ l := List.mem_of_getElem? hlast
  rw [isList_iff]
  constructor
  · rw [List.getElem?_append_left hpos]
    exact (isList_iff.mp h).1
  · intro i n hi
    rcases Nat.lt_trichotomy i (l.length - 1) with hlt | heq | hgt
    · rw [List.getElem?_append_left (by omega)] at hi
      have hne : n ≠ last := by
        rintro rfl
        have := h.getElem?_inj (by omega) (hi.trans hlast.symm)
        omega
      rw [Function.update_of_ne hne, List.getElem?_append_left (by omega)]
      exact h.next_eq hi
    · subst heq
      rw [List.getElem?_append_left (by omega), hlast, Option.some.injEq] at hi
      have hidx : l.length - 1 + 1 = l.length := by omega
      rw [← hi, Function.update_self, hidx, List.getElem?_concat_length]
    · have hlen : (l ++ [new]).length = l.length + 1 := List.length_append
      rcases Nat.lt_or_ge i (l.length + 1) with hle | hge
      · have hidx : i = l.length := by omega
        subst hidx
        rw [List.getElem?_concat_length, Option.some.injEq] at hi
        have hne : n ≠ last := by
          rintro rfl
          rw [hi] at hnew
          exact hnew hmem
        rw [Function.update_of_ne hne, ← hi, hfree, List.getElem?_eq_none (Nat.le_of_eq hlen)]
      · rw [List.getElem?_eq_none (hlen.symm ▸ hge)] at hi
        cases hi

end LinkedList
