import Mathlib.Data.Finset.Card
import Mathlib.Data.Finset.Dedup
import Mathlib.Data.Finset.Max
import Mathlib.Data.List.Nodup
import Mathlib.Tactic.Common

/-!
# Ranks in a finite set

* `rank s k` : the number of elements of `s` below `k`;
* `rank_le_iff`, `rank_eq_iff` : on the set itself ranks are ordered as the elements are;
* `exists_rank_eq` : every number below the size is a rank;
* `rank_getElem` : in a strictly ordered list the rank is the position;
* `rank_eq_rank_iff` : a subset numbers an element alike exactly if it misses no smaller one.
-/

namespace Rank

variable {K : Type} [Ord K]

/-- The number of elements of `s` below `k`. -/
def rank (s : Finset K) (k : K) : Nat := (s.filter fun x => compare x k = .lt).card

/-- A subset has no more elements below `k`. -/
theorem rank_le_rank_of_subset {t s : Finset K} (hsub : t ⊆ s) (k : K) : rank t k ≤ rank s k :=
  Finset.card_le_card (Finset.filter_subset_filter _ hsub)

/-- A subset has fewer elements below `k`, or exactly those of the larger set. -/
theorem rank_eq_rank_iff {t s : Finset K} (hsub : t ⊆ s) (k : K) :
    rank t k = rank s k ↔ ∀ x ∈ s, compare x k = .lt → x ∈ t := by
  have hfilter : t.filter (fun x => compare x k = .lt) ⊆ s.filter fun x => compare x k = .lt :=
    Finset.filter_subset_filter _ hsub
  constructor
  · intro heq x hx hlt
    have hall := Finset.eq_of_subset_of_card_le hfilter heq.ge
    have hmem : x ∈ t.filter fun x => compare x k = .lt := by
      rw [hall]
      exact Finset.mem_filter.mpr ⟨hx, hlt⟩
    exact (Finset.mem_filter.mp hmem).1
  · intro hall
    apply congrArg Finset.card
    apply hfilter.antisymm
    intro x hx
    obtain ⟨hmem, hlt⟩ := Finset.mem_filter.mp hx
    exact Finset.mem_filter.mpr ⟨hall x hmem hlt, hlt⟩

variable [Std.TransOrd K]

theorem rank_lt_card {s : Finset K} {k : K} (hk : k ∈ s) : rank s k < s.card := by
  apply Finset.card_lt_card
  refine ⟨Finset.filter_subset _ _, ?_⟩
  intro hall
  have hlt := (Finset.mem_filter.mp (hall hk)).2
  rw [Std.ReflOrd.compare_self] at hlt
  cases hlt

theorem rank_lt_rank {s : Finset K} {a b : K} (ha : a ∈ s) (hlt : compare a b = .lt) : rank s a < rank s b := by
  apply Finset.card_lt_card
  refine ⟨?_, ?_⟩
  · intro x hx
    obtain ⟨hmem, hxa⟩ := Finset.mem_filter.mp hx
    exact Finset.mem_filter.mpr ⟨hmem, Std.TransCmp.lt_trans hxa hlt⟩
  · intro hall
    have haa := (Finset.mem_filter.mp (hall (Finset.mem_filter.mpr ⟨ha, hlt⟩))).2
    rw [Std.ReflOrd.compare_self] at haa
    cases haa

variable [Std.LawfulEqOrd K]

theorem rank_le_iff {s : Finset K} {a b : K} (ha : a ∈ s) (hb : b ∈ s) :
    rank s a ≤ rank s b ↔ (compare a b).isLE = true := by
  cases hab : compare a b with
  | lt => exact iff_of_true (rank_lt_rank ha hab).le rfl
  | eq =>
    rw [Std.compare_eq_iff_eq] at hab
    exact iff_of_true (hab ▸ Nat.le_refl _) rfl
  | gt =>
    have hlt := rank_lt_rank hb (Std.OrientedCmp.lt_of_gt hab)
    exact iff_of_false (by omega) (by simp)

theorem rank_eq_iff {s : Finset K} {a b : K} (ha : a ∈ s) (hb : b ∈ s) : rank s a = rank s b ↔ a = b := by
  constructor
  · intro heq
    cases hab : compare a b with
    | lt => exact absurd heq (rank_lt_rank ha hab).ne
    | eq => exact Std.compare_eq_iff_eq.mp hab
    | gt => exact absurd heq (rank_lt_rank hb (Std.OrientedCmp.lt_of_gt hab)).ne'
  · rintro rfl
    rfl

/-- Every number below the size of the set is a rank. -/
theorem exists_rank_eq {s : Finset K} {j : Nat} (hj : j < s.card) : ∃ k ∈ s, rank s k = j := by
  have hmaps : Set.MapsTo (rank s) s (Finset.range s.card) :=
    fun k hk => Finset.mem_coe.mpr (Finset.mem_range.mpr (rank_lt_card hk))
  have hinj : Set.InjOn (rank s) s := fun a ha b hb heq => (rank_eq_iff ha hb).mp heq
  obtain ⟨k, hk, he⟩ := Finset.surjOn_of_injOn_of_card_le (rank s) hmaps hinj (Finset.card_range _).le
    (Finset.mem_coe.mpr (Finset.mem_range.mpr hj))
  exact ⟨k, Finset.mem_coe.mp hk, he⟩

omit [Std.LawfulEqOrd K] in
/-- In a strictly ordered list the rank of an element is its position. -/
theorem rank_getElem [DecidableEq K] {l : List K} (hl : l.Pairwise fun a b => compare a b = .lt) (j : Nat) (hj : j < l.length) :
    rank l.toFinset l[j] = j := by
  have hnd : l.Nodup := by
    apply hl.imp
    rintro a b hab rfl
    rw [Std.ReflOrd.compare_self] at hab
    cases hab
  have hset : (l.toFinset.filter fun x => compare x l[j] = .lt) = (l.take j).toFinset := by
    ext x
    rw [Finset.mem_filter, List.mem_toFinset, List.mem_toFinset, List.mem_take_iff_getElem]
    constructor
    · rintro ⟨hx, hlt⟩
      obtain ⟨i, hi, rfl⟩ := List.getElem_of_mem hx
      refine ⟨i, ?_, rfl⟩
      rcases Nat.lt_trichotomy i j with hij | rfl | hij
      · omega
      · rw [Std.ReflOrd.compare_self] at hlt
        cases hlt
      · have hgt := Std.OrientedCmp.gt_of_lt (List.pairwise_iff_getElem.mp hl j i hj hi hij)
        rw [hlt] at hgt
        cases hgt
    · rintro ⟨i, hi, rfl⟩
      exact ⟨List.getElem_mem _, List.pairwise_iff_getElem.mp hl i j (by omega) hj (by omega)⟩
  rw [rank, hset, List.card_toFinset, (hnd.sublist (List.take_sublist j l)).dedup, List.length_take]
  omega

omit [Std.LawfulEqOrd K] in
theorem rank_of_getElem? [DecidableEq K] {l : List K} (hl : l.Pairwise fun a b => compare a b = .lt) {j : Nat} {k : K}
    (hk : l[j]? = some k) : rank l.toFinset k = j := by
  obtain ⟨hj, rfl⟩ := List.getElem?_eq_some_iff.mp hk
  exact rank_getElem hl j hj

end Rank
