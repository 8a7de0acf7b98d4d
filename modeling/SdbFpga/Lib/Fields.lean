import Mathlib.Data.List.Basic

/-!
# Records of terminated fields

A stream of records, each ended by `nl`, of fields, each ended by `bar`; and what becomes of it when it is read in
pieces that are scanned on their own.

* `fields` : the terminated fields, by splitting; `scan` : the same in one pass (`fields_eq_scan`);
* `scan_append`, `pending` : what one part of a stream leaves for the next;
* `pieces_eq_iff` : when pieces that drop their last symbol have the fields of the whole.
-/

namespace SdbFpga.Lib

variable {α : Type*} [DecidableEq α] (nl bar : α)

/-- The fields of all records, of each record those that are terminated. -/
def fields (s : List α) : List (List α) :=
  (s.splitOn nl).flatMap fun record => (record.splitOn bar).dropLast

/-- One pass over the stream; `acc` is the field that is open. -/
def scan : List α → List α → List (List α)
  | _, [] => []
  | acc, a :: s => if a = bar then acc :: scan [] s else if a = nl then scan [] s else scan (acc ++ [a]) s

/-- The field that is open at the end. -/
def pending : List α → List α → List α
  | acc, [] => acc
  | acc, a :: s => if a = bar ∨ a = nl then pending [] s else pending (acc ++ [a]) s

/-- A field ends before any record does. -/
def Opens : List α → Prop
  | [] => False
  | a :: s => a = bar ∨ a ≠ nl ∧ Opens s

variable {nl bar}

/-! ## Splitting -/

theorem fields_of_notMem {s : List α} (hnl : nl ∉ s) (hbar : bar ∉ s) : fields nl bar s = [] := by
  unfold fields
  rw [List.splitOn_eq_singleton hnl]
  simp [List.splitOn_eq_singleton hbar]

theorem fields_record {record : List α} (s : List α) (hnl : nl ∉ record) :
    fields nl bar (record ++ nl :: s) = (record.splitOn bar).dropLast ++ fields nl bar s := by
  unfold fields
  rw [List.splitOn_append_cons_self_of_not_mem hnl, List.flatMap_cons]

theorem fields_field {field : List α} (s : List α) (hne : bar ≠ nl) (hnl : nl ∉ field) (hbar : bar ∉ field) :
    fields nl bar (field ++ bar :: s) = field :: fields nl bar s := by
  obtain ⟨record, records, hs⟩ := List.exists_cons_of_ne_nil (List.splitOn_ne_nil nl s)
  have hsplit : (field ++ bar :: s).splitOn nl = (field ++ bar :: record) :: records := by
    clear hbar
    induction field with
    | nil => simp [List.splitOn_cons_eq_if_modifyHead, hne, hs]
    | cons a field ih =>
      have ha : a ≠ nl := fun h => hnl (by simp [h])
      have hfield := ih (List.not_mem_of_not_mem_cons hnl)
      simp [List.splitOn_cons_eq_if_modifyHead, ha, hfield]
  unfold fields
  rw [hsplit, hs, List.flatMap_cons, List.flatMap_cons, List.splitOn_append_cons_self_of_not_mem hbar,
    List.dropLast_cons_of_ne_nil (List.splitOn_ne_nil bar record), List.cons_append]

/-- Splitting is the pass, started with the open field in front. -/
theorem fields_append_eq_scan (hne : bar ≠ nl) (s : List α) :
    ∀ acc : List α, nl ∉ acc → bar ∉ acc → fields nl bar (acc ++ s) = scan nl bar acc s := by
  induction s with
  | nil =>
    intro acc hnl hbar
    rw [List.append_nil, fields_of_notMem hnl hbar, scan]
  | cons a s ih =>
    intro acc hnl hbar
    have hrest := ih [] List.not_mem_nil List.not_mem_nil
    unfold scan
    split_ifs with habar hanl
    · rw [habar, fields_field s hne hnl hbar, ← hrest, List.nil_append]
    · rw [hanl, fields_record s hnl, List.splitOn_eq_singleton hbar, ← hrest]
      simp
    · rw [List.append_cons]
      exact ih (acc ++ [a]) (by simp [hnl, Ne.symm hanl]) (by simp [hbar, Ne.symm habar])

theorem fields_eq_scan (hne : bar ≠ nl) (s : List α) : fields nl bar s = scan nl bar [] s :=
  fields_append_eq_scan hne s [] List.not_mem_nil List.not_mem_nil

variable (nl bar) in
/-- The stream of a table: every field terminated, every record ended. -/
def written (records : List (List (List α))) : List α :=
  records.flatMap fun record => (record.flatMap fun field => field ++ [bar]) ++ [nl]

theorem fields_written_record (hne : bar ≠ nl) (s : List α) (record : List (List α))
    (h : ∀ field ∈ record, nl ∉ field ∧ bar ∉ field) :
    fields nl bar ((record.flatMap fun field => field ++ [bar]) ++ nl :: s) = record ++ fields nl bar s := by
  induction record with
  | nil =>
    have hrecord : fields nl bar ([] ++ nl :: s) = _ := fields_record s List.not_mem_nil
    simpa using hrecord
  | cons field record ih =>
    obtain ⟨hnl, hbar⟩ := h field (by simp)
    have hrest := ih fun field hf => h field (by simp [hf])
    rw [List.flatMap_cons, List.append_assoc, ← List.append_cons, fields_field _ hne hnl hbar, hrest,
      List.cons_append]

/-- What was written is what splitting finds. -/
theorem fields_written (hne : bar ≠ nl) (records : List (List (List α)))
    (h : ∀ record ∈ records, ∀ field ∈ record, nl ∉ field ∧ bar ∉ field) :
    fields nl bar (written nl bar records) = records.flatten := by
  induction records with
  | nil => exact fields_of_notMem List.not_mem_nil List.not_mem_nil
  | cons record records ih =>
    have hrest := ih fun record hr => h record (by simp [hr])
    unfold written at hrest ⊢
    rw [List.flatMap_cons, ← List.append_cons, fields_written_record hne _ _ (h record (by simp)), hrest,
      List.flatten_cons]

/-! ## The pass over a part -/

theorem scan_append (s t : List α) :
    ∀ acc, scan nl bar acc (s ++ t) = scan nl bar acc s ++ scan nl bar (pending nl bar acc s) t := by
  induction s with
  | nil => exact fun _ => rfl
  | cons a s ih =>
    intro acc
    simp only [List.cons_append, scan, pending]
    split_ifs with habar hor hanl hor
    · rw [ih, List.cons_append]
    · exact absurd (.inl habar) hor
    · exact ih _
    · exact absurd (.inr hanl) hor
    · rename_i hor
      exact absurd hor (by simp [habar, hanl])
    · exact ih _

theorem pending_concat (s : List α) (a : α) :
    ∀ acc, pending nl bar acc (s ++ [a]) = if a = bar ∨ a = nl then [] else pending nl bar acc s ++ [a] := by
  induction s with
  | nil => exact fun _ => rfl
  | cons b s ih =>
    intro acc
    rw [List.cons_append, pending, pending]
    split_ifs <;> simp_all

theorem length_scan (s : List α) : ∀ acc, (scan nl bar acc s).length = s.count bar := by
  induction s with
  | nil => exact fun _ => rfl
  | cons a s ih =>
    intro acc
    unfold scan
    rw [List.count_cons]
    split_ifs <;> simp_all

/-- The open field is the beginning of the first field, if there is one in this record. -/
theorem scan_eq_iff (s : List α) : ∀ acc acc' : List α,
    scan nl bar acc s = scan nl bar acc' s ↔ acc = acc' ∨ ¬ Opens nl bar s := by
  induction s with
  | nil => simp [scan, Opens]
  | cons a s ih =>
    intro acc acc'
    unfold scan Opens
    split_ifs with habar hanl
    · simp [habar]
    · have hne : nl ≠ bar := fun h => habar (hanl.trans h)
      simp [hanl, hne]
    · rw [ih]
      simp [habar, hanl]

omit [DecidableEq α] in
theorem opens_iff (s : List α) : Opens nl bar s ↔ ∃ i : Nat, s[i]? = some bar ∧ ∀ k < i, s[k]? ≠ some nl := by
  induction s with
  | nil => simp [Opens]
  | cons a s ih =>
    unfold Opens
    rw [ih]
    constructor
    · rintro (rfl | ⟨ha, i, hi, hbefore⟩)
      · exact ⟨0, by simp, by simp⟩
      · refine ⟨i + 1, by simpa using hi, ?_⟩
        intro k hk
        cases k with
        | zero => simpa using ha
        | succ k => simpa using hbefore k (by omega)
    · rintro ⟨i, hi, hbefore⟩
      cases i with
      | zero => exact .inl (by simpa using hi)
      | succ i =>
        refine .inr ⟨by simpa using hbefore 0 (by omega), i, by simpa using hi, ?_⟩
        intro k hk
        simpa using hbefore (k + 1) (by omega)

/-! ## Pieces -/

section Pieces
variable (body : Nat → List α) (last : Nat → α)

/-- The stream of the first `n` pieces. -/
def joined (n : Nat) : List α := (List.range n).flatMap fun c => body c ++ [last c]

variable (nl bar) in
/-- The fields of the first `n` pieces, each scanned on its own and without its last symbol. -/
def pieces (n : Nat) : List (List α) := (List.range n).flatMap fun c => scan nl bar [] (body c)

omit [DecidableEq α] in
theorem joined_succ (n : Nat) : joined body last (n + 1) = joined body last n ++ body n ++ [last n] := by
  simp [joined, List.range_succ]

theorem pieces_succ (n : Nat) : pieces nl bar body (n + 1) = pieces nl bar body n ++ scan nl bar [] (body n) := by
  simp [pieces, List.range_succ]

theorem pending_joined (n : Nat) :
    pending nl bar [] (joined body last n) = [] ↔ n = 0 ∨ last (n - 1) = bar ∨ last (n - 1) = nl := by
  cases n with
  | zero => simp [joined, pending]
  | succ n =>
    rw [joined_succ, pending_concat]
    split_ifs with hsep <;> simp [hsep]

theorem length_pieces_le (n : Nat) :
    (pieces nl bar body n).length ≤ (scan nl bar [] (joined body last n)).length := by
  induction n with
  | zero => simp [pieces]
  | succ n ih =>
    rw [length_scan] at ih ⊢
    rw [pieces_succ, joined_succ, List.length_append, List.count_append, List.count_append, length_scan]
    omega

/-- One more piece: its last symbol ends no field, and its first field does not begin in the piece before. -/
theorem pieces_eq_succ_iff (n : Nat) :
    pieces nl bar body (n + 1) = scan nl bar [] (joined body last (n + 1)) ↔
      pieces nl bar body n = scan nl bar [] (joined body last n) ∧ last n ≠ bar ∧
        (pending nl bar [] (joined body last n) = [] ∨ ¬ Opens nl bar (body n)) := by
  have hle : (pieces nl bar body n).length ≤ _ := length_pieces_le body last n
  have hcount : ∀ acc, (scan nl bar acc (body n)).length = _ := length_scan (body n)
  have hlast : scan nl bar (pending nl bar [] (joined body last n ++ body n)) [last n] = [] ↔ last n ≠ bar := by
    unfold scan
    split_ifs with hbar <;> simp [scan, hbar]
  rw [pieces_succ, joined_succ, scan_append, scan_append]
  constructor
  · intro heq
    have hlen := congrArg List.length heq
    simp only [List.length_append, hcount] at hlen
    have hnone : scan nl bar (pending nl bar [] (joined body last n ++ body n)) [last n] = [] :=
      List.eq_nil_of_length_eq_zero (by omega)
    rw [hnone, List.append_nil] at heq
    obtain ⟨hbefore, hpiece⟩ := List.append_inj heq (by omega)
    refine ⟨hbefore, hlast.mp hnone, ?_⟩
    rw [eq_comm, ← scan_eq_iff]
    exact hpiece
  · rintro ⟨hbefore, hbar, hopen⟩
    have hpiece := (scan_eq_iff (body n) [] (pending nl bar [] (joined body last n))).mpr (hopen.imp_left Eq.symm)
    rw [hlast.mpr hbar, List.append_nil, hbefore, ← hpiece]

/-- The pieces have the fields of the stream when no piece ends with a field terminator and the first field of a
piece begins in it. -/
theorem pieces_eq_iff (hne : bar ≠ nl) (n : Nat) :
    pieces nl bar body n = fields nl bar (joined body last n) ↔
      ∀ c < n, last c ≠ bar ∧ (Opens nl bar (body c) → c = 0 ∨ last (c - 1) = nl) := by
  rw [fields_eq_scan hne]
  induction n with
  | zero => simp [pieces, joined, scan]
  | succ n ih =>
    rw [pieces_eq_succ_iff, ih, Nat.forall_lt_succ_right, pending_joined]
    refine and_congr_right fun hbefore => and_congr_right fun _ => ?_
    have hprev : last (n - 1) = bar → n = 0 := by
      intro hbar
      by_contra hn
      exact (hbefore (n - 1) (by omega)).1 hbar
    tauto

end Pieces

end SdbFpga.Lib
