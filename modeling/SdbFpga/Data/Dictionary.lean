import Mathlib.Data.Int.Interval
import SdbFpga.Data.Column
import SdbFpga.Data.Compressor
import SdbFpga.Lib.Rank

/-!
# The dictionary of a column

`Compressor` numbers the distinct values of a column in order, `initializeColumn` reads the numbers back into the
dictionary that `CompressValue` looks constants up in.

* `Column.compressValue` : the lookup, which enters what it does not find;
* `DataType.cmp`, `DataType.rank` : the order of typed values and the number of smaller ones;
* `codeOf_eq_rank` : a value's code is its rank;
* `Loaded` : a column loaded from what the compressor wrote; `compressValue_of_mem`, `compressValue_of_not_mem`;
* `OrderPreserving`, `orderPreserving` : comparing codes is comparing values, up to `2 ^ 32` of them.
-/

namespace SdbFpga.Data
open Rank Text Std

/-- `CompressValue`: `dictionary[uncompressed]` makes an entry with code 0 for a key it does not have. -/
def Column.compressValue (c : Column) (uncompressed : Line) : BitVec 32 × Column :=
  match c.dictionary.lookup uncompressed with
  | some code => (code, c)
  | none => (0, { c with dictionary := c.dictionary ++ [(uncompressed, 0)] })

/-- The metadata that the compressor writes is read. -/
theorem exists_initializeColumn {comp comp' : Compressor} {metaFile : List Line}
    (hmeta : comp.writeMetaData = some (comp', metaFile)) (c : Column) (base compressed : List Line)
    (order : List (Line × BitVec 32) → List (Line × BitVec 32)) :
    ∃ c', c.initializeColumn metaFile base compressed order = some c' := by
  rw [writeMetaData_eq] at hmeta
  obtain ⟨b, _, he⟩ := Option.map_eq_some_iff.mp hmeta
  obtain ⟨_, rfl⟩ := Prod.mk.inj he
  have hlabel : ∀ (label rest : Line), ':' ∉ label → (afterColon (label ++ ':' :: ' ' :: rest)).isSome := by
    intro label rest hnot
    rw [afterColon_append hnot]
    rfl
  apply initializeColumn_isSome
  · exact hlabel "distinct_values".toList _ (by decide)
  · exact hlabel "bit_encoding".toList _ (by decide)
  · exact hlabel "data_type".toList _ (by decide)

/-! ## Typed values -/

/-- The order of the values in two lines. -/
def DataType.cmp (d : DataType) (l l' : Line) : Ordering :=
  match d with
  | .int => compare (atoi l) (atoi l')
  | .string => compare l l'
  | .double => .eq

/-- The number of distinct values of the column that are smaller than the one in `l`. -/
def DataType.rank (d : DataType) (base : List Line) (l : Line) : Nat :=
  match d with
  | .int => Rank.rank (base.map atoi).toFinset (atoi l)
  | .string => Rank.rank base.toFinset l
  | .double => 0

section Rank
variable {d : DataType} {base : List Line} (hd : d ≠ .double)
include hd

theorem rank_lt_distinctValues {x : Line} (hx : x ∈ base) : d.rank base x < d.distinctValues base := by
  match d with
  | .int => exact rank_lt_card (List.mem_toFinset.mpr (List.mem_map_of_mem hx))
  | .string => exact rank_lt_card (List.mem_toFinset.mpr hx)

theorem rank_le_rank_iff {x y : Line} (hx : x ∈ base) (hy : y ∈ base) :
    d.rank base x ≤ d.rank base y ↔ (d.cmp x y).isLE = true := by
  match d with
  | .int =>
    exact rank_le_iff (List.mem_toFinset.mpr (List.mem_map_of_mem hx))
      (List.mem_toFinset.mpr (List.mem_map_of_mem hy))
  | .string => exact rank_le_iff (List.mem_toFinset.mpr hx) (List.mem_toFinset.mpr hy)

theorem rank_eq_rank_iff_cmp {x y : Line} (hx : x ∈ base) (hy : y ∈ base) :
    d.rank base x = d.rank base y ↔ d.cmp x y = .eq := by
  match d with
  | .int =>
    exact (rank_eq_iff (List.mem_toFinset.mpr (List.mem_map_of_mem hx))
      (List.mem_toFinset.mpr (List.mem_map_of_mem hy))).trans Std.compare_eq_iff_eq.symm
  | .string =>
    exact (rank_eq_iff (List.mem_toFinset.mpr hx) (List.mem_toFinset.mpr hy)).trans Std.compare_eq_iff_eq.symm

/-- Every number below the number of distinct values is the rank of some row's value. -/
theorem exists_rank_eq {j : Nat} (hj : j < d.distinctValues base) : ∃ x ∈ base, d.rank base x = j := by
  match d with
  | .int =>
    obtain ⟨k, hk, hrank⟩ := Rank.exists_rank_eq (s := (base.map atoi).toFinset) hj
    rw [List.mem_toFinset] at hk
    obtain ⟨x, hx, rfl⟩ := List.mem_map.mp hk
    exact ⟨x, hx, hrank⟩
  | .string =>
    obtain ⟨x, hx, hrank⟩ := Rank.exists_rank_eq (s := base.toFinset) hj
    exact ⟨x, List.mem_toFinset.mp hx, hrank⟩

/-- Some row holds the smallest value. -/
theorem exists_rank_eq_zero (hne : base ≠ []) : ∃ x ∈ base, d.rank base x = 0 := by
  obtain ⟨x, hx⟩ := List.exists_mem_of_ne_nil base hne
  exact exists_rank_eq hd ((Nat.zero_le _).trans_lt (rank_lt_distinctValues hd hx))

end Rank

/-- The keys of the map are the distinct values. -/
theorem toFinset_keys {K : Type} [Ord K] [TransOrd K] [LawfulEqOrd K] [DecidableEq K] (ks : List K) :
    (countKeys ∅ (-1) ks).1.keys.toFinset = ks.toFinset := by
  ext k
  rw [List.mem_toFinset, List.mem_toFinset, TreeMap.mem_keys, mem_countKeys]
  exact or_iff_right TreeMap.not_mem_emptyc

/-- A value's code is its rank. -/
theorem codeOf_eq_rank {K : Type} [Ord K] [TransOrd K] [LawfulEqOrd K] [DecidableEq K] (ks : List K) {k : K}
    (hk : k ∈ ks) : codeOf ks k = BitVec.ofNat 32 (Rank.rank ks.toFinset k) := by
  obtain ⟨j, hj, hkey, _, hcode⟩ := codeOf_eq ks hk
  rw [hcode, ← toFinset_keys ks, ← hkey, rank_getElem TreeMap.ordered_keys]

/-- There are `2 ^ 32` values of an `int`. -/
theorem distinctValues_int_le (base : List Line) : DataType.int.distinctValues base ≤ 2 ^ 32 := by
  have hrange : (base.map atoi).toFinset ⊆ Finset.Ico (-2 ^ 31 : Int) (2 ^ 31) := by
    intro x hx
    rw [List.mem_toFinset] at hx
    obtain ⟨l, _, rfl⟩ := List.mem_map.mp hx
    rw [Finset.mem_Ico]
    exact ⟨Int.le_bmod (by decide), Int.bmod_lt (by decide)⟩
  calc DataType.int.distinctValues base = (base.map atoi).toFinset.card := rfl
    _ ≤ (Finset.Ico (-2 ^ 31 : Int) (2 ^ 31)).card := Finset.card_le_card hrange
    _ = 2 ^ 32 := by
      rw [Int.card_Ico]
      rfl

/-! ## Lookups -/

section Lookup
variable {K V : Type} [BEq K] [LawfulBEq K]

theorem lookup_enter (table : List (K × V)) (entry : K × V) (k : K) :
    (enter table entry).lookup k = (table ++ [entry]).lookup k := by
  rw [enter, List.lookup_append]
  split
  · next hsome =>
    by_cases hk : k = entry.1
    · subst hk
      obtain ⟨v, hv⟩ := Option.isSome_iff_exists.mp hsome
      rw [hv]
      rfl
    · rw [List.lookup_cons, beq_eq_false_iff_ne.mpr hk]
      simp
  · rw [List.lookup_append]

/-- The entries of a key after the first one have no effect. -/
theorem lookup_foldl_enter (es : List (K × V)) : ∀ (table : List (K × V)) (k : K),
    (es.foldl enter table).lookup k = (table ++ es).lookup k := by
  induction es with
  | nil => simp
  | cons e es ih =>
    intro table k
    rw [List.foldl_cons, ih, List.lookup_append, lookup_enter, ← List.lookup_append, List.append_assoc]
    rfl

/-- A table that is a function of its keys. -/
theorem lookup_map_self [DecidableEq K] (ks : List K) (f : K → V) (k : K) :
    (ks.map fun x => (x, f x)).lookup k = if k ∈ ks then some (f k) else none := by
  induction ks with
  | nil => rfl
  | cons x ks ih =>
    rw [List.map_cons, List.lookup_cons]
    by_cases hk : k = x
    · subst hk
      rw [beq_self_eq_true, if_pos List.mem_cons_self]
    · rw [beq_eq_false_iff_ne.mpr hk, ih]
      simp [List.mem_cons, hk]

end Lookup

/-! ## A loaded column -/

/-- `file` is the `compressed.dat` that the compressor writes for `base`, and `c` was loaded from the two. -/
structure Loaded (d : DataType) (base file : List Line) (c : Column) : Prop where
  written : ∃ comp, (Compressor.new d).parseColumn (some base) = (comp, true) ∧
    comp.writeCompressedValues base = file
  loaded : ∃ colSize metaFile order, (Column.new colSize).initializeColumn metaFile base file order = some c

/-- The code of the value in a line. -/
def DataType.code (d : DataType) (base : List Line) (l : Line) : BitVec 32 := BitVec.ofNat 32 (d.rank base l)

/-- A written code is read back. -/
theorem ofInt_atoi_decimal (b : BitVec 32) : BitVec.ofInt 32 (atoi (decimal b.toNat)) = b := by
  have hlt := b.isLt
  rw [atoi, strtol_decimal _ (by omega)]
  apply BitVec.eq_of_toInt_eq
  rw [BitVec.toInt_ofInt, Int.bmod_bmod, BitVec.toInt_eq_toNat_bmod]

section Load
variable {d : DataType} {base file : List Line} {c : Column} (hd : d ≠ .double) (h : Loaded d base file c)
include hd h

/-- The rows of `compressed.dat`. -/
theorem Loaded.file_eq : file = base.map fun l => decimal (d.code base l).toNat := by
  obtain ⟨⟨comp, hparse, hfile⟩, _⟩ := h
  match d with
  | .int =>
    cases hparse
    rw [← hfile]
    apply List.map_congr_left
    intro l hl
    exact congrArg (fun b : BitVec 32 => decimal b.toNat) (codeOf_eq_rank _ (List.mem_map_of_mem hl))
  | .string =>
    cases hparse
    rw [← hfile]
    apply List.map_congr_left
    intro l hl
    exact congrArg (fun b : BitVec 32 => decimal b.toNat) (codeOf_eq_rank _ hl)

theorem Loaded.lookup_dictionary (v : Line) :
    c.dictionary.lookup v = if v ∈ base then some (d.code base v) else none := by
  have hfile := h.file_eq hd
  obtain ⟨_, colSize, metaFile, order, hinit⟩ := h
  have hdict : c.dictionary =
      ((base.zip file).map fun l => (l.1, BitVec.ofInt 32 (atoi l.2))).foldl enter [] := by
    unfold Column.initializeColumn at hinit
    simp only [Option.bind_eq_some_iff, Option.map_eq_some_iff] at hinit
    obtain ⟨_, _, _, _, _, _, rfl⟩ := hinit
    rfl
  have hentries : ((base.zip file).map fun l => (l.1, BitVec.ofInt 32 (atoi l.2))) =
      base.map fun l => (l, d.code base l) := by
    rw [hfile, ← List.map_prod_left_eq_zip, List.map_map]
    apply List.map_congr_left
    intro l _
    exact congrArg (Prod.mk l) (ofInt_atoi_decimal _)
  rw [hdict, lookup_foldl_enter, List.nil_append, hentries, lookup_map_self]

/-- A constant that occurs in the column. -/
theorem Loaded.compressValue_of_mem {v : Line} (hv : v ∈ base) : c.compressValue v = (d.code base v, c) := by
  rw [Column.compressValue, h.lookup_dictionary hd, if_pos hv]

/-- A constant that does not: it is entered with the code of the smallest value. -/
theorem Loaded.compressValue_of_not_mem {v : Line} (hv : v ∉ base) :
    c.compressValue v = (0, { c with dictionary := c.dictionary ++ [(v, 0)] }) := by
  rw [Column.compressValue, h.lookup_dictionary hd, if_neg hv]

end Load

/-! ## Comparing codes -/

theorem decimal_injective : Function.Injective decimal := by
  intro m n h
  rw [← digits_decimal m, h, digits_decimal]

/-- The code written for a row is the rank of its value, and against the code of a constant of the column it compares
as the values do. -/
structure OrderPreserving (d : DataType) (base file : List Line) (c : Column) : Prop where
  rank : ∀ (r : Nat) (x : Line), base[r]? = some x → file[r]? = some (decimal (d.rank base x))
  bound : ∀ x ∈ base, d.rank base x < d.distinctValues base
  equal : ∀ (r r' : Nat) (x x' : Line), base[r]? = some x → base[r']? = some x' → d.cmp x x' = .eq →
    file[r]? = file[r']?
  eq : ∀ (r : Nat) (x : Line) (code : Nat), base[r]? = some x → file[r]? = some (decimal code) → ∀ v ∈ base,
    (code = (c.compressValue v).1.toNat ↔ d.cmp x v = .eq)
  le : ∀ (r : Nat) (x : Line) (code : Nat), base[r]? = some x → file[r]? = some (decimal code) → ∀ v ∈ base,
    (code ≤ (c.compressValue v).1.toNat ↔ (d.cmp x v).isLE = true)
  range : ∀ (r : Nat) (x : Line) (code : Nat), base[r]? = some x → file[r]? = some (decimal code) →
    ∀ v ∈ base, ∀ w ∈ base, ((c.compressValue v).1.toNat ≤ code ∧
      code ≤ ((c.compressValue v).2.compressValue w).1.toNat ↔
        (d.cmp v x).isLE = true ∧ (d.cmp x w).isLE = true)

section Compare
variable {d : DataType} {base file : List Line} {c : Column} (hd : d ≠ .double)
include hd

/-- With up to `2 ^ 32` values a code is not wrapped. -/
theorem toNat_code (hn : d = .string → d.distinctValues base ≤ 2 ^ 32) {x : Line} (hx : x ∈ base) :
    (d.code base x).toNat = d.rank base x := by
  have hlt := rank_lt_distinctValues hd hx
  have hle : d.distinctValues base ≤ 2 ^ 32 := by
    match d with
    | .int => exact distinctValues_int_le base
    | .string => exact hn rfl
  rw [DataType.code, BitVec.toNat_ofNat, Nat.mod_eq_of_lt (by omega)]

/-- The code of a row. -/
theorem Loaded.code_of_row (h : Loaded d base file c) {r : Nat} {x : Line} (hx : base[r]? = some x) :
    file[r]? = some (decimal (d.code base x).toNat) := by
  rw [h.file_eq hd, List.getElem?_map, hx]
  rfl

theorem orderPreserving (hn : d = .string → d.distinctValues base ≤ 2 ^ 32) (h : Loaded d base file c) :
    OrderPreserving d base file c := by
  have hcode : ∀ {x : Line}, x ∈ base → (d.code base x).toNat = d.rank base x := fun hx => toNat_code hd hn hx
  have hrow : ∀ {r : Nat} {x : Line} {code : Nat}, base[r]? = some x → file[r]? = some (decimal code) →
      x ∈ base ∧ code = d.rank base x := by
    intro r x code hx hr
    have hmem := List.mem_of_getElem? hx
    rw [h.code_of_row hd hx, Option.some.injEq] at hr
    exact ⟨hmem, by rw [← decimal_injective hr, hcode hmem]⟩
  refine ⟨?_, fun x hx => rank_lt_distinctValues hd hx, ?_, ?_, ?_, ?_⟩
  · intro r x hx
    rw [h.code_of_row hd hx, hcode (List.mem_of_getElem? hx)]
  · intro r r' x x' hx hx' heq
    have hrank := (rank_eq_rank_iff_cmp hd (List.mem_of_getElem? hx) (List.mem_of_getElem? hx')).mpr heq
    rw [h.code_of_row hd hx, h.code_of_row hd hx', DataType.code, hrank]
    rfl
  · intro r x code hx hr v hv
    obtain ⟨hmem, rfl⟩ := hrow hx hr
    rw [h.compressValue_of_mem hd hv, hcode hv]
    exact rank_eq_rank_iff_cmp hd hmem hv
  · intro r x code hx hr v hv
    obtain ⟨hmem, rfl⟩ := hrow hx hr
    rw [h.compressValue_of_mem hd hv, hcode hv]
    exact rank_le_rank_iff hd hmem hv
  · intro r x code hx hr v hv w hw
    obtain ⟨hmem, rfl⟩ := hrow hx hr
    rw [h.compressValue_of_mem hd hv, h.compressValue_of_mem hd hw, hcode hv, hcode hw]
    exact and_congr (rank_le_rank_iff hd hv hmem) (rank_le_rank_iff hd hmem hw)

omit hd in
/-- The files of a column can be written and loaded. -/
theorem exists_loaded (base : List Line) : ∃ file c, Loaded d base file c := by
  obtain ⟨comp, hparse⟩ := exists_parseColumn d base
  obtain ⟨c, hinit⟩ := initializeColumn_isSome ["distinct_values: ".toList, "bit_encoding: ".toList,
    "data_type: ".toList] (by decide) (by decide) (by decide) (Column.new 0) base (comp.writeCompressedValues base) id
  exact ⟨_, c, ⟨comp, hparse, rfl⟩, 0, _, id, hinit⟩

end Compare

/-- Three rows with two values. -/
theorem orderPreserving_three : ∃ file c, Loaded .int ["1993".toList, "1992".toList, "1993".toList] file c ∧
    OrderPreserving .int ["1993".toList, "1992".toList, "1993".toList] file c := by
  obtain ⟨file, c, h⟩ := exists_loaded (d := .int) ["1993".toList, "1992".toList, "1993".toList]
  exact ⟨file, c, h, orderPreserving (by decide) (by decide) h⟩

/-- With more than `2 ^ 32` strings the value of rank `2 ^ 32` is written as 0. -/
theorem not_orderPreserving {base file : List Line} {c : Column}
    (hmany : 2 ^ 32 < DataType.string.distinctValues base) (h : Loaded .string base file c) :
    ¬ OrderPreserving .string base file c := by
  intro ho
  have hlen : (countKeys ∅ (-1) base).1.keys.length = DataType.string.distinctValues base := by
    rw [TreeMap.length_keys]
    exact distinct_eq base
  have hj : 2 ^ 32 < (countKeys ∅ (-1) base).1.keys.length := hlen ▸ hmany
  have hmem : (countKeys ∅ (-1) base).1.keys[2 ^ 32] ∈ base := by
    have hin : (countKeys ∅ (-1) base).1.keys[2 ^ 32] ∈ (countKeys ∅ (-1) base).1.keys := List.getElem_mem _
    rw [TreeMap.mem_keys, mem_countKeys] at hin
    exact hin.resolve_left TreeMap.not_mem_emptyc
  have hrank : DataType.string.rank base (countKeys ∅ (-1) base).1.keys[2 ^ 32] = 2 ^ 32 := by
    show Rank.rank base.toFinset _ = _
    rw [← toFinset_keys base, rank_getElem TreeMap.ordered_keys]
  obtain ⟨r, hr⟩ := List.mem_iff_getElem?.mp hmem
  have hwritten := ho.rank r _ hr
  rw [h.code_of_row (by decide) hr, DataType.code, hrank, Option.some.injEq] at hwritten
  exact absurd (decimal_injective hwritten) (by decide)

/-- More strings than there are codes. -/
theorem rank_wraps : ∃ base file c, Loaded .string base file c ∧ ¬ OrderPreserving .string base file c := by
  have hnodup : ((List.range (2 ^ 32 + 1)).map decimal).Nodup := List.nodup_range.map decimal_injective
  obtain ⟨file, c, h⟩ := exists_loaded (d := .string) ((List.range (2 ^ 32 + 1)).map decimal)
  refine ⟨_, file, c, h, not_orderPreserving ?_ h⟩
  show 2 ^ 32 < ((List.range (2 ^ 32 + 1)).map decimal).dedup.length
  rw [hnodup.dedup, List.length_map, List.length_range]
  exact Nat.lt_succ_self _

end SdbFpga.Data
