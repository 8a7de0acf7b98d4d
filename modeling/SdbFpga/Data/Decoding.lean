import SdbFpga.Data.Dictionary

/-!
# The decoding table of a column

`initializeColumn` fills the decoding table from the dictionary, in the order in which the hash map is iterated.

* `Column.decompressValue` : the lookup, which enters what it does not find;
* `mem_dictionary_iff` : the entries of the dictionary, `lookup_decodingTable` : what a code is decoded to;
* `MutuallyInverse`, `mutuallyInverse` : `CompressValue` and `DecompressValue` undo each other.
-/

namespace SdbFpga.Data
open Text

/-- `DecompressValue`: `decoding_table[compressed]` makes an empty entry for a code it does not have. -/
def Column.decompressValue (c : Column) (compressed : BitVec 32) : Line × Column :=
  match c.decodingTable.lookup compressed with
  | some value => (value, c)
  | none => ([], { c with decodingTable := c.decodingTable ++ [(compressed, [])] })

/-! ## Tables -/

section Table
variable {K V : Type} [BEq K] [LawfulBEq K]

theorem mem_of_lookup_eq_some {table : List (K × V)} {k : K} {v : V} (h : table.lookup k = some v) :
    (k, v) ∈ table := by
  obtain ⟨l₁, l₂, rfl, _⟩ := List.lookup_eq_some_iff.mp h
  simp

/-- A key with an entry is found. -/
theorem exists_lookup_of_mem {table : List (K × V)} {k : K} {v : V} (h : (k, v) ∈ table) :
    ∃ v', table.lookup k = some v' := by
  rw [← Option.isSome_iff_exists, Option.isSome_iff_ne_none]
  intro hnone
  have hne := List.lookup_eq_none_iff.mp hnone (k, v) h
  simp at hne

omit [LawfulBEq K] in
/-- Only entries that are offered get into a table. -/
theorem mem_foldl_enter (es : List (K × V)) : ∀ (table : List (K × V)) (e : K × V),
    e ∈ es.foldl enter table → e ∈ table ∨ e ∈ es := by
  induction es with
  | nil => exact fun _ _ h => .inl h
  | cons e' es ih =>
    intro table e he
    rw [List.foldl_cons] at he
    rw [List.mem_cons]
    rcases ih _ _ he with hin | hin
    · unfold enter at hin
      split at hin
      · exact .inl hin
      · rw [List.mem_append, List.mem_singleton] at hin
        rcases hin with hold | hnew
        · exact .inl hold
        · exact .inr (.inl hnew)
    · exact .inr (.inr hin)

end Table

/-! ## The two tables of a loaded column -/

/-- What `initializeColumn` leaves in the tables of a new column. -/
theorem tables_initializeColumn {colSize : Int} {metaFile base file : List Line}
    {order : List (Line × BitVec 32) → List (Line × BitVec 32)} {c : Column}
    (h : (Column.new colSize).initializeColumn metaFile base file order = some c) :
    c.dictionary = ((base.zip file).map fun l => (l.1, BitVec.ofInt 32 (atoi l.2))).foldl enter [] ∧
      c.decodingTable = ((order c.dictionary).map fun e => (e.2, e.1)).foldl enter [] := by
  unfold Column.initializeColumn at h
  simp only [Option.bind_eq_some_iff, Option.map_eq_some_iff] at h
  obtain ⟨_, _, _, _, _, _, rfl⟩ := h
  exact ⟨rfl, rfl⟩

section Load
variable {d : DataType} {base file : List Line} {comp : Compressor} {colSize : Int} {metaFile : List Line}
  {order : List (Line × BitVec 32) → List (Line × BitVec 32)} {c : Column} (hd : d ≠ .double)
  (hparse : (Compressor.new d).parseColumn (some base) = (comp, true))
  (hfile : comp.writeCompressedValues base = file) (horder : ∀ l, (order l).Perm l)
  (hinit : (Column.new colSize).initializeColumn metaFile base file order = some c)
include hd hparse hfile hinit

/-- Every line of the column has one entry, with its code. -/
theorem mem_dictionary_iff (e : Line × BitVec 32) : e ∈ c.dictionary ↔ e.1 ∈ base ∧ d.code base e.1 = e.2 := by
  have h : Loaded d base file c := ⟨⟨comp, hparse, hfile⟩, colSize, metaFile, order, hinit⟩
  constructor
  · intro he
    have hzip := he
    rw [(tables_initializeColumn hinit).1] at hzip
    rcases mem_foldl_enter _ _ _ hzip with hnil | hin
    · cases hnil
    · obtain ⟨l, hl, rfl⟩ := List.mem_map.mp hin
      have hbase : l.1 ∈ base := (List.of_mem_zip hl).1
      have hl' : (l.1, l.2) ∈ base.zip (base.map fun l => decimal (d.code base l).toNat) := by
        rw [← h.file_eq hd]
        exact hl
      rw [← List.map_prod_left_eq_zip, List.mem_map] at hl'
      obtain ⟨x, _, hx⟩ := hl'
      obtain ⟨rfl, hline⟩ := Prod.mk.inj hx
      refine ⟨hbase, ?_⟩
      rw [← hline, ofInt_atoi_decimal]
  · rintro ⟨hbase, hcode⟩
    have hlookup := h.lookup_dictionary hd e.1
    rw [if_pos hbase, hcode] at hlookup
    exact mem_of_lookup_eq_some hlookup

include horder

/-- A code of the column is decoded to a line with that code. -/
theorem lookup_decodingTable {v : Line} (hv : v ∈ base) :
    ∃ l ∈ base, d.code base l = d.code base v ∧ c.decodingTable.lookup (d.code base v) = some l := by
  have hmem : ∀ e : BitVec 32 × Line, e ∈ (order c.dictionary).map (fun e => (e.2, e.1)) ↔
      e.2 ∈ base ∧ d.code base e.2 = e.1 := by
    intro e
    rw [List.mem_map]
    constructor
    · rintro ⟨e', he', rfl⟩
      exact (mem_dictionary_iff hd hparse hfile hinit e').mp ((horder _).mem_iff.mp he')
    · rintro ⟨hbase, hcode⟩
      refine ⟨(e.2, e.1), (horder _).mem_iff.mpr ?_, rfl⟩
      exact (mem_dictionary_iff hd hparse hfile hinit (e.2, e.1)).mpr ⟨hbase, hcode⟩
  have hlookup : c.decodingTable.lookup (d.code base v) =
      ((order c.dictionary).map fun e => (e.2, e.1)).lookup (d.code base v) := by
    rw [(tables_initializeColumn hinit).2, lookup_foldl_enter, List.nil_append]
  obtain ⟨l, hl⟩ := exists_lookup_of_mem ((hmem (d.code base v, v)).mpr ⟨hv, rfl⟩)
  obtain ⟨hbase, hcode⟩ := (hmem _).mp (mem_of_lookup_eq_some hl)
  exact ⟨l, hbase, hcode, hlookup.trans hl⟩

end Load

/-! ## The inverse -/

/-- A line's code is decoded to a line with the same typed value, a code of the column is the code of what it is decoded
to, and all numbers below the number of distinct values are codes. -/
structure MutuallyInverse (d : DataType) (base file : List Line) (c : Column) : Prop where
  decompress_compress : ∀ v ∈ base,
    d.cmp ((c.compressValue v).2.decompressValue (c.compressValue v).1).1 v = .eq
  compress_decompress : ∀ line ∈ file,
    ((c.decompressValue (BitVec.ofInt 32 (atoi line))).2.compressValue
      (c.decompressValue (BitVec.ofInt 32 (atoi line))).1).1 = BitVec.ofInt 32 (atoi line)
  onto : ∀ code < d.distinctValues base, decimal code ∈ file

/-- Up to `2 ^ 32` values, and for every order in which the dictionary is iterated. -/
theorem mutuallyInverse {d : DataType} {base file : List Line} {comp : Compressor} {colSize : Int}
    {metaFile : List Line} {order : List (Line × BitVec 32) → List (Line × BitVec 32)} {c : Column} (hd : d ≠ .double)
    (hn : d = .string → d.distinctValues base ≤ 2 ^ 32)
    (hparse : (Compressor.new d).parseColumn (some base) = (comp, true))
    (hfile : comp.writeCompressedValues base = file) (horder : ∀ l, (order l).Perm l)
    (hinit : (Column.new colSize).initializeColumn metaFile base file order = some c) :
    MutuallyInverse d base file c := by
  have h : Loaded d base file c := ⟨⟨comp, hparse, hfile⟩, colSize, metaFile, order, hinit⟩
  have hdecode : ∀ v ∈ base, ∃ l ∈ base, d.code base l = d.code base v ∧
      c.decompressValue (d.code base v) = (l, c) := by
    intro v hv
    obtain ⟨l, hl, hcode, hlookup⟩ := lookup_decodingTable hd hparse hfile horder hinit hv
    refine ⟨l, hl, hcode, ?_⟩
    rw [Column.decompressValue, hlookup]
  refine ⟨?_, ?_, ?_⟩
  · intro v hv
    obtain ⟨l, hl, hcode, hdec⟩ := hdecode v hv
    rw [h.compressValue_of_mem hd hv]
    simp only [hdec]
    rw [← rank_eq_rank_iff_cmp hd hl hv, ← toNat_code hd hn hl, ← toNat_code hd hn hv, hcode]
  · intro line hline
    rw [h.file_eq hd] at hline
    obtain ⟨v, hv, rfl⟩ := List.mem_map.mp hline
    obtain ⟨l, hl, hcode, hdec⟩ := hdecode v hv
    rw [ofInt_atoi_decimal, hdec]
    simp only
    rw [h.compressValue_of_mem hd hl, hcode]
  · intro code hcode
    obtain ⟨v, hv, rfl⟩ := exists_rank_eq hd hcode
    rw [h.file_eq hd, ← toNat_code hd hn hv]
    exact List.mem_map_of_mem hv

/-- Three rows with two values. -/
theorem mutuallyInverse_three : ∃ file c, MutuallyInverse .int ["1993".toList, "1992".toList, "1993".toList] file c := by
  obtain ⟨comp, hparse⟩ := exists_parseColumn .int ["1993".toList, "1992".toList, "1993".toList]
  obtain ⟨c, hinit⟩ := initializeColumn_isSome ["distinct_values: ".toList, "bit_encoding: ".toList,
    "data_type: ".toList] (by decide) (by decide) (by decide) (Column.new 3) ["1993".toList, "1992".toList, "1993".toList]
    (comp.writeCompressedValues ["1993".toList, "1992".toList, "1993".toList]) List.reverse
  exact ⟨_, c, mutuallyInverse (by decide) (by decide) hparse rfl List.reverse_perm hinit⟩

/-- With more than `2 ^ 32` strings two of them have the code 0, and only one of them is what 0 is decoded to. -/
theorem not_mutuallyInverse {base file : List Line} {c : Column} (hmany : 2 ^ 32 < DataType.string.distinctValues base)
    (h : Loaded .string base file c) : ¬ MutuallyInverse .string base file c := by
  intro hinv
  have hd : DataType.string ≠ .double := by decide
  obtain ⟨v, hv, hrank⟩ := exists_rank_eq (d := .string) hd ((Nat.zero_le _).trans_lt hmany)
  obtain ⟨w, hw, hrank'⟩ := exists_rank_eq (d := .string) hd hmany
  have hcode : DataType.string.code base v = DataType.string.code base w := by
    rw [DataType.code, DataType.code, hrank, hrank']
    rfl
  have hv' := hinv.decompress_compress v hv
  have hw' := hinv.decompress_compress w hw
  rw [h.compressValue_of_mem hd hv] at hv'
  rw [h.compressValue_of_mem hd hw, ← hcode] at hw'
  have heq : v = w := (Std.compare_eq_iff_eq.mp hv').symm.trans (Std.compare_eq_iff_eq.mp hw')
  rw [heq, hrank'] at hrank
  exact absurd hrank (by decide)

/-- More strings than there are codes. -/
theorem code_decoded_once : ∃ base comp metaFile c, (Compressor.new .string).parseColumn (some base) = (comp, true) ∧
    (Column.new 0).initializeColumn metaFile base (comp.writeCompressedValues base) id = some c ∧
    ¬ MutuallyInverse .string base (comp.writeCompressedValues base) c := by
  have hnodup : ((List.range (2 ^ 32 + 1)).map decimal).Nodup := List.nodup_range.map decimal_injective
  obtain ⟨comp, hparse⟩ := exists_parseColumn .string ((List.range (2 ^ 32 + 1)).map decimal)
  obtain ⟨c, hinit⟩ := initializeColumn_isSome ["distinct_values: ".toList, "bit_encoding: ".toList,
    "data_type: ".toList] (by decide) (by decide) (by decide) (Column.new 0) ((List.range (2 ^ 32 + 1)).map decimal)
    (comp.writeCompressedValues ((List.range (2 ^ 32 + 1)).map decimal)) id
  refine ⟨_, comp, _, c, hparse, hinit, not_mutuallyInverse ?_ ⟨⟨comp, hparse, rfl⟩, 0, _, id, hinit⟩⟩
  show 2 ^ 32 < ((List.range (2 ^ 32 + 1)).map decimal).dedup.length
  rw [hnodup.dedup, List.length_map, List.length_range]
  exact Nat.lt_succ_self _

end SdbFpga.Data
