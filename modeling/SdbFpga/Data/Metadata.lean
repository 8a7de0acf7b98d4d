import SdbFpga.Data.Dictionary

/-!
# `meta.dat`: is it well defined, and is it true?

The counter of `parseColumn` starts at -1, so `writeMetaData` takes its logarithms of one less than the number of
distinct values, and writes that.

* `log2Args` : the arguments of `log2`, `rawBitSize_isSome_iff` : the width is defined when they are positive;
* `width_spec`, `rawBitSize_spec` : the width is enough for the keys counted;
* `CodesFit`, `codesFit` : the codes fit the width that the column is loaded with;
* `MetaTruthful`, `not_metaTruthful` : the number of distinct values is never the one written.
-/

namespace SdbFpga.Data
open Text

/-- The arguments of the calls of `log2` that `writeMetaData` reaches; the second one is the first one's logarithm. -/
def log2Args (distinctKeys : Int) : List Int :=
  if distinctKeys = 1 then [] else distinctKeys :: (ceilLog2 distinctKeys).toList

/-- The width is defined exactly if no logarithm of a number below 1 is taken. -/
theorem rawBitSize_isSome_iff (distinctKeys : Int) :
    (rawBitSize distinctKeys).isSome = true ↔ ∀ x ∈ log2Args distinctKeys, 1 ≤ x := by
  unfold rawBitSize log2Args
  by_cases hone : distinctKeys = 1
  · simp [hone]
  · rw [if_neg hone, if_neg hone, List.forall_mem_cons]
    by_cases hpos : 1 ≤ distinctKeys
    · obtain ⟨round, hround⟩ : ∃ round, ceilLog2 distinctKeys = some round := ⟨_, if_pos hpos⟩
      rw [hround, and_iff_right hpos]
      simp only [Option.bind_some, Option.isSome_map, Option.toList_some, List.mem_singleton, forall_eq]
      unfold ceilLog2
      split <;> simp [*]
    · have hnone : ceilLog2 distinctKeys = none := if_neg hpos
      simp [hnone, hpos]

/-! ## Widths -/

/-- `round` has at most `width` bits, where a power of two is counted with one bit more. -/
theorem lt_two_pow_width (round : Nat) :
    round < 2 ^ (if 2 ^ Nat.clog 2 round = round then Nat.clog 2 round + 1 else Nat.clog 2 round) := by
  have hle : round ≤ 2 ^ Nat.clog 2 round := Nat.le_pow_clog (by decide) round
  split
  · exact hle.trans_lt (Nat.pow_lt_pow_right (by decide) (Nat.lt_succ_self _))
  · next hpow => exact Nat.lt_of_le_of_ne hle (Ne.symm hpow)

/-- Up to 31 needs five bits. -/
theorem width_le_five {round : Nat} (h : round ≤ 31) :
    (if 2 ^ Nat.clog 2 round = round then Nat.clog 2 round + 1 else Nat.clog 2 round) ≤ 5 := by
  have hfive : Nat.clog 2 round ≤ 5 := (Nat.clog_le_iff_le_pow (by decide)).mpr (by omega)
  split
  · next hpow =>
    by_contra hlt
    have heq : Nat.clog 2 round = 5 := by omega
    rw [heq] at hpow
    omega
  · exact hfive

/-- A width is rounded up to one of three. -/
theorem bucket_cases (bitSize : Int) : bucket bitSize = 7 ∨ bucket bitSize = 15 ∨ bucket bitSize = 31 := by
  unfold bucket
  split
  · exact .inl rfl
  · split
    · exact .inr (.inl rfl)
    · exact .inr (.inr rfl)

theorem le_bucket {bitSize : Int} (h : bitSize ≤ 31) : bitSize ≤ bucket bitSize := by
  unfold bucket
  split
  · omega
  · split <;> omega

/-- The width that is written has `2 ^ width` codes for `k` keys counted, and one more. -/
theorem rawBitSize_spec {k : Nat} (h1 : 1 ≤ k) (hlt : k < 2 ^ 31) :
    ∃ bitSize, rawBitSize k = some bitSize ∧ k ≤ 2 ^ (bucket bitSize).toNat := by
  unfold rawBitSize
  by_cases hone : (k : Int) = 1
  · rw [if_pos hone]
    refine ⟨1, rfl, ?_⟩
    have hseven : (bucket 1).toNat = 7 := rfl
    rw [hseven]
    omega
  · have hround : 1 ≤ Nat.clog 2 k := Nat.clog_pos (by decide) (by omega)
    have hmax : Nat.clog 2 k ≤ 31 := (Nat.clog_le_iff_le_pow (by decide)).mpr (by omega)
    have hk : k ≤ 2 ^ Nat.clog 2 k := Nat.le_pow_clog (by decide) k
    rw [if_neg hone, ceilLog2, if_pos (by omega), Int.toNat_natCast, Option.bind_some, ceilLog2, if_pos (by omega),
      Int.toNat_natCast, Option.map_some]
    refine ⟨_, rfl, ?_⟩
    simp only [Int.toNat_natCast]
    generalize Nat.clog 2 k = round at hround hmax hk
    have hcond : (2 : Int) ^ Nat.clog 2 round = round ↔ 2 ^ Nat.clog 2 round = round := by
      norm_cast
    have hwidth : (if (2 : Int) ^ Nat.clog 2 round = round then (Nat.clog 2 round : Int) + 1 else Nat.clog 2 round).toNat =
        if 2 ^ Nat.clog 2 round = round then Nat.clog 2 round + 1 else Nat.clog 2 round := by
      by_cases hpow : 2 ^ Nat.clog 2 round = round
      · rw [if_pos (hcond.mpr hpow), if_pos hpow]
        rfl
      · rw [if_neg (hpow ∘ hcond.mp), if_neg hpow]
        rfl
    rw [hwidth]
    have hbits := lt_two_pow_width round
    have hfive := width_le_five hmax
    generalize (if 2 ^ Nat.clog 2 round = round then Nat.clog 2 round + 1 else Nat.clog 2 round) = width at hbits hfive
    -- the width in bits is at least `round`
    have hle : 2 ^ width ≤ 2 ^ 5 := Nat.pow_le_pow_right (by decide) hfive
    have hcast : (2 : Int) ^ width = (2 ^ width : Nat) := by push_cast; rfl
    have hbucket : (2 : Int) ^ width - 1 ≤ bucket (2 ^ width - 1) := le_bucket (by rw [hcast]; omega)
    exact hk.trans (Nat.pow_le_pow_right (by decide) (by omega))

/-! ## What is written, and what is read back -/

/-- The codes fit the width in `meta.dat`, which is the one that the column is loaded with. -/
structure CodesFit (d : DataType) (base : List Line) (comp : Compressor) (metaFile : List Line) : Prop where
  width : comp.bitSize = 7 ∨ comp.bitSize = 15 ∨ comp.bitSize = 31
  loaded : ∀ (c : Column) (base compressed : List Line) (order : List (Line × BitVec 32) → List (Line × BitVec 32)),
    ∃ c', c.initializeColumn metaFile base compressed order = some c' ∧ c'.numOfBits = comp.bitSize + 1
  codes : ∀ line ∈ comp.writeCompressedValues base, ∃ code, line = decimal code ∧ code < d.distinctValues base
  fit : ∀ code < d.distinctValues base, code < 2 ^ (comp.bitSize.toNat + 1)

section Write
variable {d : DataType} {base : List Line} {comp : Compressor}
  (hparse : (Compressor.new d).parseColumn (some base) = (comp, true))
include hparse

/-- For 2 to `2 ^ 31 - 1` distinct values. -/
theorem codesFit (h2 : 2 ≤ d.distinctValues base) (hlt : d.distinctValues base < 2 ^ 31) :
    ∃ comp' metaFile, comp.writeMetaData = some (comp', metaFile) ∧ CodesFit d base comp' metaFile := by
  obtain ⟨hfile, _, hkeys⟩ := parseColumn_spec (by omega) hparse
  obtain ⟨k, hk⟩ : ∃ k : Nat, d.distinctValues base = k + 1 := ⟨d.distinctValues base - 1, by omega⟩
  have hcount : comp.distinctKeys = k := by
    rw [hkeys, hk]
    omega
  obtain ⟨bitSize, hraw, hle⟩ := rawBitSize_spec (k := k) (by omega) (by omega)
  have hmeta := writeMetaData_eq comp
  rw [hcount, hraw, Option.map_some] at hmeta
  have hcases := bucket_cases bitSize
  refine ⟨_, _, hmeta, hcases, ?_, ?_, ?_⟩
  · intro c base' compressed order
    obtain ⟨c', hinit⟩ := exists_initializeColumn hmeta c base' compressed order
    refine ⟨c', hinit, ?_⟩
    have hline : afterColon ("bit_encoding".toList ++ ':' :: ' ' :: showInt (bucket bitSize)) =
        some (showInt (bucket bitSize)) := afterColon_append (by decide)
    have hbits := (initializeColumn_numOfBits hinit hline).1
    rw [hbits]
    show int32 (atoi (showInt (bucket bitSize)) + 1) = bucket bitSize + 1
    rcases hcases with h | h | h <;> rw [h] <;> decide
  · intro line hline
    have hline' : line ∈ comp.writeCompressedValues base := hline
    rw [hfile, List.mem_map] at hline'
    obtain ⟨code, hcode, rfl⟩ := hline'
    exact ⟨code, rfl, lt_of_mem_codes (by omega) hcode⟩
  · intro code hcode
    have hpow : 2 ^ ((bucket bitSize).toNat + 1) = 2 * 2 ^ (bucket bitSize).toNat := Nat.pow_succ'
    have hpos : 0 < 2 ^ (bucket bitSize).toNat := Nat.two_pow_pos _
    show code < 2 ^ ((bucket bitSize).toNat + 1)
    omega

end Write

/-- Two values. -/
theorem codesFit_two : ∃ comp metaFile, CodesFit .int ["1992".toList, "1993".toList] comp metaFile := by
  obtain ⟨comp, hparse⟩ := exists_parseColumn .int ["1992".toList, "1993".toList]
  obtain ⟨comp', metaFile, _, hfit⟩ := codesFit hparse (by decide) (by decide)
  exact ⟨comp', metaFile, hfit⟩

/-- The logarithms are taken of positive numbers, and the number written is the number of distinct values. -/
structure MetaTruthful (d : DataType) (base : List Line) (comp : Compressor) : Prop where
  logs : ∀ x ∈ log2Args comp.distinctKeys, 1 ≤ x
  distinct : ∀ comp' metaFile, comp.writeMetaData = some (comp', metaFile) →
    metaFile[0]? = some ("distinct_values: ".toList ++ decimal (d.distinctValues base))

section Truth
variable {d : DataType} (hd : d ≠ .double) {base : List Line} (hne : base ≠ []) {comp : Compressor}
  (hparse : (Compressor.new d).parseColumn (some base) = (comp, true))
include hd hne hparse

/-- A column has a value. -/
theorem distinctKeys_eq : 0 < d.distinctValues base ∧ comp.distinctKeys = (d.distinctValues base : Int) - 1 := by
  obtain ⟨x, hx⟩ := List.exists_mem_of_ne_nil base hne
  have hpos : 0 < d.distinctValues base := (Nat.zero_le _).trans_lt (rank_lt_distinctValues hd hx)
  exact ⟨hpos, (parseColumn_spec hpos hparse).2.2⟩

/-- The logarithms are defined for two values or more. -/
theorem log2Args_pos_iff : (∀ x ∈ log2Args comp.distinctKeys, 1 ≤ x) ↔ 2 ≤ d.distinctValues base := by
  obtain ⟨hpos, hkeys⟩ := distinctKeys_eq hd hne hparse
  rw [← rawBitSize_isSome_iff, hkeys]
  constructor
  · intro hsome
    by_contra hlt
    have hone : (d.distinctValues base : Int) - 1 = 0 := by omega
    rw [hone] at hsome
    cases hsome
  · intro h2
    obtain ⟨_, hraw, _⟩ := rawBitSize_eq (d := (d.distinctValues base : Int) - 1) (by omega)
    rw [hraw]
    rfl

/-- No column with a row has a true `meta.dat`. -/
theorem not_metaTruthful : ¬ MetaTruthful d base comp := by
  rintro ⟨hlogs, hdistinct⟩
  obtain ⟨hpos, hkeys⟩ := distinctKeys_eq hd hne hparse
  obtain ⟨bitSize, hraw⟩ := Option.isSome_iff_exists.mp ((rawBitSize_isSome_iff _).mpr hlogs)
  have h2 := (log2Args_pos_iff hd hne hparse).mp hlogs
  unfold Compressor.writeMetaData at hdistinct
  rw [hraw] at hdistinct
  have hline := hdistinct _ _ rfl
  rw [List.getElem?_cons_zero, Option.some.injEq, List.append_cancel_left_eq, hkeys, showInt, if_neg (by omega)] at hline
  have hnum := decimal_injective hline
  omega

end Truth

/-- A column of one value, and of two. -/
theorem not_metaTruthful_one_two : ∃ comp comp',
    (Compressor.new .int).parseColumn (some ["1993".toList]) = (comp, true) ∧
      ¬ MetaTruthful .int ["1993".toList] comp ∧
      (Compressor.new .string).parseColumn (some ["a".toList, "b".toList]) = (comp', true) ∧
      ¬ MetaTruthful .string ["a".toList, "b".toList] comp' := by
  obtain ⟨comp, hparse⟩ := exists_parseColumn .int ["1993".toList]
  obtain ⟨comp', hparse'⟩ := exists_parseColumn .string ["a".toList, "b".toList]
  exact ⟨comp, comp', hparse, not_metaTruthful (by decide) (by decide) hparse, hparse',
    not_metaTruthful (by decide) (by decide) hparse'⟩

/-- Of the one year of a column the logarithm of zero is taken. -/
theorem log2_of_zero : ∃ comp, (Compressor.new .int).parseColumn (some ["1993".toList]) = (comp, true) ∧
    0 ∈ log2Args comp.distinctKeys ∧ ¬ MetaTruthful .int ["1993".toList] comp := by
  obtain ⟨comp, hparse⟩ := exists_parseColumn .int ["1993".toList]
  have hzero : 0 ∈ log2Args comp.distinctKeys := by
    rw [(distinctKeys_eq (by decide) (by decide) hparse).2]
    decide
  exact ⟨comp, hparse, hzero, fun h => absurd (h.logs 0 hzero) (by decide)⟩

end SdbFpga.Data
