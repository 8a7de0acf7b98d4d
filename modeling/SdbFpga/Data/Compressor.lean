import Mathlib.Data.List.Dedup
import Mathlib.Data.Nat.Log
import Std.Data.TreeMap
import SdbFpga.Data.Partition

/-!
# `Compressor`: dictionary encoding of a column

`parseColumn` collects the distinct values of `base.dat` in a map ordered by value and numbers them in that order;
`writeCompressedValues` and `writeMetaData` produce `compressed.dat` and `meta.dat`.

* `countKeys`, `orderKeys` : the two loops of `parseColumn`, for either kind of key;
* `Compressor.parseColumn`, `writeCompressedValues`, `writeMetaData`;
* `codeOf_eq` : a value's code is its position among the distinct values in order, `codeOf_eq_zero_iff` : code 0 is
  the smallest value;
* `DataType.codes`, `parseColumn_spec` : the rows of `compressed.dat`;
* `rawBitSize_eq` : the smallest width is chosen for up to 128 keys.
-/

namespace SdbFpga.Data
open Text Std

/-! ## The loops of `parseColumn` -/

section Keys
variable {K : Type} [Ord K]

/-- New keys are entered with code -1 and counted. -/
def countKeys : TreeMap K (BitVec 32) → Int → List K → TreeMap K (BitVec 32) × Int
  | m, distinctKeys, [] => (m, distinctKeys)
  | m, distinctKeys, k :: ks =>
    if m.contains k then countKeys m distinctKeys ks else countKeys (m.insert k (-1)) (distinctKeys + 1) ks

/-- The keys are numbered in the order of the map. -/
def orderKeys (m : TreeMap K (BitVec 32)) : TreeMap K (BitVec 32) :=
  (m.toList.foldl (fun s curPair => (s.1.insert curPair.1 (BitVec.ofInt 32 s.2), s.2 + 1)) (m, (0 : Int))).1

variable [TransOrd K]

/-- The counter counts the keys of the map. -/
theorem countKeys_size (ks : List K) : ∀ (m : TreeMap K (BitVec 32)) (d : Int),
    (countKeys m d ks).2 = d + (countKeys m d ks).1.size - m.size := by
  induction ks with
  | nil =>
    intro m d
    simp only [countKeys]
    omega
  | cons a ks ih =>
    intro m d
    rw [countKeys]
    cases ha : m.contains a
    · have hsize : (m.insert a (-1)).size = m.size + 1 := by
        rw [TreeMap.size_insert, if_neg (by rw [ha]; simp)]
      rw [if_neg (by simp), ih, hsize]
      omega
    · rw [if_pos rfl, ih]

variable [LawfulEqOrd K]

theorem mem_countKeys (ks : List K) : ∀ (m : TreeMap K (BitVec 32)) (d : Int) (k : K),
    k ∈ (countKeys m d ks).1 ↔ k ∈ m ∨ k ∈ ks := by
  induction ks with
  | nil => simp [countKeys]
  | cons a ks ih =>
    intro m d k
    rw [countKeys]
    cases ha : m.contains a
    · rw [if_neg (by simp), ih, TreeMap.mem_insert, List.mem_cons, Std.compare_eq_iff_eq]
      constructor
      · rintro ((rfl | h) | h)
        · exact .inr (.inl rfl)
        · exact .inl h
        · exact .inr (.inr h)
      · rintro (h | rfl | h)
        · exact .inl (.inr h)
        · exact .inl (.inl rfl)
        · exact .inr h
    · rw [if_pos rfl, ih, List.mem_cons]
      constructor
      · rintro (h | h)
        · exact .inl h
        · exact .inr (.inr h)
      · rintro (h | rfl | h)
        · exact .inl h
        · exact .inl (TreeMap.mem_iff_contains.mpr ha)
        · exact .inr h

theorem foldl_insert_of_not_mem (l : List (K × BitVec 32)) : ∀ (s : TreeMap K (BitVec 32) × Int) (k : K),
    (∀ p ∈ l, p.1 ≠ k) →
    (l.foldl (fun s p => (s.1.insert p.1 (BitVec.ofInt 32 s.2), s.2 + 1)) s).1[k]? = s.1[k]? := by
  induction l with
  | nil =>
    intro s k _
    rfl
  | cons p l ih =>
    intro s k hk
    rw [List.forall_mem_cons] at hk
    rw [List.foldl_cons, ih _ _ hk.2, TreeMap.getElem?_insert, if_neg]
    rw [Std.compare_eq_iff_eq]
    exact hk.1

/-- Numbering from `s.2` on: the `j`-th key gets code `s.2 + j`. -/
theorem foldl_insert_getElem (l : List (K × BitVec 32)) : ∀ (s : TreeMap K (BitVec 32) × Int),
    (l.map Prod.fst).Nodup → ∀ j (hj : j < l.length),
    (l.foldl (fun s p => (s.1.insert p.1 (BitVec.ofInt 32 s.2), s.2 + 1)) s).1[l[j].1]? =
      some (BitVec.ofInt 32 (s.2 + j)) := by
  induction l with
  | nil =>
    intro s _ j hj
    cases hj
  | cons p l ih =>
    intro s hnd j hj
    rw [List.map_cons, List.nodup_cons] at hnd
    cases j with
    | zero =>
      have hnot : ∀ q ∈ l, q.1 ≠ p.1 := by
        intro q hq he
        exact hnd.1 (List.mem_map.mpr ⟨q, hq, he⟩)
      rw [List.getElem_cons_zero, List.foldl_cons, foldl_insert_of_not_mem l _ _ hnot, TreeMap.getElem?_insert_self]
      simp
    | succ j =>
      rw [List.getElem_cons_succ, List.foldl_cons, ih _ hnd.2 j (Nat.lt_of_succ_lt_succ hj)]
      congr 2
      push_cast
      omega

/-- The code of a key is its position in the map. -/
theorem orderKeys_getElem (m : TreeMap K (BitVec 32)) (j : Nat) (hj : j < m.keys.length) :
    (orderKeys m)[m.keys[j]]? = some (BitVec.ofNat 32 j) := by
  have hnd : (m.toList.map Prod.fst).Nodup := by
    rw [TreeMap.map_fst_toList_eq_keys]
    exact TreeMap.nodup_keys
  have hlen : m.toList.length = m.keys.length := by
    rw [← TreeMap.map_fst_toList_eq_keys, List.length_map]
  have hj' : j < m.toList.length := hlen ▸ hj
  have hkey : m.keys[j] = m.toList[j].1 := by
    simp [← TreeMap.map_fst_toList_eq_keys]
  rw [hkey, orderKeys, foldl_insert_getElem _ _ hnd j hj', zero_add, BitVec.ofInt_natCast]

/-- Number of distinct values among `ks`. -/
def distinct (ks : List K) : Nat := (countKeys ∅ (-1) ks).1.size

theorem distinct_eq [DecidableEq K] (ks : List K) : distinct ks = ks.dedup.length := by
  have hperm : (countKeys ∅ (-1) ks).1.keys.Perm ks.dedup := by
    rw [List.perm_ext_iff_of_nodup TreeMap.nodup_keys ks.nodup_dedup]
    intro k
    rw [TreeMap.mem_keys, mem_countKeys, List.mem_dedup]
    exact or_iff_right TreeMap.not_mem_emptyc
  rw [distinct, ← TreeMap.length_keys]
  exact hperm.length_eq

/-- The counter of `parseColumn` starts at -1. -/
theorem countKeys_empty [DecidableEq K] (ks : List K) : (countKeys ∅ (-1) ks).2 = (ks.dedup.length : Int) - 1 := by
  have hcount := countKeys_size ks ∅ (-1)
  rw [← distinct_eq, distinct]
  rw [TreeMap.size_emptyc] at hcount
  omega

/-- The code of `k` after the values `ks` have been numbered. -/
def codeOf (ks : List K) (k : K) : BitVec 32 := (orderKeys (countKeys ∅ (-1) ks).1).getD k 0

/-- The code of a value is its position among the distinct values in order. -/
theorem codeOf_eq (ks : List K) {k : K} (hk : k ∈ ks) : ∃ (j : Nat) (hj : j < (countKeys ∅ (-1) ks).1.keys.length),
    (countKeys ∅ (-1) ks).1.keys[j] = k ∧ j < distinct ks ∧ codeOf ks k = BitVec.ofNat 32 j := by
  have hmem : k ∈ (countKeys ∅ (-1) ks).1.keys := by
    rw [TreeMap.mem_keys, mem_countKeys]
    exact .inr hk
  obtain ⟨j, hj, he⟩ := List.getElem_of_mem hmem
  refine ⟨j, hj, he, ?_, ?_⟩
  · rw [distinct, ← TreeMap.length_keys]
    exact hj
  · rw [codeOf, TreeMap.getD_eq_getD_getElem?, ← he, orderKeys_getElem _ j hj]
    rfl

/-- Code 0 is the smallest value. -/
theorem codeOf_eq_zero_iff (ks : List K) (hn : distinct ks ≤ 2 ^ 32) {k : K} (hk : k ∈ ks) :
    codeOf ks k = 0 ↔ ∀ k' ∈ ks, (compare k k').isLE = true := by
  obtain ⟨j, hj, hkey, hlt, hcode⟩ := codeOf_eq ks hk
  have hord : (countKeys ∅ (-1) ks).1.keys.Pairwise fun a b => compare a b = .lt := TreeMap.ordered_keys
  have hzero : codeOf ks k = 0 ↔ j = 0 := by
    rw [hcode, ← BitVec.toNat_inj, BitVec.toNat_ofNat, Nat.mod_eq_of_lt (by omega)]
    rfl
  rw [hzero]
  constructor
  · rintro rfl k' hk'
    obtain ⟨i, hi, hkey', _⟩ := codeOf_eq ks hk'
    rw [← hkey, ← hkey']
    rcases Nat.eq_zero_or_pos i with rfl | hpos
    · rw [compare_self]
      rfl
    · rw [List.pairwise_iff_getElem.mp hord 0 i hj hi hpos]
      rfl
  · intro hall
    by_contra hne
    have hpos : 0 < j := Nat.pos_of_ne_zero hne
    have hfirst : (countKeys ∅ (-1) ks).1.keys[0] ∈ ks := by
      have hin : (countKeys ∅ (-1) ks).1.keys[0] ∈ (countKeys ∅ (-1) ks).1.keys := List.getElem_mem _
      rw [TreeMap.mem_keys, mem_countKeys] at hin
      exact hin.resolve_left TreeMap.not_mem_emptyc
    have hgt : compare k (countKeys ∅ (-1) ks).1.keys[0] = .gt := by
      rw [← hkey]
      exact OrientedCmp.gt_of_lt (List.pairwise_iff_getElem.mp hord 0 j (by omega) hj hpos)
    have hle := hall _ hfirst
    rw [hgt] at hle
    cases hle

end Keys

/-! ## The class -/

/-- `data_type_t`. -/
inductive DataType
  | int
  | double
  | string
  deriving DecidableEq, Repr

/-- The enumerator's value. -/
def DataType.toNat : DataType → Nat
  | .int => 0
  | .double => 1
  | .string => 2

/-- `Compressor`. -/
structure Compressor where
  dataType : DataType
  bitMappingInt : TreeMap Int (BitVec 32)
  bitMappingStr : TreeMap Line (BitVec 32)
  distinctKeys : Int
  bitSize : Int

/-- The constructor. -/
def Compressor.new (dataType : DataType) : Compressor where
  dataType := dataType
  bitMappingInt := ∅
  bitMappingStr := ∅
  distinctKeys := -1
  bitSize := -1

/-- `parseColumn`, on the lines of `base.dat`; false when there is no such file. -/
def Compressor.parseColumn (c : Compressor) : Option (List Line) → Compressor × Bool
  | none => (c, false)
  | some base =>
    match c.dataType with
    | .int =>
      let r := countKeys c.bitMappingInt c.distinctKeys (base.map atoi)
      ({ c with bitMappingInt := orderKeys r.1, distinctKeys := r.2 }, true)
    | .string =>
      let r := countKeys c.bitMappingStr c.distinctKeys base
      ({ c with bitMappingStr := orderKeys r.1, distinctKeys := r.2 }, true)
    | .double => (c, true)

/-- `writeCompressedValues`: the lines of `compressed.dat`. -/
def Compressor.writeCompressedValues (c : Compressor) (base : List Line) : List Line :=
  match c.dataType with
  | .int => base.map fun valStr => decimal (c.bitMappingInt.getD (atoi valStr) 0).toNat
  | .string => base.map fun valStr => decimal (c.bitMappingStr.getD valStr 0).toNat
  | .double => []

/-- `(int) ceil(log2(x))`; of a number below 1 there is no logarithm to convert. -/
def ceilLog2 (x : Int) : Option Int := if 1 ≤ x then some (Nat.clog 2 x.toNat) else none

/-- The first width of `writeMetaData`, from the number of keys counted. -/
def rawBitSize (distinctKeys : Int) : Option Int :=
  if distinctKeys = 1 then some 1
  else
    (ceilLog2 distinctKeys).bind fun round =>
      (ceilLog2 round).map fun bitSize => 2 ^ (if 2 ^ bitSize.toNat = round then bitSize + 1 else bitSize).toNat - 1

/-- The width is rounded up to 7, 15 or 31. -/
def bucket (bitSize : Int) : Int := if bitSize < 8 then 7 else if bitSize < 16 then 15 else 31

/-- An `int` as a stream insertion writes it. -/
def showInt (x : Int) : Line := if x < 0 then '-' :: decimal x.natAbs else decimal x.natAbs

/-- `writeMetaData`: the lines of `meta.dat`. -/
def Compressor.writeMetaData (c : Compressor) : Option (Compressor × List Line) :=
  (rawBitSize c.distinctKeys).map fun bitSize =>
    ({ c with bitSize := bucket bitSize },
      ["distinct_values: ".toList ++ showInt c.distinctKeys, "bit_encoding: ".toList ++ showInt (bucket bitSize),
        "data_type: ".toList ++ showInt c.dataType.toNat])

/-- The lines as a label, a colon, a blank and a number. -/
theorem writeMetaData_eq (c : Compressor) : c.writeMetaData = (rawBitSize c.distinctKeys).map fun bitSize =>
    ({ c with bitSize := bucket bitSize },
      ["distinct_values".toList ++ ':' :: ' ' :: showInt c.distinctKeys,
        "bit_encoding".toList ++ ':' :: ' ' :: showInt (bucket bitSize),
        "data_type".toList ++ ':' :: ' ' :: showInt c.dataType.toNat]) := by
  simp [Compressor.writeMetaData]

/-! ## The values of a column -/

/-- The number of distinct values in `base.dat`. -/
def DataType.distinctValues (d : DataType) (base : List Line) : Nat :=
  match d with
  | .int => (base.map atoi).dedup.length
  | .string => base.dedup.length
  | .double => 0

/-- `line` holds the smallest value of the column. -/
def DataType.IsSmallest (d : DataType) (base : List Line) (line : Line) : Prop :=
  match d with
  | .int => ∀ l ∈ base, atoi line ≤ atoi l
  | .string => ∀ l ∈ base, (compare line l).isLE = true
  | .double => True

instance (d : DataType) (base : List Line) (line : Line) : Decidable (d.IsSmallest base line) :=
  match d with
  | .int => inferInstanceAs (Decidable (∀ l ∈ base, atoi line ≤ atoi l))
  | .string => inferInstanceAs (Decidable (∀ l ∈ base, (compare line l).isLE = true))
  | .double => inferInstanceAs (Decidable True)

/-- The code of every row. -/
def DataType.codes (d : DataType) (base : List Line) : List Nat :=
  match d with
  | .int => base.map fun l => (codeOf (base.map atoi) (atoi l)).toNat
  | .string => base.map fun l => (codeOf base l).toNat
  | .double => []

section Values
variable {d : DataType} {base : List Line} (hpos : 0 < d.distinctValues base)
include hpos

theorem length_codes : (d.codes base).length = base.length := by
  match d with
  | .int => exact List.length_map _
  | .string => exact List.length_map _

theorem lt_of_mem_codes {x : Nat} (hx : x ∈ d.codes base) : x < d.distinctValues base := by
  have hlt : ∀ {K : Type} [Ord K] [TransOrd K] [LawfulEqOrd K] (ks : List K) {k : K}, k ∈ ks →
      (codeOf ks k).toNat < distinct ks := by
    intro K _ _ _ ks k hk
    obtain ⟨j, _, _, hj, hcode⟩ := codeOf_eq ks hk
    rw [hcode, BitVec.toNat_ofNat]
    exact (Nat.mod_le _ _).trans_lt hj
  match d with
  | .int =>
    obtain ⟨l, hl, rfl⟩ := List.mem_map.mp hx
    exact (hlt _ (List.mem_map_of_mem hl)).trans_eq (distinct_eq _)
  | .string =>
    obtain ⟨l, hl, rfl⟩ := List.mem_map.mp hx
    exact (hlt _ hl).trans_eq (distinct_eq _)

/-- The rows of the smallest value are the rows with code 0. -/
theorem codes_eq_zero_iff (hn : d.distinctValues base ≤ 2 ^ 32) {i : Nat} (hi : i < (d.codes base).length)
    (hi' : i < base.length) : (d.codes base)[i] = 0 ↔ d.IsSmallest base base[i] := by
  match d with
  | .int =>
    have hzero := codeOf_eq_zero_iff (base.map atoi) (by rw [distinct_eq]; exact hn)
      (List.mem_map_of_mem (List.getElem_mem hi'))
    simp only [DataType.codes, List.getElem_map]
    rw [← BitVec.toNat_inj] at hzero
    simp only [List.forall_mem_map, Std.isLE_compare] at hzero
    exact hzero
  | .string =>
    have hzero := codeOf_eq_zero_iff base (by rw [distinct_eq]; exact hn) (List.getElem_mem hi')
    simp only [DataType.codes, List.getElem_map]
    rw [← BitVec.toNat_inj] at hzero
    exact hzero

/-- What `parseColumn` and `writeCompressedValues` produce. -/
theorem parseColumn_spec {comp : Compressor} (h : (Compressor.new d).parseColumn (some base) = (comp, true)) :
    comp.writeCompressedValues base = (d.codes base).map decimal ∧ comp.dataType = d ∧
      comp.distinctKeys = (d.distinctValues base : Int) - 1 := by
  match d with
  | .int =>
    cases h
    refine ⟨?_, rfl, countKeys_empty _⟩
    simp only [Compressor.writeCompressedValues, DataType.codes, Compressor.new, List.map_map]
    rfl
  | .string =>
    cases h
    refine ⟨?_, rfl, countKeys_empty _⟩
    simp only [Compressor.writeCompressedValues, DataType.codes, Compressor.new, List.map_map]
    rfl

end Values

/-- `parseColumn` fails only without a file. -/
theorem exists_parseColumn (d : DataType) (base : List Line) :
    ∃ comp, (Compressor.new d).parseColumn (some base) = (comp, true) := by
  cases d <;> exact ⟨_, rfl⟩

/-! ## Widths -/

theorem bucket_two_pow_iff (e : Nat) : bucket (2 ^ e - 1) = 7 ↔ e ≤ 3 := by
  constructor
  · intro hseven
    by_contra hlt
    have hpow : 2 ^ 4 ≤ 2 ^ e := Nat.pow_le_pow_right (by decide) (by omega)
    have hcast : (2 : Int) ^ e = (2 ^ e : Nat) := by push_cast; rfl
    rw [hcast] at hseven
    unfold bucket at hseven
    split at hseven
    · omega
    · split at hseven <;> omega
  · intro hle
    have hall : ∀ e' : Nat, e' ≤ 3 → bucket (2 ^ e' - 1) = 7 := by decide
    exact hall e hle

/-- The width of `round`, one bit more for a power of two. -/
theorem width_le_three_iff (round : Nat) :
    (if 2 ^ Nat.clog 2 round = round then Nat.clog 2 round + 1 else Nat.clog 2 round) ≤ 3 ↔ round ≤ 7 := by
  have hle : round ≤ 2 ^ Nat.clog 2 round := Nat.le_pow_clog (by decide) round
  have hthree : Nat.clog 2 round ≤ 3 ↔ round ≤ 2 ^ 3 := Nat.clog_le_iff_le_pow (by decide)
  have htwo : Nat.clog 2 round ≤ 2 ↔ round ≤ 2 ^ 2 := Nat.clog_le_iff_le_pow (by decide)
  by_cases hpow : 2 ^ Nat.clog 2 round = round
  · have hfour : round ≤ 7 → Nat.clog 2 round ≠ 3 := by
      intro hround heq
      rw [heq] at hpow
      omega
    rw [if_pos hpow]
    omega
  · have hne : round = 8 → Nat.clog 2 round ≠ 3 := by
      intro hround heq
      rw [heq, hround] at hpow
      exact hpow rfl
    rw [if_neg hpow]
    omega

/-- The smallest width is chosen for up to 128 keys counted. -/
theorem rawBitSize_eq {d : Int} (h1 : 1 ≤ d) : ∃ b, rawBitSize d = some b ∧ (bucket b = 7 ↔ d ≤ 128) := by
  unfold rawBitSize
  by_cases hd : d = 1
  · rw [if_pos hd]
    exact ⟨1, rfl, iff_of_true rfl (by omega)⟩
  · have hpos : 1 ≤ Nat.clog 2 d.toNat := Nat.clog_pos (by decide) (by omega)
    have hround : Nat.clog 2 d.toNat ≤ 7 ↔ d ≤ 128 := by
      rw [Nat.clog_le_iff_le_pow (by decide)]
      omega
    rw [if_neg hd, ceilLog2, if_pos h1, Option.bind_some, ceilLog2, if_pos (by omega), Option.map_some]
    refine ⟨_, rfl, ?_⟩
    rw [bucket_two_pow_iff, ← hround, ← width_le_three_iff]
    simp only [Int.toNat_natCast]
    generalize Nat.clog 2 d.toNat = round
    have hcond : (2 : Int) ^ Nat.clog 2 round = round ↔ 2 ^ Nat.clog 2 round = round := by
      norm_cast
    by_cases hpow : 2 ^ Nat.clog 2 round = round
    · rw [if_pos hpow, if_pos (hcond.mpr hpow)]
      exact Iff.rfl
    · rw [if_neg hpow, if_neg (hpow ∘ hcond.mp)]
      exact Iff.rfl

end SdbFpga.Data
