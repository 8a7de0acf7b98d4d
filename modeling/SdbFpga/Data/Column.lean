import SdbFpga.Data.Partition

/-!
# `Column`: metadata, pages and the packed column

* `Column.initializeColumn` : width and dictionary from the column's three files, `afterColon_append`;
* `Column.numOfPagesRequired`, `initializePageAlignedPartitions`, `compressColumn`;
* `initializeColumn_numOfBits` : the width is the one in `meta.dat`, plus one;
* `getElem_compressColumn` : page `p` is packed from the lines that start at row `p * partSize`;
* `page_eq`, `lane_page` : where the code of a row stands, `lane_page_of_le` : what stands behind the last row.
-/

namespace SdbFpga.Data
open Bits Text

/-- A computation in `int`, wrapped. -/
def int32 (x : Int) : Int := x.bmod (2 ^ 32)

/-- `Column`. `dictionary` lists the entries of the hash map in the order in which they were entered. -/
structure Column where
  colSize : Int
  numOfBits : Int
  distinctValues : Nat
  dictionary : List (Line × BitVec 32)
  decodingTable : List (BitVec 32 × Line)
  dataType : Int
  numOfPages : Int
  partitions : List Partition

/-- The constructor; the width is set by `initializeColumn`. -/
def Column.new (colSize : Int) : Column where
  colSize := colSize
  numOfBits := 0
  distinctValues := 0
  dictionary := []
  decodingTable := []
  dataType := 2
  numOfPages := 0
  partitions := []

/-- `s.substr(s.find(':') + 2)`, the position an `int`; `substr` throws past the end. -/
def afterColon (s : Line) : Option Line :=
  let splitPos : Int := if ':' ∈ s then s.idxOf ':' else -1
  if (splitPos + 2).toNat ≤ s.length then some (s.drop (splitPos + 2).toNat) else none

/-- An entry is made unless the key has one. -/
def enter {K V : Type} [BEq K] (table : List (K × V)) (entry : K × V) : List (K × V) :=
  if (table.lookup entry.1).isSome then table else table ++ [entry]

/-- `initializeColumn`, on the lines of `meta.dat`, `base.dat` and `compressed.dat`; `order` is the iteration order of
the dictionary. -/
def Column.initializeColumn (c : Column) (metaFile base compressed : List Line)
    (order : List (Line × BitVec 32) → List (Line × BitVec 32)) : Option Column :=
  (afterColon (metaFile.getD 0 [])).bind fun _ =>
    (afterColon (metaFile.getD 1 [])).bind fun bitSize =>
      (afterColon (metaFile.getD 2 [])).map fun dataType =>
        let dictionary := ((base.zip compressed).map fun l => (l.1, BitVec.ofInt 32 (atoi l.2))).foldl enter
          c.dictionary
        { c with
          numOfBits := int32 (atoi bitSize + 1)
          dataType := atoi dataType
          dictionary := dictionary
          distinctValues := dictionary.length
          decodingTable := ((order dictionary).map fun e => (e.2, e.1)).foldl enter c.decodingTable }

/-- `NumOfPagesRequired`. -/
def Column.numOfPagesRequired (c : Column) (pSize : Int) : Int :=
  let totalSize := (int32 (c.numOfBits * c.colSize)).tdiv 8
  let pages := totalSize.tdiv pSize
  if 0 < totalSize.tmod pSize then pages + 1 else pages

/-- `partition_size`: the rows of a page. -/
def Column.partitionSize (c : Column) : Int := ((pageSize : Int) * 8).tdiv c.numOfBits

/-- The partition that starts at row `partId * partition_size`. -/
def Column.pagePartition (c : Column) (fresh : Nat → Nat → Word) (partId : Nat) : Partition :=
  let start := int32 (partId * c.partitionSize)
  .new partId (BitVec.ofInt 32 start) (BitVec.ofInt 32 (int32 (start + c.partitionSize))) (fresh partId)

/-- `initializePageAlignedPartitions`; `fresh p` is the memory partition `p` will be given. -/
def Column.initializePageAlignedPartitions (c : Column) (fresh : Nat → Nat → Word) : Column :=
  { c with
    numOfPages := c.numOfPagesRequired pageSize
    partitions := c.partitions ++ (List.range (c.numOfPagesRequired pageSize).toNat).map (c.pagePartition fresh) }

/-- The loop of `compressColumn`: all partitions read from one stream. -/
def compressPartitions (bitEncoding : Nat) : List Partition → List Line → List Partition
  | [], _ => []
  | curPart :: parts, file =>
    let r := (curPart.initializePageAlignedPartition bitEncoding).compress file bitEncoding
    r.1 :: compressPartitions bitEncoding parts r.2

/-- `compressColumn`, on the lines of `compressed.dat`. -/
def Column.compressColumn (c : Column) (file : List Line) : Column :=
  { c with partitions := compressPartitions c.numOfBits.toNat c.partitions file }

/-- `NumOfPartitions`. -/
def Column.numOfPartitions (c : Column) : Nat := c.partitions.length

/-! ## Metadata -/

/-- A line that was written as `label: rest`. -/
theorem afterColon_append {label rest : Line} (h : ':' ∉ label) :
    afterColon (label ++ ':' :: ' ' :: rest) = some rest := by
  have hmem : ':' ∈ label ++ ':' :: ' ' :: rest := List.mem_append_right _ List.mem_cons_self
  have hidx : (label ++ ':' :: ' ' :: rest).idxOf ':' = label.length := by
    rw [List.idxOf_append_of_notMem h, List.idxOf_cons_self, Nat.add_zero]
  have hpos : ((label.length : Int) + 2).toNat = label.length + 2 := rfl
  have hdrop : (label ++ ':' :: ' ' :: rest).drop (label.length + 2) = rest := by
    rw [List.drop_append]
    simp
  have hle : label.length + 2 ≤ (label ++ ':' :: ' ' :: rest).length := by simp
  unfold afterColon
  simp only [if_pos hmem, hidx, hpos, if_pos hle, hdrop]

theorem initializeColumn_isSome (metaFile : List Line) (h0 : (afterColon (metaFile.getD 0 [])).isSome)
    (h1 : (afterColon (metaFile.getD 1 [])).isSome) (h2 : (afterColon (metaFile.getD 2 [])).isSome) (c : Column)
    (base compressed : List Line) (order : List (Line × BitVec 32) → List (Line × BitVec 32)) :
    ∃ c', c.initializeColumn metaFile base compressed order = some c' := by
  rw [Option.isSome_iff_exists] at h0 h1 h2
  obtain ⟨_, h0⟩ := h0
  obtain ⟨_, h1⟩ := h1
  obtain ⟨_, h2⟩ := h2
  unfold Column.initializeColumn
  rw [h0, Option.bind_some, h1, Option.bind_some, h2]
  exact ⟨_, rfl⟩

theorem initializeColumn_numOfBits {c c' : Column} {metaFile base compressed : List Line}
    {order : List (Line × BitVec 32) → List (Line × BitVec 32)} {bitSize : Line}
    (h : c.initializeColumn metaFile base compressed order = some c')
    (hb : afterColon (metaFile.getD 1 []) = some bitSize) :
    c'.numOfBits = int32 (atoi bitSize + 1) ∧ c'.colSize = c.colSize ∧ c'.partitions = c.partitions := by
  unfold Column.initializeColumn at h
  rw [hb] at h
  simp only [Option.bind_eq_some_iff, Option.map_eq_some_iff] at h
  obtain ⟨_, _, _, he, _, _, rfl⟩ := h
  cases he
  exact ⟨rfl, rfl, rfl⟩

/-! ## Pages -/

theorem ofInt_int32 (x : Int) : BitVec.ofInt 32 (int32 x) = BitVec.ofInt 32 x := by
  apply BitVec.eq_of_toInt_eq
  rw [BitVec.toInt_ofInt, BitVec.toInt_ofInt, int32, Int.bmod_bmod]

/-- The rows of a partition, in spite of the wrapped bounds. -/
theorem partSize_pagePartition (c : Column) (fresh : Nat → Nat → Word) (partId : Nat) (h0 : 0 ≤ c.partitionSize)
    (h1 : c.partitionSize < 2 ^ 31) : (c.pagePartition fresh partId).partSize = c.partitionSize := by
  show (BitVec.ofInt 32 (int32 (int32 (partId * c.partitionSize) + c.partitionSize))
    - BitVec.ofInt 32 (int32 (partId * c.partitionSize))).toInt = _
  rw [ofInt_int32, BitVec.ofInt_add, ofInt_int32, BitVec.add_comm, BitVec.add_sub_cancel, BitVec.toInt_ofInt,
    Int.bmod_eq_of_le (by omega) (by omega)]

theorem getElem?_compressPartitions {b n : Nat} (ps : List Partition) (hps : ∀ p ∈ ps, p.partSize = n) :
    ∀ (file : List Line) (i : Nat), (compressPartitions b ps file)[i]? =
      ps[i]?.map fun p => ((p.initializePageAlignedPartition b).compress (file.drop (n * i)) b).1 := by
  induction ps with
  | nil => simp [compressPartitions]
  | cons p ps ih =>
    intro file i
    rw [List.forall_mem_cons] at hps
    cases i with
    | zero => rfl
    | succ i =>
      have hrest : ((p.initializePageAlignedPartition b).compress file b).2 = file.drop n := by
        rw [compress_rest]
        show file.drop p.partSize.toNat = _
        rw [hps.1]
        rfl
      rw [compressPartitions, List.getElem?_cons_succ, List.getElem?_cons_succ, ih hps.2, hrest, List.drop_drop,
        Nat.mul_succ, Nat.add_comm]

theorem length_compressPartitions (b : Nat) (ps : List Partition) :
    ∀ file : List Line, (compressPartitions b ps file).length = ps.length := by
  induction ps with
  | nil => exact fun _ => rfl
  | cons p ps ih =>
    intro file
    rw [compressPartitions, List.length_cons, List.length_cons, ih]

/-- One partition a page. -/
theorem numOfPartitions_compressColumn {c : Column} (hnil : c.partitions = []) (fresh : Nat → Nat → Word)
    (file : List Line) : ((c.initializePageAlignedPartitions fresh).compressColumn file).numOfPartitions =
      (c.numOfPagesRequired pageSize).toNat := by
  show (compressPartitions _ _ file).length = _
  rw [length_compressPartitions, Column.initializePageAlignedPartitions, hnil]
  show (List.map _ (List.range _)).length = _
  rw [List.length_map, List.length_range]

/-- A column size is an `int`, and so is the number of its bits. -/
theorem numOfPagesRequired_le (c : Column) : c.numOfPagesRequired pageSize ≤ 2 ^ 16 + 1 := by
  have hint : int32 (c.numOfBits * c.colSize) ≤ 2 ^ 31 := by
    have := Int.bmod_le (x := c.numOfBits * c.colSize) (m := 2 ^ 32) (by decide)
    unfold int32
    omega
  have hbytes : (int32 (c.numOfBits * c.colSize)).tdiv 8 ≤ 2 ^ 28 := Int.tdiv_le_tdiv (by decide) hint
  have hpages : ((int32 (c.numOfBits * c.colSize)).tdiv 8).tdiv pageSize ≤ 2 ^ 16 :=
    Int.tdiv_le_tdiv (by decide) hbytes
  unfold Column.numOfPagesRequired
  simp only
  split <;> omega

/-- A page is required only for bits that do not fit the pages before it. -/
theorem numOfPagesRequired_pos {c : Column} (hnonneg : 0 ≤ c.numOfBits * c.colSize)
    (hpos : 0 < c.numOfPagesRequired pageSize) :
    (c.numOfPagesRequired pageSize - 1) * (pageSize * 8 : Nat) < c.numOfBits * c.colSize := by
  have hint : int32 (c.numOfBits * c.colSize) ≤ c.numOfBits * c.colSize := by
    rw [int32, Int.bmod_def]
    split <;> omega
  have hpage : ((pageSize : Nat) : Int) = 4096 := rfl
  have hbits : ((pageSize * 8 : Nat) : Int) = 32768 := rfl
  unfold Column.numOfPagesRequired at hpos ⊢
  simp only [hpage, hbits] at hpos ⊢
  generalize int32 (c.numOfBits * c.colSize) = x at hint hpos
  rcases Int.le_total 0 x with hx | hx
  · have hdiv : x.tdiv 8 = x / 8 := Int.tdiv_eq_ediv_of_nonneg hx
    rw [hdiv, Int.tdiv_eq_ediv_of_nonneg (by omega), Int.tmod_eq_emod_of_nonneg (by omega)] at hpos ⊢
    split at hpos <;> split <;> omega
  · obtain ⟨y, rfl⟩ : ∃ y, x = -y := ⟨-x, (Int.neg_neg x).symm⟩
    have hdiv : (-y).tdiv 8 = -(y / 8) := by rw [Int.neg_tdiv, Int.tdiv_eq_ediv_of_nonneg (by omega)]
    rw [hdiv, Int.neg_tdiv, Int.neg_tmod, Int.tdiv_eq_ediv_of_nonneg (by omega),
      Int.tmod_eq_emod_of_nonneg (by omega)] at hpos
    split at hpos <;> omega

/-- Page `i` of a column loaded from `file`. -/
theorem getElem_compressColumn {c : Column} {fresh : Nat → Nat → Word} {n : Nat} (hnil : c.partitions = [])
    (hn : c.partitionSize = n) (hlt : n < 2 ^ 31) (file : List Line) (i : Nat) {q : Partition}
    (hq : ((c.initializePageAlignedPartitions fresh).compressColumn file).partitions[i]? = some q) :
    q = (((c.pagePartition fresh i).initializePageAlignedPartition c.numOfBits.toNat).compress
      (file.drop (n * i)) c.numOfBits.toNat).1 := by
  have hsize : ∀ p ∈ (List.range (c.numOfPagesRequired pageSize).toNat).map (c.pagePartition fresh),
      p.partSize = n := by
    intro p hp
    obtain ⟨j, _, rfl⟩ := List.mem_map.mp hp
    rw [partSize_pagePartition c fresh j (by omega) (by omega), hn]
  have hparts : (c.initializePageAlignedPartitions fresh).partitions =
      (List.range (c.numOfPagesRequired pageSize).toNat).map (c.pagePartition fresh) := by
    rw [Column.initializePageAlignedPartitions, hnil]
    rfl
  unfold Column.compressColumn at hq
  rw [hparts, getElem?_compressPartitions _ hsize] at hq
  obtain ⟨p, hp, rfl⟩ := Option.map_eq_some_iff.mp hq
  rw [List.getElem?_map, Option.map_eq_some_iff] at hp
  obtain ⟨j, hj, rfl⟩ := hp
  obtain ⟨_, hj'⟩ := List.getElem?_eq_some_iff.mp hj
  rw [List.getElem_range] at hj'
  rw [hj']
  rfl

/-- A page holds 512 words of `v` codes. -/
theorem partitionSize_of_bits {c : Column} {b v : Nat} (hb : 0 < b) (hv : b * v = 64) (hbits : c.numOfBits = b) :
    c.partitionSize = (512 * v : Nat) := by
  have hpage : pageSize * 8 = 512 * v * b := by rw [Nat.mul_assoc, Nat.mul_comm v, hv, pageSize]
  show ((pageSize : Int) * 8).tdiv c.numOfBits = _
  rw [hbits]
  show (((pageSize * 8 / b : Nat)) : Int) = _
  rw [hpage, Nat.mul_div_cancel _ hb]

section Page
variable {c : Column} {fresh : Nat → Nat → Word} {b v : Nat} {codes : List Nat} {p : Nat} (hb : 0 < b)
  (hv : b * v = 64) (hbits : c.numOfBits = b)
include hb hv hbits

theorem partSize_pagePartition_of_bits (fresh : Nat → Nat → Word) (p : Nat) :
    (c.pagePartition fresh p).partSize = (512 * v : Nat) := by
  have hn := partitionSize_of_bits hb hv hbits
  have hle : v ≤ 64 := by
    rw [← hv]
    exact Nat.le_mul_of_pos_left v hb
  rw [partSize_pagePartition c fresh p (by omega) (by omega), hn]

variable (fresh p) in
/-- The codes that a page takes from the file. -/
theorem codesOf_page (hcodes : ∀ x ∈ codes, x < 2 ^ b ∧ x < 2 ^ 31) :
    codesOf ((c.pagePartition fresh p).initializePageAlignedPartition b) ((codes.map decimal).drop (512 * v * p)) =
        ((codes.drop (512 * v * p)).take (512 * v)).map (BitVec.ofNat 64) ∧
      ∀ x ∈ codesOf ((c.pagePartition fresh p).initializePageAlignedPartition b)
        ((codes.map decimal).drop (512 * v * p)), Below x b := by
  have hsize : ((c.pagePartition fresh p).initializePageAlignedPartition b).partSize = (512 * v : Nat) :=
    partSize_pagePartition_of_bits hb hv hbits fresh p
  have hlist : codesOf ((c.pagePartition fresh p).initializePageAlignedPartition b)
      ((codes.map decimal).drop (512 * v * p)) = ((codes.drop (512 * v * p)).take (512 * v)).map (BitVec.ofNat 64) := by
    rw [← List.map_drop, codesOf_decimal _ _ fun x hx => (hcodes x (List.mem_of_mem_drop hx)).2, hsize,
      Int.toNat_natCast]
  refine ⟨hlist, ?_⟩
  rw [hlist]
  intro x hx
  obtain ⟨y, hy, rfl⟩ := List.mem_map.mp hx
  exact below_ofNat (hcodes y (List.mem_of_mem_drop (List.mem_of_mem_take hy))).1

variable (fresh p) in
/-- Row `r` of the page that starts at row `p * (512 * v)` is lane `r % v` of word `r / v`. -/
theorem lane_compress_page (hcodes : ∀ x ∈ codes, x < 2 ^ b ∧ x < 2 ^ 31) {r : Nat} (hr : r < 512 * v)
    (hrow : p * (512 * v) + r < codes.length) :
    lane b (r % v) ((((c.pagePartition fresh p).initializePageAlignedPartition b).compress
      ((codes.map decimal).drop (512 * v * p)) b).1.compressed (r / v)) = BitVec.ofNat b codes[p * (512 * v) + r] := by
  obtain ⟨hlist, hbelow⟩ := codesOf_page fresh p hb hv hbits hcodes
  have hget : ((codesOf ((c.pagePartition fresh p).initializePageAlignedPartition b)
      ((codes.map decimal).drop (512 * v * p))))[r]? = some (BitVec.ofNat 64 codes[p * (512 * v) + r]) := by
    rw [hlist, List.getElem?_map, List.getElem?_take_of_lt hr, List.getElem?_drop, Nat.mul_comm (512 * v) p,
      List.getElem?_eq_getElem hrow]
    rfl
  have hlen := (List.getElem?_eq_some_iff.mp hget).1
  rw [lane_compress hb hv _ _ hbelow r hlen, List.getD_eq_getElem?_getD, hget]
  apply BitVec.eq_of_toNat_eq
  have hb64 : b ≤ 64 := by
    rw [← hv]
    exact Nat.le_mul_of_pos_right b (Nat.pos_of_mul_pos_left (Nat.lt_of_lt_of_eq (by decide) hv.symm))
  rw [Option.getD_some, BitVec.toNat_setWidth, BitVec.toNat_ofNat, BitVec.toNat_ofNat,
    Nat.mod_mod_of_dvd _ (Nat.pow_dvd_pow 2 hb64)]

variable {q : Partition} (hnil : c.partitions = [])
  (hq : ((c.initializePageAlignedPartitions fresh).compressColumn (codes.map decimal)).partitions[p]? = some q)
include hnil hq

/-- A page of a loaded column. -/
theorem page_eq : q = (((c.pagePartition fresh p).initializePageAlignedPartition b).compress
    ((codes.map decimal).drop (512 * v * p)) b).1 := by
  have hn := partitionSize_of_bits hb hv hbits
  have hle : v ≤ 64 := by
    rw [← hv]
    exact Nat.le_mul_of_pos_left v hb
  rw [getElem_compressColumn hnil hn (by omega) _ p hq, hbits, Int.toNat_natCast]

theorem partSize_page : q.partSize = (512 * v : Nat) := by
  rw [page_eq hb hv hbits hnil hq]
  exact partSize_pagePartition_of_bits hb hv hbits fresh p

/-- Row `r` of page `p` is lane `r % v` of its word `r / v`. -/
theorem lane_page (hcodes : ∀ x ∈ codes, x < 2 ^ b ∧ x < 2 ^ 31) {r : Nat} (hr : r < 512 * v)
    (hrow : p * (512 * v) + r < codes.length) :
    lane b (r % v) (q.compressed (r / v)) = BitVec.ofNat b codes[p * (512 * v) + r] := by
  rw [page_eq hb hv hbits hnil hq]
  exact lane_compress_page fresh p hb hv hbits hcodes hr hrow

/-- The lanes behind the last row, in its word and in the words of the page that follow. -/
theorem lane_page_of_le (hcodes : ∀ x ∈ codes, x < 2 ^ b ∧ x < 2 ^ 31) {r : Nat} (hr : r < 512 * v)
    (hpage : p * (512 * v) < codes.length) (hrow : codes.length ≤ p * (512 * v) + r) :
    lane b (r % v) (q.compressed (r / v)) =
      if (p * (512 * v) + r) / v = (codes.length - 1) / v then 0 else lane b (r % v) (fresh p (r / v)) := by
  have hvpos : 0 < v := Nat.pos_of_mul_pos_left (Nat.lt_of_lt_of_eq (by decide) hv.symm)
  obtain ⟨hlist, hbelow⟩ := codesOf_page fresh p hb hv hbits hcodes
  have hlen : (codesOf ((c.pagePartition fresh p).initializePageAlignedPartition b)
      ((codes.map decimal).drop (512 * v * p))).length = codes.length - p * (512 * v) := by
    rw [hlist, List.length_map, List.length_take, List.length_drop, Nat.mul_comm (512 * v) p]
    omega
  -- positions in the page against positions in the column, both in words
  have hshift : ∀ i, (p * (512 * v) + i) / v = p * 512 + i / v := by
    intro i
    rw [← Nat.mul_assoc, Nat.mul_comm (p * 512), Nat.mul_add_div hvpos]
  have hlast : (codes.length - 1) / v = p * 512 + (codes.length - p * (512 * v) - 1) / v := by
    rw [← hshift]
    congr 1
    omega
  have hle : (codes.length - p * (512 * v) - 1) / v ≤ r / v := Nat.div_le_div_right (by omega)
  rw [page_eq hb hv hbits hnil hq, hshift, hlast]
  by_cases hword : r / v = (codes.length - p * (512 * v) - 1) / v
  · rw [if_pos (by omega)]
    exact compress_padding hb hv _ _ hbelow (by omega) (by omega) (by rw [hlen]; exact hword)
  · rw [if_neg (by omega), compress_fresh hb hv _ _ hbelow (by omega) (by rw [hlen]; omega)]
    rfl

end Page

end SdbFpga.Data
