import SdbFpga.Api.JobWrapper
import SdbFpga.Data.PackedColumn
import SdbFpga.Data.Pages
import SdbFpga.Data.Table

/-!
# `PrintInputBlock`: a page read back

The page of a job is unpacked word by word and every code decoded. `DecompressValue` enters the codes that it does not
find, so a print changes the column that the next one works on.

* `PrintedItem`, `printItem`, `JobWrapper.printInputBlock` : what is printed, and what the decoding table becomes;
* `Grown` : a column whose decoding table has got entries, `printInputBlocks_grown` : any number of prints;
* `PagePrinted`, `PagePrinted.item`, `pagePrinted_words` : the two loops;
* `exists_printInputBlock` : a page that is printed;
* `print_row` : the line of a row;
* `print_base` : from `base.dat` through the generator, the table and its pages back to the values of `base.dat`.
-/

namespace SdbFpga.Api
open Bits Text Data

/-- A line that is printed. -/
structure PrintedItem where
  itemId : Nat
  value : Int
  baseVal : Line
  deriving DecidableEq, Repr

/-- The body of the inner loop. -/
def printItem (bitEncoding : Nat) (currWord : Word) (s : List PrintedItem × Column) (id : Nat) :
    List PrintedItem × Column :=
  let bitMask : Int := 2 ^ bitEncoding - 1
  let value := (((currWord >>> (id * bitEncoding)) &&& BitVec.ofInt 64 bitMask).setWidth 32).toInt
  let r := s.2.decompressValue (BitVec.ofInt 32 value)
  (s.1 ++ [⟨s.1.length, value, r.1⟩], r.2)

/-- The words of a page that are printed. -/
def buffLength (column : Column) (part : Partition) (isDate : Bool) : Int :=
  if isDate then (2560 * column.numOfBits).tdiv 64 else part.arraySize

/-- `PrintInputBlock`. It is not defined for a partition that the column does not have, a width whose mask is no `int`,
or more words than the page has. -/
def JobWrapper.printInputBlock (j : JobWrapper) (partId : Nat) (isDate : Bool) :
    Option (List PrintedItem × JobWrapper) :=
  j.baseColumn.partitions[partId]?.bind fun part =>
    let b := j.baseColumn.numOfBits
    if 0 < b ∧ b < 32 ∧ buffLength j.baseColumn part isDate ≤ part.arraySize then
      let r := (List.range (buffLength j.baseColumn part isDate).toNat).foldl (fun s buffId =>
        (List.range (64 / b.toNat)).foldl (printItem b.toNat (part.compressed buffId)) s) ([], j.baseColumn)
      some (r.1, { j with baseColumn := r.2 })
    else none

/-- A sequence of prints. -/
def JobWrapper.printInputBlocks (j : JobWrapper) (calls : List (Nat × Bool)) : Option JobWrapper :=
  calls.foldlM (fun j call => (j.printInputBlock call.1 call.2).map Prod.snd) j

/-! ## One item -/

/-- The shifted and masked word is one lane of it. -/
theorem masked_eq {b : Nat} (word : Word) (id : Nat) :
    ((word >>> (id * b)) &&& BitVec.ofInt 64 (2 ^ b - 1)).setWidth 32 = (lane b id word).setWidth 32 := by
  have hmask : BitVec.ofInt 64 ((2 : Int) ^ b - 1) = BitVec.ofNat 64 (2 ^ b - 1) := by
    have hpos : 1 ≤ 2 ^ b := Nat.one_le_two_pow
    rw [show (2 : Int) ^ b - 1 = ((2 ^ b - 1 : Nat) : Int) by push_cast [hpos]; rfl, BitVec.ofInt_natCast]
  apply BitVec.eq_of_getLsbD_eq
  intro i hi
  rw [BitVec.getLsbD_setWidth, BitVec.getLsbD_setWidth, BitVec.getLsbD_and, BitVec.getLsbD_ushiftRight, getLsbD_lane,
    hmask, BitVec.getLsbD_ofNat, Nat.testBit_two_pow_sub_one, Nat.mul_comm b id]
  by_cases hib : i < b
  · simp [hib, hi, show i < 64 by omega]
  · simp [hib]

/-- What one item is. -/
theorem printItem_eq {b : Nat} (hb : b < 32) (word : Word) (s : List PrintedItem × Column) (id : Nat) :
    printItem b word s id = (s.1 ++ [⟨s.1.length, (lane b id word).toNat,
      (s.2.decompressValue (BitVec.ofNat 32 (lane b id word).toNat)).1⟩],
        (s.2.decompressValue (BitVec.ofNat 32 (lane b id word).toNat)).2) := by
  have hlt := (lane b id word).isLt
  have hpow : 2 ^ b ≤ 2 ^ 31 := Nat.pow_le_pow_right (by decide) (by omega)
  have hvalue : (((word >>> (id * b)) &&& BitVec.ofInt 64 (2 ^ b - 1)).setWidth 32).toInt =
      (lane b id word).toNat := by
    rw [masked_eq, BitVec.toInt_eq_toNat_of_lt, BitVec.toNat_setWidth, Nat.mod_eq_of_lt (by omega)]
    rw [BitVec.toNat_setWidth, Nat.mod_eq_of_lt (by omega)]
    omega
  unfold printItem
  simp only [hvalue, BitVec.ofInt_natCast]

/-! ## The column -/

/-- `c'` is `c` with entries behind those of its decoding table. -/
def Grown (c c' : Column) : Prop := ∃ entries, c' = { c with decodingTable := c.decodingTable ++ entries }

theorem Grown.refl (c : Column) : Grown c c := ⟨[], by rw [List.append_nil]⟩

theorem Grown.trans {c c' c'' : Column} (h : Grown c c') (h' : Grown c' c'') : Grown c c'' := by
  obtain ⟨entries, rfl⟩ := h
  obtain ⟨entries', rfl⟩ := h'
  exact ⟨entries ++ entries', by rw [List.append_assoc]⟩

/-- What was found before is found still. -/
theorem Grown.lookup {c c' : Column} (h : Grown c c') {code : BitVec 32} {l : Line}
    (hl : c.decodingTable.lookup code = some l) : c'.decodingTable.lookup code = some l := by
  obtain ⟨entries, rfl⟩ := h
  rw [List.lookup_append, hl, Option.some_or]

theorem grown_decompressValue (c : Column) (code : BitVec 32) : Grown c (c.decompressValue code).2 := by
  unfold Column.decompressValue
  split
  · exact .refl c
  · exact ⟨_, rfl⟩

theorem decompressValue_of_lookup {c : Column} {code : BitVec 32} {l : Line}
    (hl : c.decodingTable.lookup code = some l) : (c.decompressValue code).1 = l := by
  rw [Column.decompressValue, hl]

/-! ## The loops -/

/-- After `n` items of the words of a page, `v` to a word. -/
structure PagePrinted (b v : Nat) (words : Nat → Word) (c : Column) (n : Nat) (s : List PrintedItem × Column) :
    Prop where
  length : s.1.length = n
  items : ∀ r < n, ∃ item, s.1[r]? = some item ∧ item.itemId = r ∧
    item.value = (lane b (r % v) (words (r / v))).toNat ∧
    ∀ l, c.decodingTable.lookup (BitVec.ofNat 32 (lane b (r % v) (words (r / v))).toNat) = some l → item.baseVal = l
  grown : Grown c s.2

section Loops
variable {b v : Nat} (hb : b < 32) {words : Nat → Word} {c : Column}

theorem pagePrinted_zero : PagePrinted b v words c 0 ([], c) :=
  ⟨rfl, fun _ hr => absurd hr (Nat.not_lt_zero _), .refl c⟩

include hb

/-- One item more. -/
theorem PagePrinted.item {w id : Nat} (hid : id < v) {s : List PrintedItem × Column}
    (h : PagePrinted b v words c (v * w + id) s) :
    PagePrinted b v words c (v * w + id + 1) (printItem b (words w) s id) := by
  have hmod : (v * w + id) % v = id := by rw [Nat.mul_add_mod, Nat.mod_eq_of_lt hid]
  have hdiv : (v * w + id) / v = w := by
    rw [Nat.mul_add_div (by omega), Nat.div_eq_of_lt hid, Nat.add_zero]
  rw [printItem_eq hb]
  refine ⟨?_, ?_, h.grown.trans (grown_decompressValue _ _)⟩
  · rw [List.length_append, h.length]
    rfl
  · intro r hr
    rcases Nat.lt_or_eq_of_le (Nat.le_of_lt_succ hr) with hold | rfl
    · rw [List.getElem?_append_left (by rw [h.length]; exact hold)]
      exact h.items r hold
    · rw [hmod, hdiv, ← h.length, List.getElem?_concat_length]
      exact ⟨_, rfl, rfl, rfl, fun l hl => decompressValue_of_lookup (h.grown.lookup hl)⟩

/-- The inner loop: one word more. -/
theorem PagePrinted.word {w : Nat} {s : List PrintedItem × Column} (h : PagePrinted b v words c (v * w) s) :
    PagePrinted b v words c (v * (w + 1)) ((List.range v).foldl (printItem b (words w)) s) := by
  have hids : ∀ k ≤ v, PagePrinted b v words c (v * w + k) ((List.range k).foldl (printItem b (words w)) s) := by
    intro k
    induction k with
    | zero => exact fun _ => h
    | succ k ih =>
      intro hk
      rw [List.range_succ, List.foldl_append, List.foldl_cons, List.foldl_nil]
      exact (ih (Nat.le_of_lt hk)).item hb hk
  exact hids v le_rfl

/-- The outer loop. -/
theorem pagePrinted_words (c : Column) (words : Nat → Word) (n : Nat) : PagePrinted b v words c (v * n)
    ((List.range n).foldl (fun s buffId => (List.range v).foldl (printItem b (words buffId)) s) ([], c)) := by
  induction n with
  | zero => exact pagePrinted_zero
  | succ n ih =>
    rw [List.range_succ, List.foldl_append, List.foldl_cons, List.foldl_nil]
    exact ih.word hb

end Loops

/-! ## Prints -/

/-- A page of 512 words is printed. -/
theorem exists_printInputBlock {j : JobWrapper} (partId : Nat) (isDate : Bool) {b v : Nat} {part : Partition}
    (hpos : 0 < b) (hb : b < 32) (hv : b * v = 64) (hbits : j.baseColumn.numOfBits = b)
    (hpart : j.baseColumn.partitions[partId]? = some part) (hsize : part.arraySize = 512)
    (hdate : isDate = true → b ≤ 12) : ∃ items j', j.printInputBlock partId isDate = some (items, j') ∧
      PagePrinted b v part.compressed j.baseColumn (v * if isDate then 40 * b else 512) (items, j'.baseColumn) := by
  have hwords : 64 / b = v := by rw [← hv, Nat.mul_div_cancel_left v hpos]
  have hlen : buffLength j.baseColumn part isDate = (if isDate then 40 * b else 512 : Nat) := by
    cases isDate with
    | true =>
      have hprod : (2560 : Int) * b = 64 * (40 * b : Nat) := by omega
      show ((2560 : Int) * j.baseColumn.numOfBits).tdiv 64 = _
      rw [hbits, hprod, Int.mul_tdiv_cancel_left _ (by decide)]
      rfl
    | false => exact hsize
  have hle : buffLength j.baseColumn part isDate ≤ part.arraySize := by
    rw [hlen, hsize]
    cases isDate with
    | true =>
      have h12 := hdate rfl
      simp only [if_true]
      omega
    | false => exact le_refl _
  have hprinted := pagePrinted_words hb (v := v) j.baseColumn part.compressed (if isDate then 40 * b else 512)
  unfold JobWrapper.printInputBlock
  rw [hpart, Option.bind_some]
  simp only
  rw [if_pos ⟨by omega, by omega, hle⟩, hbits, Int.toNat_natCast, hwords, hlen, Int.toNat_natCast]
  exact ⟨_, _, rfl, hprinted⟩

/-- A print leaves the job alone but for its column's decoding table. -/
theorem printInputBlock_grown {j j' : JobWrapper} {partId : Nat} {isDate : Bool} {items : List PrintedItem}
    (h : j.printInputBlock partId isDate = some (items, j')) : Grown j.baseColumn j'.baseColumn := by
  unfold JobWrapper.printInputBlock at h
  obtain ⟨part, _, h⟩ := Option.bind_eq_some_iff.mp h
  simp only at h
  split at h
  case isTrue hcond =>
    rw [Option.some.injEq, Prod.mk.injEq] at h
    obtain ⟨-, rfl⟩ := h
    exact (pagePrinted_words (v := 64 / j.baseColumn.numOfBits.toNat) (by omega) j.baseColumn part.compressed _).grown
  case isFalse => cases h

/-- Nor do any number of prints. -/
theorem printInputBlocks_grown (calls : List (Nat × Bool)) : ∀ {j j' : JobWrapper},
    j.printInputBlocks calls = some j' → Grown j.baseColumn j'.baseColumn := by
  induction calls with
  | nil =>
    intro j j' h
    obtain rfl := Option.some.inj h
    exact .refl _
  | cons call calls ih =>
    intro j j' h
    obtain ⟨j₁, hcall, hcalls⟩ := Option.bind_eq_some_iff.mp h
    obtain ⟨⟨items, j₂⟩, hprint, rfl⟩ := Option.map_eq_some_iff.mp hcall
    exact (printInputBlock_grown hprint).trans (ih hcalls)

/-! ## A stored column -/

/-- The rows of a page at a width. -/
def pageRows (bits : Nat) : Nat := 32768 / bits

section Row
variable {d : DataType} {base : List Line} {c : Column} (hd : d ≠ .double) (h : Stored d base c)
  (hvalues : d.distinctValues base ≤ 32769) (hfits : storedBits (d.distinctValues base) * base.length < 2 ^ 31)
  {fresh : Nat → Nat → Word}
include hd h hvalues hfits

variable (fresh) in
/-- The lane of a row in the pages. -/
theorem exists_page_row {R : Nat} (hR : R < base.length) : ∃ b v part, storedBits (d.distinctValues base) = b ∧
    (b = 8 ∨ b = 16) ∧ b * v = 64 ∧ pageRows b = 512 * v ∧
    ((c.initializePageAlignedPartitions fresh).compressColumn
      ((d.storedCodes base).map decimal)).partitions[R / pageRows b]? = some part ∧
    part.arraySize = 512 ∧
    (lane b (R % pageRows b % v) (part.compressed (R % pageRows b / v))).toNat = (d.code base base[R]).toNat := by
  have hlen : (d.storedCodes base).length = base.length := List.length_map _
  obtain ⟨b, v, hb, hcases, hv, hrows⟩ : ∃ b v, storedBits (d.distinctValues base) = b ∧ (b = 8 ∨ b = 16) ∧
      b * v = 64 ∧ pageRows b = 512 * v := by
    rcases Nat.lt_or_ge 129 (d.distinctValues base) with hlarge | hsmall
    · exact ⟨16, 4, by rw [storedBits, if_neg (by omega), if_pos hvalues], .inr rfl, rfl, rfl⟩
    · exact ⟨8, 8, by rw [storedBits, if_pos hsmall], .inl rfl, rfl, rfl⟩
  have hpos : 0 < b := by omega
  have hbits : c.numOfBits = b := by rw [h.numOfBits, hb]
  rw [hb] at hfits
  have hprod : c.numOfBits * c.colSize = (b * base.length : Nat) := by
    rw [hbits, h.colSize, hlen, Int.natCast_mul]
  have hpages : (c.numOfPagesRequired pageSize).toNat = (b * base.length / 8 + 4095) / 4096 := by
    rw [numOfPagesRequired_eq (by omega) ⟨by omega, by omega⟩, hprod]
    omega
  have hpage : R / pageRows b < ((c.initializePageAlignedPartitions fresh).compressColumn
      ((d.storedCodes base).map decimal)).partitions.length := by
    have hnum := numOfPartitions_compressColumn h.partitions fresh ((d.storedCodes base).map decimal)
    rw [Column.numOfPartitions, hpages] at hnum
    rw [hnum]
    rcases hcases with rfl | rfl <;> rw [pageRows] <;> omega
  have hq := List.getElem?_eq_getElem hpage
  refine ⟨b, v, _, hb, hcases, hv, hrows, hq, ?_, ?_⟩
  · rw [page_eq hpos hv hbits h.partitions hq]
    exact arraySize_page hpos hv hbits fresh _
  · have hrow : R / pageRows b * (512 * v) + R % pageRows b = R := by
      rw [← hrows]
      exact Nat.div_add_mod' R _
    have hcodes : ∀ x ∈ d.storedCodes base, x < 2 ^ b ∧ x < 2 ^ 31 := by
      intro x hx
      have hlt := lt_two_pow_storedBits hd hx
      rw [hb] at hlt
      rcases hcases with rfl | rfl <;> omega
    have hmod : R % pageRows b < 512 * v := by
      rw [hrows]
      exact Nat.mod_lt _ (by rcases hcases with rfl | rfl <;> omega)
    rw [lane_page hpos hv hbits h.partitions hq hcodes hmod (by rw [hrow, hlen]; exact hR), BitVec.toNat_ofNat,
      Nat.mod_eq_of_lt (hcodes _ (List.getElem_mem _)).1]
    simp only [hrow, DataType.storedCodes, List.getElem_map]

/-- The line that is printed for a row, whatever was printed before. -/
theorem print_row {j : JobWrapper} (hlookup : ∀ v ∈ base, ∃ l ∈ base, d.code base l = d.code base v ∧
      ((c.initializePageAlignedPartitions fresh).compressColumn
        ((d.storedCodes base).map decimal)).decodingTable.lookup (d.code base v) = some l)
    (hgrown : Grown ((c.initializePageAlignedPartitions fresh).compressColumn ((d.storedCodes base).map decimal))
      j.baseColumn) {R : Nat} (hR : R < base.length) {isDate : Bool}
    (hdate : isDate = true → storedBits (d.distinctValues base) = 8 ∧ R % 4096 < 2560) :
    ∃ items j' item, j.printInputBlock (R / pageRows (storedBits (d.distinctValues base))) isDate = some (items, j') ∧
      items[R % pageRows (storedBits (d.distinctValues base))]? = some item ∧
      item.itemId = R % pageRows (storedBits (d.distinctValues base)) ∧ item.value = d.rank base base[R] ∧
      item.baseVal ∈ base ∧ d.cmp item.baseVal base[R] = .eq := by
  obtain ⟨b, v, part, hb, hcases, hv, hrows, hpart, hsize, hlane⟩ := exists_page_row hd h hvalues hfits fresh hR
  have hmem : base[R] ∈ base := List.getElem_mem hR
  have hcode : ∀ {x : Line}, x ∈ base → (d.code base x).toNat = d.rank base x :=
    fun hx => toNat_code hd (fun _ => by omega) hx
  obtain ⟨l, hl, hsame, hfound⟩ := hlookup _ hmem
  replace hfound := hgrown.lookup hfound
  obtain ⟨entries, hcolumn⟩ := hgrown
  have hbits : j.baseColumn.numOfBits = b := by
    rw [hcolumn, ← hb]
    exact h.numOfBits
  rw [hb] at hdate ⊢
  obtain ⟨items, j', hprint, hprinted⟩ := exists_printInputBlock (R / pageRows b) isDate (by omega) (by omega)
    hv hbits (by rw [hcolumn]; exact hpart) hsize (fun h' => by have h8 := (hdate h').1; omega)
  have hmod : R % pageRows b < pageRows b := Nat.mod_lt _ (by rcases hcases with rfl | rfl <;> decide)
  have hshown : R % pageRows b < v * if isDate then 40 * b else 512 := by
    cases isDate with
    | true =>
      obtain ⟨h8, hlt⟩ := hdate rfl
      subst h8
      have hpage : pageRows 8 = 4096 := rfl
      rw [if_pos rfl, hpage]
      omega
    | false =>
      rw [if_neg (by decide), Nat.mul_comm, ← hrows]
      exact hmod
  obtain ⟨item, hitem, hid, hvalue, hbaseVal⟩ := hprinted.items _ hshown
  rw [hlane] at hvalue hbaseVal
  rw [BitVec.ofNat_toNat, BitVec.setWidth_eq] at hbaseVal
  obtain rfl := hbaseVal l hfound
  refine ⟨items, j', item, hprint, hitem, hid, by rw [hvalue, hcode hmem], hl, ?_⟩
  rw [← rank_eq_rank_iff_cmp hd hl hmem, ← hcode hl, ← hcode hmem, hsame]

end Row

/-! ## The whole way -/

section Path
variable {files : Files} {basePath tableName columnFile dataType : Line} {base : List Line}
  (hrows : (files.lines (basePath ++ tableName ++ "/".toList ++ "meta.dat".toList)).getD 0 [] = decimal base.length)
  (hbase : files (basePath ++ tableName ++ "/".toList ++ columnFile ++ "/base.dat".toList) = some base)
  (h2 : 2 ≤ (baseType dataType).distinctValues base) (hvalues : (baseType dataType).distinctValues base ≤ 32769)
  (hfits : storedBits ((baseType dataType).distinctValues base) * base.length < 2 ^ 31)
include hrows hbase h2 hvalues hfits

/-- A column of two to 32769 values in a table that counts its rows is generated and created, for every order in which
its dictionary is iterated. A job on it then prints, whatever was printed before, at the place of row `R` of the file
its rank among the values and a line of the file that compares equal to it. A date page has 2560 rows with 8 bits. -/
theorem print_base (columnName : Int) {order : List (Line × BitVec 32) → List (Line × BitVec 32)}
    (horder : ∀ l, (order l).Perm l) (fresh : Nat → Nat → Word) : ∃ files' t column,
      generate files (basePath ++ tableName ++ "/".toList ++ columnFile) dataType = some files' ∧
      ((Table.new tableName).initializeTable files' basePath).createColumn files' columnFile columnName order fresh =
        some t ∧
      t.getColumn columnName = some column ∧
      ∀ {j j' : JobWrapper} (calls : List (Nat × Bool)), j.baseColumn = column →
        j.printInputBlocks calls = some j' → ∀ (R : Nat) (hR : R < base.length) (isDate : Bool),
          (isDate = true → storedBits ((baseType dataType).distinctValues base) = 8 ∧ R % 4096 < 2560) →
          ∃ items j'' item, j'.printInputBlock (R / pageRows (storedBits ((baseType dataType).distinctValues base)))
              isDate = some (items, j'') ∧
            items[R % pageRows (storedBits ((baseType dataType).distinctValues base))]? = some item ∧
            item.itemId = R % pageRows (storedBits ((baseType dataType).distinctValues base)) ∧
            item.value = (baseType dataType).rank base base[R] ∧ item.baseVal ∈ base ∧
            (baseType dataType).cmp item.baseVal base[R] = .eq := by
  have hlen : base.length < 2 ^ 31 := by
    have hpos : 1 ≤ storedBits ((baseType dataType).distinctValues base) := by
      unfold storedBits
      split <;> decide
    have hle := Nat.mul_le_mul_right base.length hpos
    omega
  obtain ⟨files', t, c, hgen, hcreate, hstored, hget⟩ := exists_createColumn hrows hbase h2 hlen columnName order fresh
  refine ⟨files', t, _, hgen, hcreate, hget, ?_⟩
  intro j j' calls hj hcalls R hR isDate hdate
  have hnew : ((Table.new tableName).initializeTable files' basePath).columns.lookup columnName = none := rfl
  have hgrown := printInputBlocks_grown calls hcalls
  rw [hj] at hgrown
  exact print_row (baseType_ne_double dataType) hstored hvalues hfits
    (fun v hv => lookup_createColumn hbase hgen hnew horder hcreate hget hv) hgrown hR hdate

end Path

/-- A table of the numbers 24 and 25. -/
def numberFiles : Files := fun path =>
  if path = "/t/meta.dat".toList then some ["2".toList]
  else if path = "/t/n/base.dat".toList then some ["24".toList, "25".toList]
  else none

/-- Row 1 in the second print of its page. -/
theorem print_base_two_rows : ∃ files' t column j j' items j'' item,
    generate numberFiles ("/".toList ++ "t".toList ++ "/".toList ++ "n".toList) "INT".toList = some files' ∧
      ((Table.new "t".toList).initializeTable files' "/".toList).createColumn files' "n".toList 0 id (fun _ _ => 0) =
        some t ∧
      t.getColumn 0 = some column ∧ j = JobWrapper.new .loQuantityScan column ∧
      j.printInputBlocks [(0, false)] = some j' ∧ j'.printInputBlock 0 false = some (items, j'') ∧
      items[1]? = some item ∧ item = ⟨1, 1, "25".toList⟩ := by
  have hrows : (numberFiles.lines ("/".toList ++ "t".toList ++ "/".toList ++ "meta.dat".toList)).getD 0 [] =
      decimal ["24".toList, "25".toList].length := by decide
  have hbase : numberFiles ("/".toList ++ "t".toList ++ "/".toList ++ "n".toList ++ "/base.dat".toList) =
      some ["24".toList, "25".toList] := by decide
  have hbits : storedBits ((baseType "INT".toList).distinctValues ["24".toList, "25".toList]) = 8 := by decide
  have hvalues : (baseType "INT".toList).distinctValues ["24".toList, "25".toList] = 2 := by decide
  obtain ⟨files', t, column, hgen, hcreate, hget, hprints⟩ := print_base hrows hbase hvalues.ge
    (by rw [hvalues]; decide) (by rw [hbits]; decide) 0 (fun l => List.Perm.refl l) fun _ _ => 0
  rw [hbits] at hprints
  obtain ⟨first, j', _, hfirst, _⟩ := hprints (j := .new .loQuantityScan column) [] rfl rfl 1 (by decide)
    false (fun h => by cases h)
  have hcalls : (JobWrapper.new .loQuantityScan column).printInputBlocks [(0, false)] = some j' := by
    show ((JobWrapper.new .loQuantityScan column).printInputBlock (1 / pageRows 8) false).map Prod.snd >>= some = _
    rw [hfirst]
    rfl
  obtain ⟨items, j'', item, hprint, hitem, hid, hvalue, hmem, hcmp⟩ := hprints _ rfl hcalls 1 (by decide) false
    (fun h => by cases h)
  refine ⟨files', t, column, _, j', items, j'', item, hgen, hcreate, hget, rfl, hcalls, hprint, hitem, ?_⟩
  have hrank : ((baseType "INT".toList).rank ["24".toList, "25".toList] "25".toList : Int) = 1 := by decide
  have hline : ∀ l ∈ ["24".toList, "25".toList], (baseType "INT".toList).cmp l "25".toList = .eq → l = "25".toList := by
    decide
  have hpage : 1 % pageRows 8 = 1 := rfl
  obtain ⟨itemId, value, baseVal⟩ := item
  rw [hpage] at hid
  obtain rfl := hid
  obtain rfl := hvalue.trans hrank
  obtain rfl := hline _ hmem hcmp
  rfl

end SdbFpga.Api
