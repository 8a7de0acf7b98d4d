import SdbFpga.Data.Column

/-!
# A packed column, page by page

All partitions of a column read from one stream; each packs its lines into words of its own array.

* `compressStores` : the indices that `compress` stores to, `compress_frame` : it changes no other word;
* `compressStores_lt` : they are inside the array;
* `partStreams` : what is left of the stream when a partition starts, `getElem?_partStreams`;
* `stores_page`, `arraySize_page`, `compress_page_rest` : one page;
* `packedPage` : every code stands where the unpacking loop looks for it.
-/

namespace SdbFpga.Data
open Bits Text

/-- The indices of the stores of `compress`, in order: the words flushed in the loop and the one after it. -/
def compressStores (partSize : Int) (bitEncoding : Nat) : Int → List Line → Packer → List Nat
  | _, [], s => [s.curIndex]
  | itemsRead, curLine :: file, s =>
    if itemsRead < partSize then
      (if s.bitsRemaining = 0 then [s.curIndex] else []) ++
        compressStores partSize bitEncoding (itemsRead + 1) file (s.push bitEncoding (BitVec.ofInt 64 (atoi curLine)))
    else [s.curIndex]

/-- The stores of a partition. -/
def Partition.stores (p : Partition) (file : List Line) (bitEncoding : Nat) : List Nat :=
  compressStores p.partSize bitEncoding 0 file ⟨p.compressed, 0, 0, 0, 64⟩

/-! ## The stores -/

/-- A store is the only thing that changes a word. -/
theorem mem_compressLoop {partSize : Int} {b i : Nat} (file : List Line) : ∀ (itemsRead : Int) (s : Packer),
    i ∉ compressStores partSize b itemsRead file s →
      Function.update (compressLoop partSize b itemsRead file s).1.mem
        (compressLoop partSize b itemsRead file s).1.curIndex
        (compressLoop partSize b itemsRead file s).1.writtenVal i = s.mem i := by
  induction file with
  | nil =>
    intro itemsRead s hi
    exact Function.update_of_ne (List.ne_of_not_mem_cons hi) _ _
  | cons line file ih =>
    intro itemsRead s hi
    rw [compressStores] at hi
    rw [compressLoop]
    by_cases hlt : itemsRead < partSize
    · rw [if_pos hlt, List.mem_append, not_or] at hi
      have hpush : (s.push b (BitVec.ofInt 64 (atoi line))).mem i = s.mem i := by
        show s.flush.mem i = s.mem i
        unfold Packer.flush
        by_cases hfull : s.bitsRemaining = 0
        · rw [if_pos hfull, List.mem_singleton] at hi
          rw [if_pos hfull]
          exact Function.update_of_ne hi.1 _ _
        · rw [if_neg hfull]
      rw [if_pos hlt, ih _ _ hi.2, hpush]
    · rw [if_neg hlt] at hi
      rw [if_neg hlt]
      exact Function.update_of_ne (List.ne_of_not_mem_cons hi) _ _

/-- The words that `compress` does not store to stay as they were. -/
theorem compress_frame (p : Partition) (file : List Line) (b : Nat) {i : Nat} (hi : i ∉ p.stores file b) :
    (p.compress file b).1.compressed i = p.compressed i := mem_compressLoop file 0 _ hi

section Stores
variable {b v : Nat} {mem : Nat → Word} (hb : 0 < b) (hv : b * v = 64)
include hb hv

/-- While at most `v * n` codes are read the stores stay below word `n`. -/
theorem compressStores_lt {n : Nat} {partSize : Int} (hn : 0 < n) (hsize : partSize ≤ (v * n : Nat))
    (file : List Line) : ∀ (cs : List Word) (t : Nat) (s : Packer), Packed b v mem cs t s → (cs = [] ∨ 0 < t) →
      cs.length ≤ v * n → (∀ l ∈ file, Below (BitVec.ofInt 64 (atoi l)) b) →
      ∀ i ∈ compressStores partSize b cs.length file s, i < n := by
  have hvpos : 0 < v := Nat.pos_of_mul_pos_left (Nat.lt_of_lt_of_eq (by decide) hv.symm)
  have hcur : ∀ {cs : List Word} {t : Nat} {s : Packer}, Packed b v mem cs t s → (cs = [] ∨ 0 < t) →
      cs.length ≤ v * n → s.curIndex < n := by
    intro cs t s h ht hlen
    rw [h.length] at hlen
    rcases ht with rfl | ht
    · have hzero : v * s.curIndex = 0 := by
        have := h.length
        rw [List.length_nil] at this
        omega
      have := (Nat.mul_eq_zero.mp hzero).resolve_left hvpos.ne'
      omega
    · have hlt : v * s.curIndex < v * n := by omega
      exact Nat.lt_of_mul_lt_mul_left hlt
  induction file with
  | nil =>
    intro cs t s h ht hlen _ i hi
    rw [compressStores, List.mem_singleton] at hi
    rw [hi]
    exact hcur h ht hlen
  | cons line file ih =>
    intro cs t s h ht hlen hbelow i hi
    rw [List.forall_mem_cons] at hbelow
    rw [compressStores] at hi
    by_cases hlt : (cs.length : Int) < partSize
    · rw [if_pos hlt, List.mem_append] at hi
      rcases hi with hflush | hrest
      · split at hflush
        · rw [List.mem_singleton] at hflush
          rw [hflush]
          exact hcur h ht hlen
        · cases hflush
      · obtain ⟨t', _, hpos, h'⟩ := h.push hb hv hbelow.1
        have hlen' : (cs ++ [BitVec.ofInt 64 (atoi line)]).length = cs.length + 1 := by simp
        refine ih _ t' _ h' (.inr hpos) (by omega) hbelow.2 i ?_
        rw [hlen']
        exact hrest
    · rw [if_neg hlt, List.mem_singleton] at hi
      rw [hi]
      exact hcur h ht hlen

end Stores

/-! ## The shared stream -/

/-- What each partition finds in the stream when it starts. -/
def partStreams (bitEncoding : Nat) : List Partition → List Line → List (List Line)
  | [], _ => []
  | curPart :: parts, file =>
    file :: partStreams bitEncoding parts
      ((curPart.initializePageAlignedPartition bitEncoding).compress file bitEncoding).2

theorem getElem?_partStreams {b n : Nat} (ps : List Partition) (hps : ∀ p ∈ ps, p.partSize = n) :
    ∀ (file : List Line) (i : Nat), i < ps.length → (partStreams b ps file)[i]? = some (file.drop (n * i)) := by
  induction ps with
  | nil =>
    intro file i hi
    cases hi
  | cons p ps ih =>
    intro file i hi
    rw [List.forall_mem_cons] at hps
    cases i with
    | zero => rfl
    | succ i =>
      have hrest : ((p.initializePageAlignedPartition b).compress file b).2 = file.drop n := by
        rw [compress_rest]
        show file.drop p.partSize.toNat = _
        rw [hps.1]
        rfl
      rw [partStreams, List.getElem?_cons_succ, ih hps.2 _ i (Nat.lt_of_succ_lt_succ hi), hrest, List.drop_drop,
        Nat.mul_succ, Nat.add_comm]

/-! ## The pages of a column -/

section Page
variable {b v : Nat} {c : Column} {codes : List Nat} (hb : 0 < b) (hv : b * v = 64) (hbits : c.numOfBits = b)
  (fresh : Nat → Nat → Word) (p : Nat)
include hb hv hbits

/-- A page has 512 words. -/
theorem arraySize_page : ((c.pagePartition fresh p).initializePageAlignedPartition b).arraySize = 512 := by
  have hvpos : 0 < v := Nat.pos_of_mul_pos_left (Nat.lt_of_lt_of_eq (by decide) hv.symm)
  have hwords : (64 : Int) / b = v := by
    have hdiv : 64 / b = v := by rw [← hv, Nat.mul_div_cancel_left v hb]
    exact_mod_cast hdiv
  have hdiv : ((512 * v : Nat) : Int).tdiv v = 512 := by
    rw [Int.natCast_mul, Int.mul_tdiv_cancel _ (by omega)]
    rfl
  have hmod : ((512 * v : Nat) : Int).tmod v = 0 := by
    rw [Int.natCast_mul, Int.mul_tmod_left]
  unfold Partition.initializePageAlignedPartition
  simp only [partSize_pagePartition_of_bits hb hv hbits fresh p, hwords, hdiv, hmod, lt_self_iff_false, if_false]

/-- The next page starts behind the rows of this one. -/
theorem compress_page_rest (file : List Line) :
    (((c.pagePartition fresh p).initializePageAlignedPartition b).compress (file.drop (512 * v * p)) b).2 =
      file.drop (512 * v * (p + 1)) := by
  rw [compress_rest]
  show (file.drop (512 * v * p)).drop (c.pagePartition fresh p).partSize.toNat = _
  rw [partSize_pagePartition_of_bits hb hv hbits fresh p, Int.toNat_natCast, List.drop_drop, Nat.mul_succ]

theorem stores_page (hcodes : ∀ x ∈ codes, x < 2 ^ b ∧ x < 2 ^ 31) (start : Nat) :
    ∀ i ∈ ((c.pagePartition fresh p).initializePageAlignedPartition b).stores ((codes.map decimal).drop start) b,
      i < 512 := by
  have hbelow : ∀ l ∈ (codes.map decimal).drop start, Below (BitVec.ofInt 64 (atoi l)) b := by
    intro l hl
    obtain ⟨x, hx, rfl⟩ := List.mem_map.mp (List.mem_of_mem_drop hl)
    obtain ⟨hwidth, hint⟩ := hcodes x hx
    rw [atoi_decimal x hint, BitVec.ofInt_natCast]
    exact below_ofNat hwidth
  have hsize : (c.pagePartition fresh p).partSize ≤ (v * 512 : Nat) := by
    rw [partSize_pagePartition_of_bits hb hv hbits fresh p, Nat.mul_comm]
  exact compressStores_lt hb hv (by decide) hsize _ [] 0 _ packed_nil (.inl rfl) (Nat.zero_le _) hbelow

end Page

/-- Page `p` of a column of `codes`, `32768 / b` of them in a page: its stream starts behind the rows of the pages
before it and ends behind its own, its stores are inside its array, and row `i` is where the unpacking loop of
`PrintInputBlock` reads it. -/
structure PackedPage (b : Nat) (codes : List Nat) (p : Nat) (part : Partition) (stream rest : List Line)
    (q : Partition) : Prop where
  start : stream = (codes.drop (32768 / b * p)).map decimal
  stop : rest = (codes.drop (32768 / b * (p + 1))).map decimal
  stores : ∀ i ∈ part.stores stream b, (i : Int) < q.arraySize
  frame : ∀ i, i ∉ part.stores stream b → q.compressed i = part.compressed i
  code : ∀ i < 32768 / b, ∀ h : p * (32768 / b) + i < codes.length,
    ((q.compressed (i / (64 / b))).extractLsb' (b * (i % (64 / b))) b).toNat = codes[p * (32768 / b) + i]

/-- Any number of partitions, made as in `initializePageAlignedPartitions` and packed from one stream. -/
theorem packedPage {b m : Nat} (hb : b = 4 ∨ b = 8 ∨ b = 16 ∨ b = 32) {c : Column} (hbits : c.numOfBits = b)
    (fresh : Nat → Nat → Word) {codes : List Nat} (hcodes : ∀ x ∈ codes, x < 2 ^ b ∧ x < 2 ^ 31) {p : Nat}
    (hp : p < m) :
    ∃ part stream rest q, part = (c.pagePartition fresh p).initializePageAlignedPartition b ∧
      part.compress stream b = (q, rest) ∧
      (partStreams b ((List.range m).map (c.pagePartition fresh)) (codes.map decimal))[p]? = some stream ∧
      (p + 1 < m → (partStreams b ((List.range m).map (c.pagePartition fresh)) (codes.map decimal))[p + 1]? =
        some rest) ∧
      (compressPartitions b ((List.range m).map (c.pagePartition fresh)) (codes.map decimal))[p]? = some q ∧
      PackedPage b codes p part stream rest q := by
  obtain ⟨v, hpos, hv, hrows, hwords⟩ : ∃ v, 0 < b ∧ b * v = 64 ∧ 32768 / b = 512 * v ∧ 64 / b = v := by
    rcases hb with rfl | rfl | rfl | rfl
    · exact ⟨16, by decide, rfl, rfl, rfl⟩
    · exact ⟨8, by decide, rfl, rfl, rfl⟩
    · exact ⟨4, by decide, rfl, rfl, rfl⟩
    · exact ⟨2, by decide, rfl, rfl, rfl⟩
  have hsize : ∀ q ∈ (List.range m).map (c.pagePartition fresh), q.partSize = (512 * v : Nat) := by
    intro q hq
    obtain ⟨j, _, rfl⟩ := List.mem_map.mp hq
    exact partSize_pagePartition_of_bits hpos hv hbits fresh j
  have hlen : ((List.range m).map (c.pagePartition fresh)).length = m := by
    rw [List.length_map, List.length_range]
  have hstream : ∀ i < m, (partStreams b ((List.range m).map (c.pagePartition fresh)) (codes.map decimal))[i]? =
      some ((codes.map decimal).drop (512 * v * i)) :=
    fun i hi => getElem?_partStreams _ hsize _ i (hlen.symm ▸ hi)
  have hget : ((List.range m).map (c.pagePartition fresh))[p]? = some (c.pagePartition fresh p) := by
    rw [List.getElem?_map, List.getElem?_range hp]
    rfl
  have hrest := compress_page_rest hpos hv hbits fresh p (codes.map decimal)
  refine ⟨_, (codes.map decimal).drop (512 * v * p), (codes.map decimal).drop (512 * v * (p + 1)),
    (((c.pagePartition fresh p).initializePageAlignedPartition b).compress _ b).1, rfl, Prod.ext rfl hrest,
    hstream p hp, hstream (p + 1), ?_, ?_, ?_, ?_, ?_, ?_⟩
  · rw [getElem?_compressPartitions _ hsize, hget]
    rfl
  · rw [hrows, List.map_drop]
  · rw [hrows, List.map_drop]
  · intro i hi
    have hlt := stores_page hpos hv hbits fresh p hcodes _ i hi
    show (i : Int) < ((c.pagePartition fresh p).initializePageAlignedPartition b).arraySize
    rw [arraySize_page hpos hv hbits]
    omega
  · exact fun i hi => compress_frame _ _ b hi
  · intro i hi h
    simp only [hrows, hwords] at hi h ⊢
    have hlane := lane_compress_page fresh p hpos hv hbits hcodes hi h
    have hcode := (hcodes _ (List.getElem_mem h)).1
    rw [← Nat.mod_eq_of_lt hcode, ← BitVec.toNat_ofNat, ← hlane]
    rfl

/-- Two rows of four bits in one page. -/
theorem packedPage_two_rows : ∃ part stream rest q,
    part = ({ Column.new 2 with numOfBits := 4 }.pagePartition (fun _ _ => 0) 0).initializePageAlignedPartition 4 ∧
      part.compress stream 4 = (q, rest) ∧ PackedPage 4 [3, 5] 0 part stream rest q := by
  obtain ⟨part, stream, rest, q, hpart, hcompress, _, _, _, hpage⟩ :=
    @packedPage 4 1 (.inl rfl) { Column.new 2 with numOfBits := 4 } rfl (fun _ _ => 0) [3, 5] (by decide) 0
      (by decide)
  exact ⟨part, stream, rest, q, hpart, hcompress, hpage⟩

end SdbFpga.Data
