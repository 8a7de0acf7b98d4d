import SdbFpga.Api.SimdScan
import SdbFpga.Lib.Stores

/-!
# `simdScan8` in memory

The result bytes are stored through `(uint8_t *) (bit_result[res_offset])`: the word in the bit vector, not its address,
is the pointer.

* `Memory.word`, `Layout` : words and objects in a memory of bytes;
* `ScanApi.simdScan8Stores`, `simdScan8Memory` : the scan of a partition, store by store;
* `simdScan8Stores_eq` : the bytes are those of `simdScan8`;
* `ScansOwnSlice`, `scansOwnSlice_iff` : the scans keep to their slices exactly if every slice starts with its own
  address.
-/

namespace SdbFpga.Api
open Bits Data

/-- A pointer. -/
abbrev Addr := BitVec 64

/-- The memory of the process, byte by byte. -/
abbrev Memory := Addr → BitVec 8

/-- `*(uint64_t *) a`, lowest byte first. -/
def Memory.word (mem : Memory) (a : Addr) : Word := concat 8 8 fun i => mem (a + BitVec.ofNat 64 i)

/-- Where the objects of a scan are: `bit_result` and `DataBlock(p)`. -/
structure Layout where
  bitResult : Addr
  dataBlock : Nat → Addr

/-- `&bit_result[curPart * res_buff_len]`. -/
def Layout.slice (l : Layout) (resBuffLen : Nat) (curPart : Nat) : Addr :=
  l.bitResult + BitVec.ofNat 64 (8 * (curPart * resBuffLen))

/-- The loop of `simdScan8`: the words are read from the memory that the stores before have left. -/
def ScanApi.scanStores (s : ScanApi) (bitVector compressedData : Addr) : List Nat → Memory → List (Addr × BitVec 8)
  | [], _ => []
  | wordId :: wordIds, mem =>
    let addr := bitVector + BitVec.ofNat 64 wordId
    let byte := s.scanByte (mem.word (compressedData + BitVec.ofNat 64 (8 * wordId)))
    (addr, byte) :: s.scanStores bitVector compressedData wordIds (Function.update mem addr byte)

/-- The stores of `simdScan8`; `bit_vector` is the word that stands in `bit_result[res_offset]`. -/
def ScanApi.simdScan8Stores (s : ScanApi) (l : Layout) (mem : Memory) (curPart : Nat) : List (Addr × BitVec 8) :=
  let resOffset := int32 (curPart * s.resBuffLen)
  let bitVector := mem.word (l.bitResult + BitVec.ofInt 64 (8 * resOffset))
  s.scanStores bitVector (l.dataBlock curPart) (List.range (s.resBuffLen * 8).toNat) mem

/-- The memory that `simdScan8` leaves. -/
def ScanApi.simdScan8Memory (s : ScanApi) (l : Layout) (mem : Memory) (curPart : Nat) : Memory :=
  Stores.run (s.simdScan8Stores l mem curPart) mem

/-! ## The loop -/

theorem word_congr {mem mem' : Memory} {a : Addr}
    (h : ∀ j < 8, mem (a + BitVec.ofNat 64 j) = mem' (a + BitVec.ofNat 64 j)) : mem.word a = mem'.word a := by
  apply BitVec.eq_of_getLsbD_eq
  intro i hi
  unfold Memory.word
  rw [getLsbD_concat _ _ _ _ hi, getLsbD_concat _ _ _ _ hi, h (i / 8) (by omega)]

/-- Stores that miss a word leave it as it was. -/
theorem word_run {stores : List (Addr × BitVec 8)} {mem : Memory} {a : Addr}
    (h : ∀ j < 8, a + BitVec.ofNat 64 j ∉ stores.map Prod.fst) : Memory.word (Stores.run stores mem) a = mem.word a :=
  word_congr fun j hj => Stores.run_of_not_mem stores mem (h j hj)

/-- The addresses do not depend on what is read. -/
theorem map_fst_scanStores (s : ScanApi) (bitVector compressedData : Addr) (wordIds : List Nat) : ∀ mem : Memory,
    (s.scanStores bitVector compressedData wordIds mem).map Prod.fst =
      wordIds.map fun wordId => bitVector + BitVec.ofNat 64 wordId := by
  induction wordIds with
  | nil => exact fun _ => rfl
  | cons wordId wordIds ih =>
    intro mem
    rw [ScanApi.scanStores, List.map_cons, ih, List.map_cons]

/-- Stores that miss the data: every byte is that of its word. -/
theorem scanStores_eq (s : ScanApi) {bitVector compressedData : Addr} (wordIds : List Nat) : ∀ mem : Memory,
    (∀ i ∈ wordIds, ∀ k ∈ wordIds, ∀ j < 8,
      compressedData + BitVec.ofNat 64 (8 * k) + BitVec.ofNat 64 j ≠ bitVector + BitVec.ofNat 64 i) →
    s.scanStores bitVector compressedData wordIds mem = wordIds.map fun wordId =>
      (bitVector + BitVec.ofNat 64 wordId, s.scanByte (mem.word (compressedData + BitVec.ofNat 64 (8 * wordId)))) := by
  induction wordIds with
  | nil => exact fun _ _ => rfl
  | cons wordId wordIds ih =>
    intro mem hmiss
    have hrest := ih (Function.update mem (bitVector + BitVec.ofNat 64 wordId)
      (s.scanByte (mem.word (compressedData + BitVec.ofNat 64 (8 * wordId)))))
      fun i hi k hk => hmiss i (List.mem_cons_of_mem _ hi) k (List.mem_cons_of_mem _ hk)
    rw [ScanApi.scanStores, List.map_cons, hrest]
    refine congrArg _ (List.map_congr_left ?_)
    intro k hk
    have hword : Memory.word (Function.update mem (bitVector + BitVec.ofNat 64 wordId)
        (s.scanByte (mem.word (compressedData + BitVec.ofNat 64 (8 * wordId)))))
        (compressedData + BitVec.ofNat 64 (8 * k)) = mem.word (compressedData + BitVec.ofNat 64 (8 * k)) :=
      word_congr fun j hj =>
        Function.update_of_ne (hmiss wordId List.mem_cons_self k (List.mem_cons_of_mem _ hk) j hj) _ _
    rw [hword]

section Slices
variable {s : ScanApi} {l : Layout} {len n : Nat} (hlen : s.resBuffLen = len) (hsize : n * len < 2 ^ 31)
include hlen

theorem toNat_bytes : (s.resBuffLen * 8).toNat = 8 * len := by
  rw [hlen]
  omega

include hsize

/-- The pointer is read at the start of the slice. -/
theorem simdScan8Stores_def (mem : Memory) {p : Nat} (hp : p < n) : s.simdScan8Stores l mem p =
    s.scanStores (mem.word (l.slice len p)) (l.dataBlock p) (List.range (8 * len)) mem := by
  have hle : p * len ≤ n * len := Nat.mul_le_mul_right len hp.le
  have hoff : BitVec.ofInt 64 (8 * int32 (p * s.resBuffLen)) = BitVec.ofNat 64 (8 * (p * len)) := by
    rw [hlen, int32, ← Int.natCast_mul, Int.bmod_eq_of_le (by omega) (by omega), ← BitVec.ofInt_natCast]
    congr 1
  unfold ScanApi.simdScan8Stores Layout.slice
  simp only [hoff, toNat_bytes hlen]

/-- The bytes stored are those of `simdScan8`, at the addresses from its pointer on, as long as no data is overwritten. -/
theorem simdScan8Stores_eq (mem : Memory) {p : Nat} (hp : p < n) (hword : s.bitResult (p * len) = mem.word (l.slice len p))
    (hmiss : ∀ i < 8 * len, ∀ k < 8 * len, ∀ j < 8, l.dataBlock p + BitVec.ofNat 64 (8 * k) + BitVec.ofNat 64 j ≠
      mem.word (l.slice len p) + BitVec.ofNat 64 i) :
    let scan := s.simdScan8 (fun i => mem.word (l.dataBlock p + BitVec.ofNat 64 (8 * i))) p
    s.simdScan8Stores l mem p = (scan.bytes.zipIdx.map fun b => (scan.bitVector + BitVec.ofNat 64 b.2, b.1)) := by
  have hle : p * len ≤ n * len := Nat.mul_le_mul_right len hp.le
  have hoff : int32 (p * s.resBuffLen) = ((p * len : Nat) : Int) := by
    rw [hlen, int32, ← Int.natCast_mul, Int.bmod_eq_of_le (by omega) (by omega)]
  rw [simdScan8Stores_def hlen hsize mem hp, scanStores_eq]
  · simp only [ScanApi.simdScan8, hoff, Int.toNat_natCast, hword, toNat_bytes hlen]
    apply List.ext_getElem
    · simp
    · intro i hi hi'
      simp
  · simpa only [List.mem_range] using hmiss

end Slices

/-! ## Slices -/

/-- The bit vector and the pages are different allocations: no word that is scanned shares a byte with the bit vector. -/
def Layout.Separate (l : Layout) (len n : Nat) : Prop :=
  ∀ p < n, ∀ k < 8 * len, ∀ j < 8, ∀ i < 8 * (n * len),
    l.dataBlock p + BitVec.ofNat 64 (8 * k) + BitVec.ofNat 64 j ≠ l.bitResult + BitVec.ofNat 64 i

instance (l : Layout) (len n : Nat) : Decidable (l.Separate len n) :=
  inferInstanceAs (Decidable (∀ p < n, ∀ k < 8 * len, ∀ j < 8, ∀ i < 8 * (n * len),
    l.dataBlock p + BitVec.ofNat 64 (8 * k) + BitVec.ofNat 64 j ≠ l.bitResult + BitVec.ofNat 64 i))

/-- Every partition's result bytes go to its slice of the bit vector, in order, nothing else changes, and the order of
two partitions does not matter. -/
structure ScansOwnSlice (s : ScanApi) (l : Layout) (mem : Memory) : Prop where
  stores : ∀ p < s.baseColumn.numOfPartitions, s.simdScan8Stores l mem p =
    (List.range (8 * s.resBuffLen.toNat)).map fun i => (l.slice s.resBuffLen.toNat p + BitVec.ofNat 64 i,
      s.scanByte (mem.word (l.dataBlock p + BitVec.ofNat 64 (8 * i))))
  frame : ∀ p < s.baseColumn.numOfPartitions, ∀ a,
    (∀ i < 8 * s.resBuffLen.toNat, a ≠ l.slice s.resBuffLen.toNat p + BitVec.ofNat 64 i) →
      s.simdScan8Memory l mem p a = mem a
  commute : ∀ p < s.baseColumn.numOfPartitions, ∀ q < s.baseColumn.numOfPartitions, p ≠ q →
    ∀ i < 8 * (s.baseColumn.numOfPartitions * s.resBuffLen.toNat),
      s.simdScan8Memory l (s.simdScan8Memory l mem p) q (l.bitResult + BitVec.ofNat 64 i) =
        s.simdScan8Memory l (s.simdScan8Memory l mem q) p (l.bitResult + BitVec.ofNat 64 i)

section Own
variable {s : ScanApi} {l : Layout} {len n : Nat} (hlen : s.resBuffLen = len) (hsize : n * len < 2 ^ 31)
  (hsep : l.Separate len n)
include hsize

/-- The bytes of two slices. -/
theorem slice_ne_slice {p q i j : Nat} (hp : p < n) (hq : q < n) (hne : p ≠ q) (hi : i < 8 * len) (hj : j < 8 * len) :
    l.slice len p + BitVec.ofNat 64 i ≠ l.slice len q + BitVec.ofNat 64 j := by
  have hlt : ∀ {r k : Nat}, r < n → k < 8 * len → 8 * (r * len) + k < 8 * (n * len) := by
    intro r k hr hk
    have hle := Nat.mul_le_mul_right len (Nat.succ_le_of_lt hr)
    rw [Nat.succ_mul] at hle
    omega
  have hpi := hlt hp hi
  have hqj := hlt hq hj
  unfold Layout.slice
  rw [BitVec.add_assoc, BitVec.add_assoc, ← BitVec.ofNat_add, ← BitVec.ofNat_add]
  intro heq
  have hnat := congrArg BitVec.toNat ((BitVec.add_right_inj _).mp heq)
  rw [BitVec.toNat_ofNat, BitVec.toNat_ofNat, Nat.mod_eq_of_lt (by omega), Nat.mod_eq_of_lt (by omega)] at hnat
  rcases Nat.lt_or_gt_of_ne hne with h | h
  · have hle := Nat.mul_le_mul_right len (Nat.succ_le_of_lt h)
    rw [Nat.succ_mul] at hle
    omega
  · have hle := Nat.mul_le_mul_right len (Nat.succ_le_of_lt h)
    rw [Nat.succ_mul] at hle
    omega

include hsep

omit hsize in
/-- The scanned words are not in a slice. -/
theorem dataBlock_ne_slice {p q k j i : Nat} (hp : p < n) (hk : k < 8 * len) (hj : j < 8) (hq : q < n)
    (hi : i < 8 * len) : l.dataBlock p + BitVec.ofNat 64 (8 * k) + BitVec.ofNat 64 j ≠
      l.slice len q + BitVec.ofNat 64 i := by
  have hle := Nat.mul_le_mul_right len (Nat.succ_le_of_lt hq)
  rw [Nat.succ_mul] at hle
  unfold Layout.slice
  rw [BitVec.add_assoc (l.bitResult), ← BitVec.ofNat_add]
  exact hsep p hp k hk j hj _ (by omega)

include hlen

/-- A slice that starts with its own address gets its bytes. -/
theorem simdScan8Stores_own {mem : Memory} {p : Nat} (hp : p < n) (hown : mem.word (l.slice len p) = l.slice len p) :
    s.simdScan8Stores l mem p = (List.range (8 * len)).map fun i => (l.slice len p + BitVec.ofNat 64 i,
      s.scanByte (mem.word (l.dataBlock p + BitVec.ofNat 64 (8 * i)))) := by
  rw [simdScan8Stores_def hlen hsize mem hp, hown]
  apply scanStores_eq
  simp only [List.mem_range]
  exact fun i hi k hk j hj => dataBlock_ne_slice hsep hp hk hj hp hi

/-- The scan of a slice that starts with its own address leaves the words of the other slices and the data. -/
theorem word_simdScan8Memory {mem : Memory} {p q : Nat} (hp : p < n) (hq : q < n) (hpos : 0 < len)
    (hown : mem.word (l.slice len p) = l.slice len p) :
    (q ≠ p → (s.simdScan8Memory l mem p).word (l.slice len q) = mem.word (l.slice len q)) ∧
      ∀ k < 8 * len, (s.simdScan8Memory l mem p).word (l.dataBlock q + BitVec.ofNat 64 (8 * k)) =
        mem.word (l.dataBlock q + BitVec.ofNat 64 (8 * k)) := by
  unfold ScanApi.simdScan8Memory
  rw [simdScan8Stores_own hlen hsize hsep hp hown]
  have hmem : ∀ a : Addr, (∀ i < 8 * len, a ≠ l.slice len p + BitVec.ofNat 64 i) →
      a ∉ ((List.range (8 * len)).map fun i => (l.slice len p + BitVec.ofNat 64 i,
        s.scanByte (mem.word (l.dataBlock p + BitVec.ofNat 64 (8 * i))))).map Prod.fst := by
    intro a ha hin
    rw [List.map_map, List.mem_map] at hin
    obtain ⟨i, hi, he⟩ := hin
    exact ha i (List.mem_range.mp hi) he.symm
  constructor
  · intro hne
    apply word_run
    exact fun j hj => hmem _ fun i hi => slice_ne_slice hsize hq hp hne (by omega) hi
  · intro k hk
    apply word_run
    exact fun j hj => hmem _ fun i hi => dataBlock_ne_slice hsep hq hk hj hp hi

/-- Two slices that start with their own addresses can be scanned in either order. -/
theorem simdScan8Memory_comm {mem : Memory} {p q : Nat} (hp : p < n) (hq : q < n) (hne : p ≠ q) (hpos : 0 < len)
    (hownp : mem.word (l.slice len p) = l.slice len p) (hownq : mem.word (l.slice len q) = l.slice len q) :
    s.simdScan8Memory l (s.simdScan8Memory l mem p) q = s.simdScan8Memory l (s.simdScan8Memory l mem q) p := by
  -- what is stored second is what would have been stored first
  have hsame : ∀ {p q : Nat}, p < n → q < n → p ≠ q → mem.word (l.slice len p) = l.slice len p →
      mem.word (l.slice len q) = l.slice len q →
      s.simdScan8Stores l (s.simdScan8Memory l mem p) q = s.simdScan8Stores l mem q := by
    intro p q hp hq hne hownp hownq
    obtain ⟨hslice, hdata⟩ := word_simdScan8Memory hlen hsize hsep hp hq hpos hownp
    rw [simdScan8Stores_own hlen hsize hsep hq ((hslice hne.symm).trans hownq),
      simdScan8Stores_own hlen hsize hsep hq hownq]
    apply List.map_congr_left
    intro i hi
    rw [hdata i (List.mem_range.mp hi)]
  have hleft : s.simdScan8Memory l (s.simdScan8Memory l mem p) q =
      Stores.run (s.simdScan8Stores l mem q) (Stores.run (s.simdScan8Stores l mem p) mem) := by
    rw [ScanApi.simdScan8Memory, hsame hp hq hne hownp hownq]
    rfl
  have hright : s.simdScan8Memory l (s.simdScan8Memory l mem q) p =
      Stores.run (s.simdScan8Stores l mem p) (Stores.run (s.simdScan8Stores l mem q) mem) := by
    rw [ScanApi.simdScan8Memory, hsame hq hp hne.symm hownq hownp]
    rfl
  rw [hleft, hright]
  apply Stores.run_comm
  rw [simdScan8Stores_own hlen hsize hsep hp hownp, simdScan8Stores_own hlen hsize hsep hq hownq]
  simp only [List.map_map, List.mem_map, List.mem_range]
  rintro a ⟨i, hi, rfl⟩ ⟨j, hj, he⟩
  exact slice_ne_slice hsize hp hq hne hj hi he

omit hsep in
/-- The first store goes where the pointer points. -/
theorem own_of_stores {mem : Memory} {p : Nat} {byte : Nat → BitVec 8} (hp : p < n) (hpos : 0 < len)
    (h : s.simdScan8Stores l mem p =
      (List.range (8 * len)).map fun i => (l.slice len p + BitVec.ofNat 64 i, byte i)) :
    mem.word (l.slice len p) = l.slice len p := by
  rw [simdScan8Stores_def hlen hsize mem hp] at h
  have hfirst := congrArg (fun stores => (stores.map Prod.fst)[0]?) h
  have hrange : (List.range (8 * len))[0]? = some 0 := by
    rw [List.getElem?_range (by omega)]
  simp only [map_fst_scanStores, List.map_map, List.getElem?_map, hrange, Option.map_some, Function.comp_apply,
    Option.some.injEq] at hfirst
  exact (BitVec.add_left_inj _).mp hfirst

end Own

/-- A slice has a word. -/
theorem resBuffLen_pos {s : ScanApi} (fresh : Nat → Word) (hbits : 1 ≤ s.baseColumn.numOfBits)
    (hbits' : s.baseColumn.numOfBits ≤ 64) (hcol : 0 ≤ s.baseColumn.colSize) :
    0 < (s.initializeScanOperator fresh).resBuffLen := by
  have hpage : (pageSize : Int) * 8 = 32768 := rfl
  have hlen : (s.initializeScanOperator fresh).resBuffLen =
      if s.baseColumn.colSize < (32768 : Int).tdiv s.baseColumn.numOfBits then s.baseColumn.colSize.tdiv 64 + 1
      else ((32768 : Int).tdiv s.baseColumn.numOfBits).tdiv 64 := rfl
  have hrows : 512 ≤ (32768 : Int).tdiv s.baseColumn.numOfBits := by
    rw [Int.tdiv_eq_ediv_of_nonneg (by decide), Int.le_ediv_iff_mul_le (by omega)]
    omega
  rw [hlen]
  generalize (32768 : Int).tdiv s.baseColumn.numOfBits = rows at hrows
  rw [Int.tdiv_eq_ediv_of_nonneg hcol, Int.tdiv_eq_ediv_of_nonneg (by omega)]
  split <;> omega

/-- The scans of a job keep to the slices of its bit vector exactly if every slice starts with its own address. -/
theorem scansOwnSlice_iff {s : ScanApi} (fresh : Nat → Word) (hbits : 1 ≤ s.baseColumn.numOfBits)
    (hbits' : s.baseColumn.numOfBits ≤ 64) (hcol : 0 ≤ s.baseColumn.colSize)
    (hsize : (s.initializeScanOperator fresh).resBuffLen * s.baseColumn.numOfPartitions < 2 ^ 31) {l : Layout}
    (hsep : l.Separate (s.initializeScanOperator fresh).resBuffLen.toNat s.baseColumn.numOfPartitions) (mem : Memory) :
    ScansOwnSlice (s.initializeScanOperator fresh) l mem ↔ ∀ p < s.baseColumn.numOfPartitions,
      mem.word (l.slice (s.initializeScanOperator fresh).resBuffLen.toNat p) =
        l.slice (s.initializeScanOperator fresh).resBuffLen.toNat p := by
  have hpos := resBuffLen_pos fresh hbits hbits' hcol
  obtain ⟨len, hlen⟩ := Int.eq_ofNat_of_zero_le hpos.le
  have hnat : (s.initializeScanOperator fresh).resBuffLen.toNat = len := by omega
  have hmul : s.baseColumn.numOfPartitions * len < 2 ^ 31 := by
    rw [hlen, Int.mul_comm, ← Int.natCast_mul] at hsize
    omega
  rw [hnat] at hsep ⊢
  constructor
  · intro h p hp
    have hstores := h.stores p hp
    rw [hnat] at hstores
    exact own_of_stores hlen hmul hp (by omega) hstores
  · intro hown
    refine ⟨?_, ?_, ?_⟩
    · intro p hp
      rw [hnat]
      exact simdScan8Stores_own hlen hmul hsep hp (hown p hp)
    · intro p hp a ha
      rw [hnat] at ha
      apply Stores.run_of_not_mem
      rw [simdScan8Stores_own hlen hmul hsep hp (hown p hp), List.map_map, List.mem_map]
      rintro ⟨i, hi, rfl⟩
      exact ha i (List.mem_range.mp hi) rfl
    · intro p hp q hq hne i _
      exact congrFun (simdScan8Memory_comm hlen hmul hsep hp hq hne (by omega) (hown p hp) (hown q hq)) _

/-- One row of a byte in one page. -/
def rowScan : ScanApi :=
  .new .loQuantityScan (({ Column.new 1 with numOfBits := 8 } : Column).initializePageAlignedPartitions fun _ _ => 0)
    .le 0

/-- A bit vector that happens to hold its address. -/
theorem scansOwnSlice_row : ScansOwnSlice (rowScan.initializeScanOperator fun _ => 0)
    ⟨0x0101010101010101, fun _ => 0⟩ fun _ => 1 :=
  (scansOwnSlice_iff _ (by decide) (by decide) (by decide) (by decide) (by decide) _).mpr (by decide)

/-- In memory full of zeros the bytes go to the null pointer. -/
theorem stores_to_null : ¬ ScansOwnSlice (rowScan.initializeScanOperator fun _ => 0) ⟨4096, fun _ => 8192⟩ fun _ => 0 := by
  intro h
  have hlen : (rowScan.initializeScanOperator fun _ => 0).resBuffLen = (1 : Nat) := rfl
  have hsize : 1 * 1 < 2 ^ 31 := by decide
  have hown := own_of_stores hlen hsize (by decide) (by decide) (h.stores 0 (by decide))
  exact absurd hown (by decide)

end SdbFpga.Api
