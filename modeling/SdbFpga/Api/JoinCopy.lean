import SdbFpga.Api.ScanApi
import SdbFpga.Fpga.JoinAfu

/-!
# The semi-join path: from a partition of keys to its slice of the bit vector

* `LineorderDate.probe`, `getLsbD_probe` : the lines of a partition looked up in the bitmap, one after the other;
* `joinBuffer` : the result lines in memory, as 32-bit words;
* `JobWrapper.copyFPGAWriteBuffer32` : the copy; a read behind the buffer fails;
* `joinStores`, `copyFPGAWriteBuffer32_eq` : its stores, and that there are no others;
* `JoinCopied`, `joinCopied` : row `i` of the partition is bit `i % 64` of word `i / 64` of the slice.
-/

namespace SdbFpga.Fpga
open Bits

/-! ## Probing -/

/-- `lineorder_date` in `STATE_PROCESSING` for the lines `k`, `k + 1`, .. of a partition of keys: its result register
after each of them. -/
def LineorderDate.probe (u : LineorderDate) (k : Nat) : List ClData → List ClData
  | [] => []
  | cl :: cls =>
    let u' := u.clock false false true (BitVec.ofNat 32 k) cl
    u'.bitResult :: u'.probe (k + 1) cls

theorem length_probe (cls : List ClData) : ∀ (u : LineorderDate) (k : Nat),
    (u.probe k cls).length = cls.length := by
  induction cls with
  | nil => exact fun _ _ => rfl
  | cons cl cls ih =>
    intro u k
    rw [LineorderDate.probe, List.length_cons, ih, List.length_cons]

/-- Bit `l` of result line `i` is the bitmap at key `l` of line `i`; the bitmap is not changed on the way. -/
theorem getLsbD_probe (cls : List ClData) : ∀ (u : LineorderDate) (k i l : Nat), i < cls.length → l < 32 →
    ((u.probe k cls).getD i 0).getLsbD l = u.bitMap.getLsbD (lane 16 l (cls.getD i 0)).toNat := by
  induction cls with
  | nil =>
    intro _ _ i _ hi
    cases hi
  | cons cl cls ih =>
    intro u k i l hi hl
    rw [LineorderDate.probe]
    cases i with
    | zero =>
      rw [List.getD_cons_zero, List.getD_cons_zero, getLsbD_bitResult_lookup, if_pos hl]
    | succ i =>
      rw [List.getD_cons_succ, List.getD_cons_succ, ih _ _ i l (Nat.lt_of_succ_lt_succ hi) hl]
      rfl

end SdbFpga.Fpga

namespace SdbFpga.Api
open Bits Text Data Fpga

/-- The lines at consecutive cache lines, as `uint32_t` words. -/
def joinBuffer (lines : List ClData) : List (BitVec 32) :=
  (List.range (16 * lines.length)).map fun i => lane 32 (i % 16) (lines.getD (i / 16) 0)

theorem getElem?_joinBuffer (lines : List ClData) {j : Nat} (hj : j < lines.length) :
    (joinBuffer lines)[16 * j]? = some (lane 32 0 (lines.getD j 0)) := by
  have hmod : 16 * j % 16 = 0 := Nat.mul_mod_right 16 j
  have hdiv : 16 * j / 16 = j := Nat.mul_div_cancel_left j (by decide)
  rw [joinBuffer, List.getElem?_map, List.getElem?_range (by omega), Option.map_some, hmod, hdiv]

/-! ## The copy -/

/-- The body of the loop: `write_buff[wr_ind]` and `write_buff[wr_ind + 16]` make the word `ind`. -/
def JobWrapper.copyHalves (writeBuff : List (BitVec 32)) (s : JobWrapper × Nat) (ind : Int) :
    Option (JobWrapper × Nat) :=
  writeBuff[s.2]?.bind fun (tempLower : BitVec 32) =>
    writeBuff[s.2 + 16]?.map fun (tempHigher : BitVec 32) =>
      (s.1.store ind (tempHigher.setWidth 64 <<< 32 ||| tempLower.setWidth 64), s.2 + 32)

/-- `copyFPGAWriteBuffer(uint32_t*, int)`, on a buffer of finite length. -/
def JobWrapper.copyFPGAWriteBuffer32 (j : JobWrapper) (writeBuff : List (BitVec 32)) (partId : Nat) :
    Option JobWrapper :=
  let partOffset := int32 (partId * j.resBuffLen)
  ((List.range j.resBuffLen.toNat).foldlM (fun s (i : Nat) => JobWrapper.copyHalves writeBuff s (partOffset + i))
    (j, 0)).map Prod.fst

/-- The word that the loop makes in round `i`. -/
def joinWord (writeBuff : List (BitVec 32)) (i : Nat) : Word :=
  (writeBuff.getD (32 * i + 16) 0).setWidth 64 <<< 32 ||| (writeBuff.getD (32 * i) 0).setWidth 64

/-- The stores of the copy, as index and word. -/
def JobWrapper.joinStores (j : JobWrapper) (writeBuff : List (BitVec 32)) (partId : Nat) : List (Int × Word) :=
  (List.range j.resBuffLen.toNat).map fun (i : Nat) => (int32 (partId * j.resBuffLen) + i, joinWord writeBuff i)

/-- The lower half of a joined word comes from one cache line, the upper half from the next. -/
theorem getLsbD_joinWord (writeBuff : List (BitVec 32)) (i : Nat) {r : Nat} (hr : r < 64) :
    (joinWord writeBuff i).getLsbD r = if r < 32 then (writeBuff.getD (32 * i) 0).getLsbD r
      else (writeBuff.getD (32 * i + 16) 0).getLsbD (r - 32) := by
  unfold joinWord
  rw [BitVec.getLsbD_or, BitVec.getLsbD_shiftLeft, BitVec.getLsbD_setWidth, BitVec.getLsbD_setWidth]
  by_cases hlow : r < 32
  · simp [hlow, hr]
  · have hsub : r - 32 < 64 := by omega
    simp [hlow, hr, hsub, BitVec.getLsbD_of_ge _ r (Nat.le_of_not_lt hlow)]

/-- With a buffer that is long enough the copy runs to its end, and all that it does are its stores. -/
theorem copyFPGAWriteBuffer32_eq {j : JobWrapper} {writeBuff : List (BitVec 32)} {len : Nat} (partId : Nat)
    (hlen : j.resBuffLen = len) (hbuff : 32 * len ≤ writeBuff.length) :
    j.copyFPGAWriteBuffer32 writeBuff partId =
      some ((j.joinStores writeBuff partId).foldl (fun j s => j.store s.1 s.2) j) := by
  have hrun : ∀ n ≤ len, (List.range n).foldlM
      (fun s (i : Nat) => JobWrapper.copyHalves writeBuff s (int32 (partId * j.resBuffLen) + i)) (j, 0) =
        some (((List.range n).map fun (i : Nat) => (int32 (partId * j.resBuffLen) + i, joinWord writeBuff i)).foldl
          (fun j s => j.store s.1 s.2) j, 32 * n) := by
    intro n
    induction n with
    | zero => exact fun _ => rfl
    | succ n ih =>
      intro hn
      have hlow : writeBuff[32 * n]? = some (writeBuff.getD (32 * n) 0) := by
        rw [List.getD_eq_getElem _ _ (by omega), List.getElem?_eq_getElem]
      have hhigh : writeBuff[32 * n + 16]? = some (writeBuff.getD (32 * n + 16) 0) := by
        rw [List.getD_eq_getElem _ _ (by omega), List.getElem?_eq_getElem]
      rw [List.range_succ, List.foldlM_append, ih (by omega), List.map_append, List.foldl_append]
      simp only [Option.bind_eq_bind, Option.bind_some, List.foldlM_cons, List.foldlM_nil, List.map_cons, List.map_nil,
        List.foldl_cons, List.foldl_nil, JobWrapper.copyHalves, hlow, hhigh, Option.map_some, Option.pure_def]
      rfl
  unfold JobWrapper.copyFPGAWriteBuffer32 JobWrapper.joinStores
  simp only [hlen, Int.toNat_natCast] at hrun ⊢
  rw [hrun len le_rfl]
  rfl

/-- Stores one behind the other. -/
theorem copied_stores (j : JobWrapper) (src : Nat → Word) (off n : Nat) : Copied j src off n
    (((List.range n).map fun (i : Nat) => ((off : Int) + i, src i)).foldl (fun j s => j.store s.1 s.2) j,
      ((off + n : Nat) : Int)) := by
  induction n with
  | zero => exact copied_zero j src off
  | succ n ih =>
    rw [List.range_succ, List.map_append, List.foldl_append]
    have hoff : ((off + (n + 1) : Nat) : Int) = ((off + n : Nat) : Int) + 1 := by omega
    have hind : (off : Int) + n = ((off + n : Nat) : Int) := (Int.natCast_add off n).symm
    rw [hoff, List.map_cons, List.map_nil, List.foldl_cons, List.foldl_nil, hind]
    exact ih.store

/-! ## The whole path -/

/-- `old`, with the write buffer of partition `p` copied, is `new`: the copy reads no word behind the buffer, stores to
the slice of `p` only, and its bits are the join of the partition's rows. -/
structure JoinCopied (bitmap : Nat → Bool) (codes : List Nat) (writeBuff : List (BitVec 32)) (old new : JobWrapper)
    (p : Nat) : Prop where
  reads : old.copyFPGAWriteBuffer32 writeBuff p = some new
  rows : ∀ i (h : i < codes.length),
    (new.bitResult (p * old.resBuffLen.toNat + i / 64)).getLsbD (i % 64) = bitmap codes[i]
  stores : ∀ ind ∈ (old.joinStores writeBuff p).map Prod.fst,
    p * old.resBuffLen ≤ ind ∧ ind < (p + 1) * old.resBuffLen ∧ ind < old.bitVectorSize
  frame : new = { old with bitResult := new.bitResult } ∧ ∀ ind : Nat,
    (ind < p * old.resBuffLen ∨ (p + 1) * old.resBuffLen ≤ ind) → new.bitResult ind = old.bitResult ind

section Path
variable {part : Partition} (hsize : part.partSize = 2048) {codes : List Nat} (hlen : codes.length = 2048)
  {dim : Nat} (hdim : dim ≤ 2560) (hcodes : ∀ x ∈ codes, x < dim) (rest : List Line)
include hsize hlen hdim hcodes

/-- Key `l` of line `i` of the packed page is the code of row `32 * i + l`. -/
theorem lane_packed {i l : Nat} (hl : l < 32) (h : 32 * i + l < codes.length) :
    (lane 16 l (cacheLine ((part.initializePageAlignedPartition 16).compress (codes.map decimal ++ rest)
      16).1.compressed i)).toNat = codes[32 * i + l] := by
  have htaken : codesOf (part.initializePageAlignedPartition 16) (codes.map decimal ++ rest) =
      codes.map (BitVec.ofNat 64) := by
    have htake : (codes.map decimal ++ rest).take 2048 = codes.map decimal := by
      rw [← hlen, ← List.length_map (f := decimal), List.take_left]
    show ((codes.map decimal ++ rest).take part.partSize.toNat).map _ = _
    rw [hsize]
    show ((codes.map decimal ++ rest).take 2048).map _ = _
    rw [htake, List.map_map]
    apply List.map_congr_left
    intro x hx
    have hlt := hcodes x hx
    show BitVec.ofInt 64 (atoi (decimal x)) = BitVec.ofNat 64 x
    rw [atoi_decimal x (by omega), BitVec.ofInt_natCast]
  have hbelow : ∀ x ∈ codesOf (part.initializePageAlignedPartition 16) (codes.map decimal ++ rest), Below x 16 := by
    rw [htaken]
    intro x hx
    obtain ⟨y, hy, rfl⟩ := List.mem_map.mp hx
    have hlt := hcodes y hy
    exact below_ofNat (by omega)
  have hrow : (32 * i + l) % 4 = l % 4 ∧ (32 * i + l) / 4 = 8 * i + l / 4 := by omega
  have hlane := lane_compress (b := 16) (v := 4) (by decide) (by decide) _ _ hbelow (32 * i + l)
    (by rw [htaken, List.length_map]; exact h)
  have hcode := hcodes _ (List.getElem_mem h)
  have hget : (codes.map (BitVec.ofNat 64)).getD (32 * i + l) 0 = BitVec.ofNat 64 codes[32 * i + l] := by
    rw [List.getD_eq_getElem?_getD, List.getElem?_map, List.getElem?_eq_getElem h]
    rfl
  rw [hrow.1, hrow.2, htaken, hget] at hlane
  rw [lane_cacheLine (w := 16) (v := 4) (by decide) _ _ _ (by omega), hlane, BitVec.toNat_setWidth, BitVec.toNat_ofNat]
  omega

/-- Bit `l` of result line `i` is the bitmap at the code of row `32 * i + l`. -/
theorem getLsbD_resultLine {u : LineorderDate} {bitmap : Nat → Bool} (hmap : ∀ k < dim, u.bitMap.getLsbD k = bitmap k)
    {i l : Nat} (hi : i < 64) (hl : l < 32) (h : 32 * i + l < codes.length) :
    ((u.probe 0 ((List.range 64).map (cacheLine ((part.initializePageAlignedPartition 16).compress
      (codes.map decimal ++ rest) 16).1.compressed))).getD i 0).getLsbD l = bitmap codes[32 * i + l] := by
  have hline : ((List.range 64).map (cacheLine ((part.initializePageAlignedPartition 16).compress
      (codes.map decimal ++ rest) 16).1.compressed)).getD i 0 = cacheLine ((part.initializePageAlignedPartition
        16).compress (codes.map decimal ++ rest) 16).1.compressed i := by
    rw [List.getD_eq_getElem?_getD, List.getElem?_map, List.getElem?_range hi]
    rfl
  rw [getLsbD_probe _ _ _ _ _ (by simpa using hi) hl, hline, lane_packed hsize hlen hdim hcodes rest hl h]
  exact hmap _ (hcodes _ (List.getElem_mem h))

/-- Bit `i % 64` of word `i / 64` of the copy is the bitmap at the code of row `i`. -/
theorem getLsbD_joinWord_row {u : LineorderDate} {bitmap : Nat → Bool}
    (hmap : ∀ k < dim, u.bitMap.getLsbD k = bitmap k) {i : Nat} (hi : i < codes.length) :
    (joinWord (joinBuffer (u.probe 0 ((List.range 64).map (cacheLine ((part.initializePageAlignedPartition 16).compress
      (codes.map decimal ++ rest) 16).1.compressed)))) (i / 64)).getLsbD (i % 64) = bitmap codes[i] := by
  generalize hlines : u.probe 0 ((List.range 64).map (cacheLine ((part.initializePageAlignedPartition 16).compress
    (codes.map decimal ++ rest) 16).1.compressed)) = lines
  have hcount : lines.length = 64 := by
    rw [← hlines, length_probe, List.length_map, List.length_range]
  rw [getLsbD_joinWord _ _ (Nat.mod_lt i (by decide))]
  -- the line of the row, and its first word in the buffer
  have hhalf : ∀ k r, k < 64 → r < 32 → 32 * k + r = i →
      ((joinBuffer lines).getD (16 * k) 0).getLsbD r = bitmap codes[i] := by
    rintro k r hk hr rfl
    have hword : (joinBuffer lines).getD (16 * k) 0 = lane 32 0 (lines.getD k 0) := by
      rw [List.getD_eq_getElem?_getD, getElem?_joinBuffer _ (by omega)]
      rfl
    rw [hword, getLsbD_lane, decide_eq_true hr, Bool.true_and, Nat.mul_zero, Nat.zero_add, ← hlines]
    exact getLsbD_resultLine hsize hlen hdim hcodes rest hmap hk hr hi
  have hlow : 32 * (i / 64) = 16 * (2 * (i / 64)) := by omega
  have hhigh : 32 * (i / 64) + 16 = 16 * (2 * (i / 64) + 1) := by omega
  by_cases hr : i % 64 < 32
  · rw [if_pos hr, hlow]
    exact hhalf _ _ (by omega) hr (by omega)
  · rw [if_neg hr, hhigh]
    exact hhalf _ _ (by omega) (by omega) (by omega)

/-- For every full partition of a `lo_orderdate` column and every bitmap, whatever the array and the page held. -/
theorem joinCopied {u : LineorderDate} {bitmap : Nat → Bool} (hmap : ∀ k < dim, u.bitMap.getLsbD k = bitmap k)
    {j : JobWrapper} (hbits : j.baseColumn.numOfBits = 16) (hrows : 2048 ≤ j.baseColumn.colSize)
    (hpages : (j.baseColumn.numOfPartitions : Int) = j.baseColumn.numOfPagesRequired pageSize) {p : Nat}
    (hp : p < j.baseColumn.numOfPartitions) (result : Nat → Word) :
    let page := ((part.initializePageAlignedPartition 16).compress (codes.map decimal ++ rest) 16).1.compressed
    let buff := joinBuffer (u.probe 0 ((List.range 64).map (cacheLine page)))
    buff.length = 1024 ∧ ∃ new, JoinCopied bitmap codes buff (j.reserveResultBuffer result) new p := by
  intro page buff
  have hlines : (u.probe 0 ((List.range 64).map (cacheLine page))).length = 64 := by
    rw [length_probe, List.length_map, List.length_range]
  have hbuff : buff.length = 1024 := by
    show (joinBuffer _).length = 1024
    rw [joinBuffer, List.length_map, List.length_range, hlines]
  have hmany := numOfPagesRequired_le j.baseColumn
  have hres : (j.reserveResultBuffer result).resBuffLen = (32 : Nat) := by
    show (if j.baseColumn.colSize < ((pageSize : Int) * 8).tdiv j.baseColumn.numOfBits then _ else _) = _
    rw [hbits]
    exact if_neg (by show ¬ j.baseColumn.colSize < 2048; omega)
  have hsz : (j.reserveResultBuffer result).bitVectorSize = ((j.baseColumn.numOfPartitions * 32 : Nat) : Int) := by
    show int32 ((j.reserveResultBuffer result).resBuffLen * j.baseColumn.numOfPartitions) = _
    rw [hres, int32, Int.mul_comm, ← Int.natCast_mul, Int.bmod_eq_of_le (by omega) (by omega)]
  have hoff : int32 (p * (j.reserveResultBuffer result).resBuffLen) = ((p * 32 : Nat) : Int) := by
    rw [hres, int32, ← Int.natCast_mul, Int.bmod_eq_of_le (by omega) (by omega)]
  -- the stores, and what they leave
  have hstores : (j.reserveResultBuffer result).joinStores buff p =
      (List.range 32).map fun (i : Nat) => (((p * 32 : Nat) : Int) + i, joinWord buff i) := by
    rw [JobWrapper.joinStores, hoff, hres, Int.toNat_natCast]
  have hcopied := copied_stores (j.reserveResultBuffer result) (joinWord buff) (p * 32) 32
  rw [← hstores] at hcopied
  refine ⟨hbuff, _, copyFPGAWriteBuffer32_eq p hres (by omega), ?_, ?_, hcopied.frame, ?_⟩
  · intro i hi
    rw [hres, Int.toNat_natCast, hcopied.copied (i / 64) (by omega) (by rw [hsz]; omega)]
    exact getLsbD_joinWord_row hsize hlen hdim hcodes rest hmap hi
  · rw [hstores, hres, hsz, List.map_map]
    intro ind hind
    obtain ⟨i, hi, rfl⟩ := List.mem_map.mp hind
    rw [List.mem_range] at hi
    show ((p : Int) * (32 : Nat) ≤ ((p * 32 : Nat) : Int) + i) ∧ ((p * 32 : Nat) : Int) + i < (p + 1) * (32 : Nat) ∧
      ((p * 32 : Nat) : Int) + i < ((j.baseColumn.numOfPartitions * 32 : Nat) : Int)
    omega
  · intro ind hind
    rw [hres] at hind
    exact hcopied.rest ind (by omega)

end Path

/-- A page of keys 1 and a bitmap in which key 1 is set. -/
theorem joinCopied_ones : ∃ buff new, JoinCopied (fun k => decide (k = 1)) (List.replicate 2048 1) buff
    ((JobWrapper.new .loDateJoin (({ Column.new 2048 with numOfBits := 16 } : Column).initializePageAlignedPartitions
      fun _ _ => 0)).reserveResultBuffer fun _ => 0) new 0 := by
  have hmap : ∀ k < 2, (⟨BitVec.twoPow 2560 1, 0⟩ : LineorderDate).bitMap.getLsbD k = decide (k = 1) := by
    intro k _
    simp [BitVec.getLsbD_twoPow, eq_comm]
  have hcodes : ∀ x ∈ List.replicate 2048 1, x < 2 := by
    intro x hx
    rw [List.eq_of_mem_replicate hx]
    decide
  have hsize : (Partition.new 0 0 2048 fun _ => 0).partSize = 2048 := by decide
  obtain ⟨_, new, hnew⟩ := joinCopied hsize List.length_replicate (by decide) hcodes [] hmap
    (j := .new .loDateJoin (({ Column.new 2048 with numOfBits := 16 } : Column).initializePageAlignedPartitions
      fun _ _ => 0)) rfl (by decide) (by decide) (p := 0) (by decide) fun _ => 0
  exact ⟨_, new, hnew⟩

end SdbFpga.Api
