import Mathlib.Logic.Function.Basic
import SdbFpga.Lib.Atoi
import SdbFpga.Lib.Bits

/-!
# `Partition`: packing a page of codes

The codes of a partition are read line by line from the column's `compressed.dat`, which all partitions of a column
share, and packed into 64-bit words from the low end.

* `Packer.push` : the body of the loop of `compress`, `compressLoop`, `Partition.compress`;
* `Packed` : the loop invariant, `Packed.push` : one code more;
* `lane_compress` : code `r` is lane `r % v` of word `r / v`; `compress_padding`, `compress_fresh` : the lanes and words
  without a code; `compress_rest` : what is left of the file.
-/

namespace SdbFpga.Data
open Bits Text

/-- A line of a text file, without its newline. -/
abbrev Line := List Char

/-- `uint64_t`. -/
abbrev Word := BitVec 64

/-- `PAGE_SIZE`. -/
def pageSize : Nat := 4096

/-- `Partition`; `stop` is the source's `end`. -/
structure Partition where
  partId : Int
  start : BitVec 32
  stop : BitVec 32
  partSize : Int
  compressed : Nat → Word
  arraySize : Int

/-- The constructor; `fresh` is what `compressed` will hold before it is written. -/
def Partition.new (partId : Int) (start stop : BitVec 32) (fresh : Nat → Word) : Partition where
  partId := partId
  start := start
  stop := stop
  partSize := (stop - start).toInt
  compressed := fresh
  arraySize := 0

/-- Reserves the words of the partition; their contents stay arbitrary. -/
def Partition.initializePageAlignedPartition (p : Partition) (bitEncoding : Nat) : Partition :=
  let valsPerWord : Int := 64 / bitEncoding
  let totalWords := p.partSize.tdiv valsPerWord
  { p with arraySize := if 0 < p.partSize.tmod valsPerWord then totalWords + 1 else totalWords }

/-- The local variables of `compress`. -/
structure Packer where
  mem : Nat → Word
  writtenVal : Word
  curIndex : Nat
  shiftAmount : Nat
  bitsRemaining : Int

/-- A full word is stored before the next code is appended. -/
def Packer.flush (s : Packer) : Packer :=
  if s.bitsRemaining = 0 then
    { mem := Function.update s.mem s.curIndex s.writtenVal
      writtenVal := 0
      curIndex := s.curIndex + 1
      shiftAmount := 0
      bitsRemaining := 64 }
  else s

/-- The body of the loop. -/
def Packer.push (bitEncoding : Nat) (s : Packer) (newVal : Word) : Packer :=
  { s.flush with
    writtenVal := s.flush.writtenVal ||| newVal <<< s.flush.shiftAmount
    shiftAmount := s.flush.shiftAmount + bitEncoding
    bitsRemaining := s.flush.bitsRemaining - bitEncoding }

/-- `while(items_read < part_size && getline(file, cur_line))`, with what is left of the file. -/
def compressLoop (partSize : Int) (bitEncoding : Nat) : Int → List Line → Packer → Packer × List Line
  | _, [], s => (s, [])
  | itemsRead, curLine :: file, s =>
    if itemsRead < partSize then
      compressLoop partSize bitEncoding (itemsRead + 1) file (s.push bitEncoding (BitVec.ofInt 64 (atoi curLine)))
    else (s, curLine :: file)

/-- `compress`: the last word is stored after the loop. -/
def Partition.compress (p : Partition) (file : List Line) (bitEncoding : Nat) : Partition × List Line :=
  let r := compressLoop p.partSize bitEncoding 0 file ⟨p.compressed, 0, 0, 0, 64⟩
  ({ p with compressed := Function.update r.1.mem r.1.curIndex r.1.writtenVal }, r.2)

/-! ## The loop -/

theorem compressLoop_eq (partSize : Int) (b : Nat) (file : List Line) :
    ∀ (itemsRead : Int) (s : Packer), compressLoop partSize b itemsRead file s =
      (((file.take (partSize - itemsRead).toNat).map fun l => BitVec.ofInt 64 (atoi l)).foldl (Packer.push b) s,
        file.drop (partSize - itemsRead).toNat) := by
  induction file with
  | nil => simp [compressLoop]
  | cons line file ih =>
    intro itemsRead s
    rw [compressLoop]
    by_cases hlt : itemsRead < partSize
    · have hsucc : (partSize - itemsRead).toNat = (partSize - (itemsRead + 1)).toNat + 1 := by omega
      rw [if_pos hlt, ih, hsucc]
      rfl
    · have hzero : (partSize - itemsRead).toNat = 0 := by omega
      rw [if_neg hlt, hzero]
      rfl

/-- The invariant after the codes `cs`, `v` of which fill a word: `t` codes are in `writtenVal`, the words before it
are stored, the memory behind them is as it was. -/
structure Packed (b v : Nat) (mem : Nat → Word) (cs : List Word) (t : Nat) (s : Packer) : Prop where
  length : cs.length = v * s.curIndex + t
  le : t ≤ v
  shift : s.shiftAmount = b * t
  remaining : s.bitsRemaining = 64 - (b * t : Nat)
  below : Below s.writtenVal (b * t)
  current : ∀ i, i < t → lane b i s.writtenVal = (cs.getD (v * s.curIndex + i) 0).setWidth b
  stored : ∀ r, r < v * s.curIndex → lane b (r % v) (s.mem (r / v)) = (cs.getD r 0).setWidth b
  rest : ∀ i, s.curIndex ≤ i → s.mem i = mem i

section Pack
variable {b v : Nat} {mem : Nat → Word} {cs : List Word} {t : Nat} {s : Packer}

theorem packed_nil : Packed b v mem [] 0 ⟨mem, 0, 0, 0, 64⟩ := by
  refine ⟨rfl, Nat.zero_le _, rfl, rfl, below_zero _, ?_, ?_, fun _ _ => rfl⟩
  · intro i hi
    omega
  · intro r hr
    simp at hr

/-- Once the current word is stored every code is a lane of the memory. -/
theorem Packed.lane_store (hv : 0 < v) (h : Packed b v mem cs t s) (r : Nat) (hr : r < cs.length) :
    lane b (r % v) (Function.update s.mem s.curIndex s.writtenVal (r / v)) = (cs.getD r 0).setWidth b := by
  rw [h.length] at hr
  by_cases hold : r < v * s.curIndex
  · have hne : r / v ≠ s.curIndex := (Nat.div_lt_of_lt_mul hold).ne
    rw [Function.update_of_ne hne]
    exact h.stored r hold
  · obtain ⟨i, rfl⟩ := Nat.exists_eq_add_of_le (Nat.le_of_not_lt hold)
    have hle := h.le
    have hit : i < t := by omega
    rcases Nat.lt_or_ge i v with hi | hi
    · have hdiv : (v * s.curIndex + i) / v = s.curIndex := by
        rw [Nat.mul_add_div hv, Nat.div_eq_of_lt hi, Nat.add_zero]
      have hmod : (v * s.curIndex + i) % v = i := by
        rw [Nat.mul_add_mod, Nat.mod_eq_of_lt hi]
      rw [hdiv, hmod, Function.update_self]
      exact h.current i hit
    · omega

/-- After the flush there is room for a code. -/
theorem Packed.flush (hb : 0 < b) (hv : b * v = 64) (h : Packed b v mem cs t s) :
    ∃ t' < v, Packed b v mem cs t' s.flush := by
  have hle := h.le
  have hvpos : 0 < v := Nat.pos_of_mul_pos_left (Nat.lt_of_lt_of_eq (by decide) hv.symm)
  have hrem := h.remaining
  unfold Packer.flush
  rcases Nat.lt_or_eq_of_le hle with hlt | heq
  · have hmul : b * t < b * v := Nat.mul_lt_mul_of_pos_left hlt hb
    rw [if_neg (by omega)]
    exact ⟨t, hlt, h⟩
  · have hmul : b * t = 64 := by rw [heq, hv]
    rw [if_pos (by omega)]
    have hlen : cs.length = v * (s.curIndex + 1) := by rw [h.length, heq, Nat.mul_succ]
    refine ⟨0, hvpos, hlen, Nat.zero_le _, rfl, rfl, below_zero _, ?_, ?_, ?_⟩
    · intro i hi
      omega
    · intro r hr
      exact h.lane_store hvpos r (by rw [hlen]; exact hr)
    · intro i hi
      have hi' : s.curIndex + 1 ≤ i := hi
      show Function.update s.mem s.curIndex s.writtenVal i = mem i
      rw [Function.update_of_ne (by omega)]
      exact h.rest i (by omega)

/-- One code more. -/
theorem Packed.push (hb : 0 < b) (hv : b * v = 64) (h : Packed b v mem cs t s) {c : Word} (hc : Below c b) :
    ∃ t' ≤ v, 0 < t' ∧ Packed b v mem (cs ++ [c]) t' (s.push b c) := by
  obtain ⟨t, hlt, hf⟩ := h.flush hb hv
  have hroom : b * t + b ≤ 64 := by
    rw [← hv, ← Nat.mul_succ]
    exact Nat.mul_le_mul_left b hlt
  have hold : ∀ r, r < cs.length → (cs ++ [c]).getD r 0 = cs.getD r 0 := by
    intro r hr
    rw [List.getD_eq_getElem?_getD, List.getD_eq_getElem?_getD, List.getElem?_append_left hr]
  have hnew : (cs ++ [c]).getD (v * s.flush.curIndex + t) 0 = c := by
    rw [List.getD_eq_getElem?_getD, ← hf.length, List.getElem?_concat_length]
    rfl
  refine ⟨t + 1, hlt, Nat.succ_pos t, ?_, hlt, ?_, ?_, ?_, ?_, ?_, hf.rest⟩
  · rw [List.length_append, hf.length]
    rfl
  · show s.flush.shiftAmount + b = b * (t + 1)
    rw [hf.shift, Nat.mul_succ]
  · show s.flush.bitsRemaining - b = 64 - (b * (t + 1) : Nat)
    rw [hf.remaining, Nat.mul_succ]
    omega
  · show Below (s.flush.writtenVal ||| c <<< s.flush.shiftAmount) (b * (t + 1))
    rw [hf.shift, Nat.mul_succ]
    exact hf.below.or_shift hc
  · intro i hi
    show lane b i (s.flush.writtenVal ||| c <<< s.flush.shiftAmount)
      = ((cs ++ [c]).getD (v * s.flush.curIndex + i) 0).setWidth b
    rw [hf.shift]
    rcases Nat.lt_or_eq_of_le (Nat.le_of_lt_succ hi) with hit | rfl
    · rw [lane_or_shift_old hit, hf.current i hit, hold _ (by rw [hf.length]; omega)]
    · rw [lane_or_shift hf.below hroom, hnew]
  · intro r hr
    rw [hold r (by rw [hf.length]; exact Nat.lt_of_lt_of_le hr (Nat.le_add_right _ _))]
    exact hf.stored r hr

/-- The whole loop; once a code was read the current word holds one. -/
theorem packed_foldl (hb : 0 < b) (hv : b * v = 64) (cs : List Word) (hcs : ∀ c ∈ cs, Below c b) :
    ∃ t, (cs = [] ∨ 0 < t) ∧ Packed b v mem cs t (cs.foldl (Packer.push b) ⟨mem, 0, 0, 0, 64⟩) := by
  induction cs using List.reverseRecOn with
  | nil => exact ⟨0, .inl rfl, packed_nil⟩
  | append_singleton cs c ih =>
    obtain ⟨t, _, ht⟩ := ih fun x hx => hcs x (List.mem_append_left _ hx)
    rw [List.foldl_append]
    obtain ⟨t', _, hpos, h⟩ := ht.push hb hv (hcs c (List.mem_append_right _ (List.mem_singleton.mpr rfl)))
    exact ⟨t', .inr hpos, h⟩

end Pack

/-! ## A partition -/

/-- The codes a partition takes from the file. -/
def codesOf (p : Partition) (file : List Line) : List Word :=
  (file.take p.partSize.toNat).map fun l => BitVec.ofInt 64 (atoi l)

theorem codesOf_decimal (p : Partition) (codes : List Nat) (hcodes : ∀ x ∈ codes, x < 2 ^ 31) :
    codesOf p (codes.map decimal) = (codes.take p.partSize.toNat).map (BitVec.ofNat 64) := by
  rw [codesOf, ← List.map_take, List.map_map]
  apply List.map_congr_left
  intro x hx
  show BitVec.ofInt 64 (atoi (decimal x)) = BitVec.ofNat 64 x
  rw [atoi_decimal x (hcodes x (List.mem_of_mem_take hx)), BitVec.ofInt_natCast]

section Compress
variable {b v : Nat} (hb : 0 < b) (hv : b * v = 64) (p : Partition) (file : List Line)
  (hcs : ∀ c ∈ codesOf p file, Below c b)
include hb hv hcs

/-- The state behind the loop of `compress`; the last code is in the current word. -/
theorem exists_packed_compress : ∃ t s, Packed b v p.compressed (codesOf p file) t s ∧
    (0 < (codesOf p file).length → 0 < t ∧ ((codesOf p file).length - 1) / v = s.curIndex) ∧
    (p.compress file b).1.compressed = Function.update s.mem s.curIndex s.writtenVal := by
  have hvpos : 0 < v := Nat.pos_of_mul_pos_left (Nat.lt_of_lt_of_eq (by decide) hv.symm)
  obtain ⟨t, ht, h⟩ : ∃ t, (codesOf p file = [] ∨ 0 < t) ∧ Packed b v p.compressed (codesOf p file) t
    ((codesOf p file).foldl (Packer.push b) ⟨p.compressed, 0, 0, 0, 64⟩) := packed_foldl hb hv _ hcs
  refine ⟨t, _, h, ?_, ?_⟩
  · intro hpos
    have htpos : 0 < t := ht.resolve_left (List.ne_nil_of_length_pos hpos)
    have hle := h.le
    refine ⟨htpos, ?_⟩
    rw [h.length, Nat.add_sub_assoc htpos, Nat.mul_add_div hvpos, Nat.div_eq_of_lt (by omega), Nat.add_zero]
  · unfold Partition.compress
    rw [compressLoop_eq, sub_zero]
    rfl

/-- Code `r` of the partition is lane `r % v` of word `r / v`, whatever was in the memory. -/
theorem lane_compress (r : Nat) (hr : r < (codesOf p file).length) :
    lane b (r % v) ((p.compress file b).1.compressed (r / v)) = ((codesOf p file).getD r 0).setWidth b := by
  have hvpos : 0 < v := Nat.pos_of_mul_pos_left (Nat.lt_of_lt_of_eq (by decide) hv.symm)
  obtain ⟨t, s, h, _, hmem⟩ := exists_packed_compress hb hv p file hcs
  rw [hmem]
  exact h.lane_store hvpos r hr

/-- The last word is filled up with zeros. -/
theorem compress_padding {r : Nat} (hpos : 0 < (codesOf p file).length) (hr : (codesOf p file).length ≤ r)
    (hword : r / v = ((codesOf p file).length - 1) / v) :
    lane b (r % v) ((p.compress file b).1.compressed (r / v)) = 0 := by
  obtain ⟨t, s, h, hlast, hmem⟩ := exists_packed_compress hb hv p file hcs
  have hlen := h.length
  have hsplit := Nat.div_add_mod r v
  rw [hword, (hlast hpos).2] at hsplit
  have hzero : b * t ≤ b * (r % v) := Nat.mul_le_mul_left b (by omega)
  rw [hmem, hword, (hlast hpos).2, Function.update_self]
  apply BitVec.eq_of_getLsbD_eq
  intro i hi
  rw [getLsbD_lane, h.below _ (by omega), Bool.and_false]
  exact BitVec.getLsbD_zero.symm

/-- The words behind it are as they were. -/
theorem compress_fresh {i : Nat} (hpos : 0 < (codesOf p file).length) (hi : ((codesOf p file).length - 1) / v < i) :
    (p.compress file b).1.compressed i = p.compressed i := by
  obtain ⟨t, s, h, hlast, hmem⟩ := exists_packed_compress hb hv p file hcs
  rw [(hlast hpos).2] at hi
  rw [hmem, Function.update_of_ne (by omega)]
  exact h.rest i (by omega)

end Compress

/-- The next partition starts after the lines of this one. -/
theorem compress_rest (p : Partition) (file : List Line) (b : Nat) :
    (p.compress file b).2 = file.drop p.partSize.toNat := by
  unfold Partition.compress
  rw [compressLoop_eq, sub_zero]

end SdbFpga.Data
