import SdbFpga.Api.JoinCopy
import SdbFpga.Api.ScanOnFpga
import SdbFpga.Fpga.JoinMemory

/-!
# A semi-join on the FPGA, from the keys to the bit vector

* `getLsbD_joinWord_line` : a bit of the copied words is a bit of a result line;
* `hostLines` : a result buffer as the host copies it;
* `joined_on_fpga` : after a partition of keys is written and delivered, the copy of its result buffer sets exactly the
  bits of the rows whose key is in the bitmap.
-/

namespace SdbFpga.Api
open Bits Text Data Fpga Transition PostedWrites

/-- Bit `i % 64` of word `i / 64` of the copy is bit `i % 32` of line `i / 32`. -/
theorem getLsbD_joinWord_line {lines : List ClData} {i : Nat} (hi : i / 32 < lines.length) :
    (joinWord (joinBuffer lines) (i / 64)).getLsbD (i % 64) = (lines.getD (i / 32) 0).getLsbD (i % 32) := by
  have hhalf : ∀ k r, k < lines.length → r < 32 →
      ((joinBuffer lines).getD (16 * k) 0).getLsbD r = (lines.getD k 0).getLsbD r := by
    intro k r hk hr
    have hword : (joinBuffer lines).getD (16 * k) 0 = lane 32 0 (lines.getD k 0) := by
      rw [List.getD_eq_getElem?_getD, getElem?_joinBuffer _ hk]
      rfl
    rw [hword, getLsbD_lane, decide_eq_true hr, Bool.true_and, Nat.mul_zero, Nat.zero_add]
  have hlow : 32 * (i / 64) = 16 * (2 * (i / 64)) := by omega
  have hhigh : 32 * (i / 64) + 16 = 16 * (2 * (i / 64) + 1) := by omega
  rw [getLsbD_joinWord _ _ (Nat.mod_lt i (by decide))]
  by_cases hr : i % 64 < 32
  · have hline : 2 * (i / 64) = i / 32 := by omega
    have hbit : i % 64 = i % 32 := by omega
    rw [if_pos hr, hlow, hline, hhalf _ _ hi hr, hbit]
  · have hline : 2 * (i / 64) + 1 = i / 32 := by omega
    have hbit : i % 64 - 32 = i % 32 := by omega
    rw [if_neg hr, hhigh, hline, hhalf _ _ hi (by omega), hbit]

/-- The 64 lines of the buffer at line `a`. -/
def hostLines (mem : ClAddr → ClData) (a : ClAddr) : List ClData :=
  (List.range 64).map fun i => mem (a + BitVec.ofNat 42 i)

theorem getD_hostLines (mem : ClAddr → ClData) (a : ClAddr) {i : Nat} (hi : i < 64) :
    (hostLines mem a).getD i 0 = mem (a + BitVec.ofNat 42 i) := by
  rw [hostLines, List.getD_eq_getElem?_getD, List.getElem?_map, List.getElem?_range hi]
  rfl

theorem length_joinBuffer_hostLines (mem : ClAddr → ClData) (a : ClAddr) :
    (joinBuffer (hostLines mem a)).length = 1024 := by
  rw [joinBuffer, List.length_map, List.length_range, hostLines, List.length_map, List.length_range]

section Path
variable {j : JobWrapper} (hbits : j.baseColumn.numOfBits = 16) (hrows : 2048 ≤ j.baseColumn.colSize)
  (hpages : (j.baseColumn.numOfPartitions : Int) = j.baseColumn.numOfPagesRequired pageSize) {p : Nat}
  (hp : p < j.baseColumn.numOfPartitions) (result : Nat → Word)
include hbits hrows hpages hp

/-- The copy of a buffer whose bits are the join of the rows. -/
theorem joinCopied_of_rows {bitmap : Nat → Bool} {codes : List Nat} (hlen : codes.length = 2048)
    {buff : List (BitVec 32)} (hbuff : buff.length = 1024)
    (hjoin : ∀ i (h : i < codes.length), (joinWord buff (i / 64)).getLsbD (i % 64) = bitmap codes[i]) :
    ∃ new, JoinCopied bitmap codes buff (j.reserveResultBuffer result) new p := by
  have hmany := numOfPagesRequired_le j.baseColumn
  have hres : (j.reserveResultBuffer result).resBuffLen = (32 : Nat) := by
    show (if j.baseColumn.colSize < ((pageSize : Int) * 8).tdiv j.baseColumn.numOfBits then _ else _) = _
    rw [hbits]
    exact if_neg (by show ¬ j.baseColumn.colSize < 2048; omega)
  have hsz : (j.reserveResultBuffer result).bitVectorSize = ((j.baseColumn.numOfPartitions * 32 : Nat) : Int) := by
    show int32 ((j.reserveResultBuffer result).resBuffLen * j.baseColumn.numOfPartitions) = _
    rw [hres, int32, Int.mul_comm, ← Int.natCast_mul, Int.bmod_eq_of_le (by omega) (by omega)]
  have hstores : (j.reserveResultBuffer result).joinStores buff p =
      (List.range 32).map fun (i : Nat) => (((p * 32 : Nat) : Int) + i, joinWord buff i) := by
    rw [JobWrapper.joinStores, hres, int32, ← Int.natCast_mul, Int.bmod_eq_of_le (by omega) (by omega),
      Int.toNat_natCast]
  have hcopied := copied_stores (j.reserveResultBuffer result) (joinWord buff) (p * 32) 32
  rw [← hstores] at hcopied
  refine ⟨_, copyFPGAWriteBuffer32_eq p hres (by omega), ?_, ?_, hcopied.frame, ?_⟩
  · intro i hi
    rw [hres, Int.toNat_natCast, hcopied.copied (i / 64) (by omega) (by rw [hsz]; omega)]
    exact hjoin i hi
  · rw [hstores, hres, hsz, List.map_map]
    intro ind hind
    obtain ⟨i, hi, rfl⟩ := List.mem_map.mp hind
    rw [List.mem_range] at hi
    show ((p : Int) * (32 : Nat) ≤ ((p * 32 : Nat) : Int) + i) ∧ ((p * 32 : Nat) : Int) + i < (p + 1) * (32 : Nat) ∧
      ((p * 32 : Nat) : Int) + i < ((j.baseColumn.numOfPartitions * 32 : Nat) : Int)
    omega
  · intro ind hind
    rw [hres] at hind
    exact hcopied.rest ind (by omega)

/-- A full partition of foreign keys through the cycle-level unit and the memory: the copy of its result buffer reads
no word behind it, stores to its slice only, and sets the bit of a row exactly if its key is in the bitmap. -/
theorem joined_on_fpga {part : Partition} (hsize : part.partSize = 2048) {codes : List Nat}
    (hlen : codes.length = 2048) {dim : Nat} (hdim : dim ≤ 2560) (hcodes : ∀ x ∈ codes, x < dim) (rest : List Line)
    {bitmap : Nat → Bool} {σ : JoinMemSys} (h : Reachable (joinDevice dim bitmap).withMemory σ) {n : Nat}
    {run : JoinRun} (hdel : JoinDelivers σ n run)
    (hpage : ∀ i < 64, σ.host.mem (run.pageLine i) = cacheLine ((part.initializePageAlignedPartition 16).compress
      (codes.map decimal ++ rest) 16).1.compressed i) :
    ∃ new, JoinCopied bitmap codes (joinBuffer (hostLines σ.host.mem run.result)) (j.reserveResultBuffer result) new
      p := by
  apply joinCopied_of_rows hbits hrows hpages hp result hlen (length_joinBuffer_hostLines _ _)
  intro i hi
  have hline : i / 32 < 64 := by omega
  have hlane : i % 32 < 32 := Nat.mod_lt i (by decide)
  have hlen' : i / 32 < (hostLines σ.host.mem run.result).length := by
    rw [hostLines, List.length_map, List.length_range]
    exact hline
  have hmem : σ.host.mem (run.result + BitVec.ofNat 42 (i / 32)) =
      joinLine bitmap (σ.host.mem (run.pageLine (i / 32))) :=
    hdel.line hdim h hline
  have hkey := lane_packed hsize hlen hdim hcodes rest hlane (i := i / 32) (by omega)
  have hrow : 32 * (i / 32) + i % 32 = i := Nat.div_add_mod i 32
  simp only [hrow] at hkey
  rw [getLsbD_joinWord_line hlen', getD_hostLines _ _ hline, hmem, getLsbD_joinLine, decide_eq_true hlane,
    Bool.true_and, hpage _ hline, hkey]

end Path

/-- Key 1 in every 32nd row, key 0 in the others. -/
def oneKeys : List Nat := (List.range 2048).map fun i => if i % 32 = 0 then 1 else 0

/-- The partition they are compressed into. -/
def onePage : Partition := Partition.new 0 0 2048 fun _ => 0

theorem partSize_onePage : onePage.partSize = 2048 := by decide

theorem length_oneKeys : oneKeys.length = 2048 := by rw [oneKeys, List.length_map, List.length_range]

theorem oneKeys_lt : ∀ x ∈ oneKeys, x < 2 := by
  intro x hx
  obtain ⟨j, _, rfl⟩ := List.mem_map.mp hx
  split <;> decide

/-- Every line of their page is 1. -/
theorem cacheLine_oneKeys {i : Nat} (hi : i < 64) : cacheLine ((onePage.initializePageAlignedPartition 16).compress
    (oneKeys.map decimal ++ ([] : List Line)) 16).1.compressed i = 1 := by
  apply BitVec.eq_of_getLsbD_eq
  intro b hb
  have hl : b / 16 < 32 := by omega
  have hrow : 32 * i + b / 16 < oneKeys.length := by
    rw [length_oneKeys]
    omega
  have hmod : b % 16 < 16 := Nat.mod_lt b (by decide)
  have hlane := lane_packed partSize_onePage length_oneKeys (by decide : 2 ≤ 2560) oneKeys_lt [] hl hrow
  have hbit := congrArg (fun v => v.testBit (b % 16)) hlane
  simp only [BitVec.testBit_toNat, getLsbD_lane, decide_eq_true hmod, Bool.true_and, Nat.div_add_mod] at hbit
  have hzero : (32 * i + b / 16) % 32 = 0 ↔ b / 16 = 0 := by omega
  have hcode : oneKeys[32 * i + b / 16] = if b / 16 = 0 then 1 else 0 := by
    simp only [oneKeys, List.getElem_map, List.getElem_range, hzero]
  rw [hbit, hcode]
  show _ = (1#512).getLsbD b
  rw [BitVec.getLsbD_one]
  by_cases h0 : b / 16 = 0
  · have hb16 : b % 16 = b := by omega
    rw [if_pos h0, hb16]
    cases b <;> simp [Nat.testBit_succ]
  · have hne : b ≠ 0 := by omega
    simp [h0, hne]

/-- The partition of these keys that the script joins. -/
theorem joined_on_fpga_ones : ∃ p new, JoinDelivers joined 1 p ∧ JoinCopied (· == 0) oneKeys
    (joinBuffer (hostLines joined.host.mem p.result)) ((JobWrapper.new .loDateJoin (({ Column.new 2048 with
      numOfBits := 16 } : Column).initializePageAlignedPartitions fun _ _ => 0)).reserveResultBuffer fun _ => 0) new
        0 := by
  obtain ⟨p, hdel, hbase⟩ := delivers_joined
  have hmem : ∀ i < 64, joined.host.mem (2 + BitVec.ofNat 42 i) = 1 := by decide +kernel
  have hpage : ∀ i < 64, joined.host.mem (p.pageLine i) = cacheLine ((onePage.initializePageAlignedPartition
      16).compress (oneKeys.map decimal ++ ([] : List Line)) 16).1.compressed i := by
    intro i hi
    rw [JoinRun.pageLine, hbase, hmem i hi, cacheLine_oneKeys hi]
  obtain ⟨new, hnew⟩ := joined_on_fpga (j := .new .loDateJoin (({ Column.new 2048 with
    numOfBits := 16 } : Column).initializePageAlignedPartitions fun _ _ => 0)) rfl (by decide) (by decide) (p := 0)
      (by decide) (fun _ => 0) partSize_onePage length_oneKeys (by decide) oneKeys_lt [] reachable_joined hdel hpage
  exact ⟨p, new, hdel, hnew⟩

end SdbFpga.Api
