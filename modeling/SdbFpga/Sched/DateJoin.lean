import SdbFpga.Api.JoinOnFpga
import SdbFpga.Data.Pages
import SdbFpga.Data.Table
import SdbFpga.Sched.ColumnScan
import SdbFpga.Sched.SemiJoin

/-!
# The join with the date table, from `base.dat` to the bit vector

`lo_orderdate` is loaded in 16 bits, its pages go through `join_afu` with the bits of the `d_year` scan as the bitmap,
and the last loop of `joinAtATime` copies all result buffers.

* `joinCopyLoop`, `JoinedAll` : that loop and what it leaves behind;
* `joinBits_row` : a bit of a result buffer is the bitmap at the code of its row;
* `Probed` : every page went through the unit;
* `date_join` : the bit vector is the semi-join of the two tables.
-/

namespace SdbFpga.Sched
open Bits Text Data Fpga Api Transition PostedWrites

/-! ## The copy of all result buffers -/

/-- The last loop of `joinAtATime`. -/
def joinCopyLoop (j : JobWrapper) (writeBuffers : Nat → List (BitVec 32)) : Option JobWrapper :=
  (List.range j.totalPartitions.toNat).foldlM
    (fun (job : JobWrapper) (buffId : Nat) => job.copyFPGAWriteBuffer32 (writeBuffers buffId) buffId) j

/-- After the buffers `0 .. k-1` were copied their slices hold their words. -/
structure JoinedAll (j : JobWrapper) (writeBuffers : Nat → List (BitVec 32)) (len k : Nat) (job : JobWrapper) :
    Prop where
  frame : job = { j with bitResult := job.bitResult }
  copied : ∀ p < k, ∀ i < len, job.bitResult (p * len + i) = joinWord (writeBuffers p) i

section Copy
variable {j : JobWrapper} {writeBuffers : Nat → List (BitVec 32)} {len n : Nat} (hlen : j.resBuffLen = len)
  (hbuff : ∀ p, 32 * len ≤ (writeBuffers p).length) (hsize : ((n * len : Nat) : Int) ≤ j.bitVectorSize)
  (hint : n * len < 2 ^ 31)
include hlen hbuff hsize hint

/-- One buffer more. -/
theorem JoinedAll.copy {k : Nat} (hk : k < n) {job : JobWrapper} (h : JoinedAll j writeBuffers len k job) :
    ∃ job', job.copyFPGAWriteBuffer32 (writeBuffers k) k = some job' ∧ JoinedAll j writeBuffers len (k + 1) job' := by
  have hjlen : job.resBuffLen = len := by
    rw [h.frame]
    exact hlen
  have hjsize : job.bitVectorSize = j.bitVectorSize := by rw [h.frame]
  have hend : (k + 1) * len ≤ n * len := Nat.mul_le_mul_right len hk
  rw [Nat.succ_mul] at hend
  have hstores : job.joinStores (writeBuffers k) k =
      (List.range len).map fun (i : Nat) => (((k * len : Nat) : Int) + i, joinWord (writeBuffers k) i) := by
    rw [JobWrapper.joinStores, hjlen, int32, ← Int.natCast_mul, Int.bmod_eq_of_le (by omega) (by omega),
      Int.toNat_natCast]
  have hcopied := copied_stores job (joinWord (writeBuffers k)) (k * len) len
  rw [← hstores] at hcopied
  have hcopy := copyFPGAWriteBuffer32_eq k hjlen (hbuff k)
  generalize (job.joinStores (writeBuffers k) k).foldl (fun j s => j.store s.1 s.2) job = job' at hcopied hcopy
  refine ⟨job', hcopy, ?_, ?_⟩
  · calc job' = { job with bitResult := job'.bitResult } := hcopied.frame
      _ = { j with bitResult := job'.bitResult } :=
        congrArg (fun w : JobWrapper => { w with bitResult := job'.bitResult }) h.frame
  · intro p hp i hi
    rcases Nat.lt_or_eq_of_le (Nat.le_of_lt_succ hp) with hlt | rfl
    · have hbefore := Nat.mul_le_mul_right len (Nat.succ_le_of_lt hlt)
      rw [Nat.succ_mul] at hbefore
      rw [hcopied.rest _ (.inl (by omega))]
      exact h.copied p hlt i hi
    · exact hcopied.copied i hi (by rw [hjsize]; omega)

/-- The whole loop. -/
theorem joinedAll_joinCopyLoop (htotal : j.totalPartitions = n) :
    ∃ job, joinCopyLoop j writeBuffers = some job ∧ JoinedAll j writeBuffers len n job := by
  have hrun : ∀ k ≤ n, ∃ job, (List.range k).foldlM
      (fun (job : JobWrapper) (buffId : Nat) => job.copyFPGAWriteBuffer32 (writeBuffers buffId) buffId) j =
        some job ∧ JoinedAll j writeBuffers len k job := by
    intro k
    induction k with
    | zero =>
      intro _
      refine ⟨j, rfl, rfl, ?_⟩
      intro p hp
      omega
    | succ k ih =>
      intro hk
      obtain ⟨job, hjob, hall⟩ := ih (by omega)
      obtain ⟨job', hjob', hall'⟩ := hall.copy hlen hbuff hsize hint (by omega)
      refine ⟨job', ?_, hall'⟩
      rw [List.range_succ, List.foldlM_append, hjob, Option.bind_eq_bind, Option.bind_some, List.foldlM_cons, hjob']
      rfl
  unfold joinCopyLoop
  rw [htotal, Int.toNat_natCast]
  exact hrun n le_rfl

end Copy

/-! ## The rows of a page -/

section Page
variable {c : Column} {fresh : Nat → Nat → Word} {codes : List Nat} {p : Nat} {q : Partition}
  (hbits : c.numOfBits = (16 : Nat)) (hnil : c.partitions = [])
  (hq : (pagedColumn c codes fresh).partitions[p]? = some q)
include hbits hnil hq

/-- Row `r` of a page of keys is lane `r % 32` of its line `r / 32`. -/
theorem lane_keyLine (hcodes : ∀ x ∈ codes, x < 2 ^ 16) {r : Nat} (hr : r < 2048)
    (hrow : p * 2048 + r < codes.length) :
    (lane 16 (r % 32) (cacheLine q.compressed (r / 32))).toNat = codes[p * 2048 + r] := by
  have hmod : r % 32 % 4 = r % 4 := Nat.mod_mod_of_dvd r (by decide)
  have hword : 8 * (r / 32) + r % 32 / 4 = r / 4 := by omega
  have hlane := lane_page (b := 16) (v := 4) (by decide) (by decide) hbits hnil hq
    (fun x hx => ⟨hcodes x hx, (hcodes x hx).trans (by decide)⟩) hr hrow
  have hlt := hcodes _ (List.getElem_mem hrow)
  rw [lane_cacheLine (w := 16) (v := 4) (by decide) _ _ _ (by omega), hmod, hword, hlane, BitVec.toNat_ofNat]
  exact Nat.mod_eq_of_lt hlt

end Page

/-- Every page of the column went through the unit as a partition of keys that is written and delivered, to the result
buffer at `results`. -/
def Probed (σ : JoinMemSys) (column : Column) (results : Nat → ClAddr) : Prop :=
  ∀ p < column.numOfPartitions, ∃ n run, JoinDelivers σ n run ∧ run.result = results p ∧
    ∀ i < 64, σ.host.mem (run.pageLine i) = cacheLine (dataBlock column p) i

/-- The result buffers, as `uint32_t` words. -/
def resultBuffers (σ : JoinMemSys) (results : Nat → ClAddr) (p : Nat) : List (BitVec 32) :=
  joinBuffer (hostLines σ.host.mem (results p))

section Rows
variable {c : Column} {fresh : Nat → Nat → Word} {codes : List Nat} (hbits : c.numOfBits = (16 : Nat))
  (hnil : c.partitions = []) (hcodes : ∀ x ∈ codes, x < 2 ^ 16) {dim : Nat} (hdim : dim ≤ 2560)
  {bitmap : Nat → Bool} {σ : JoinMemSys} (h : Reachable (joinDevice dim bitmap).withMemory σ)
  {results : Nat → ClAddr} (hprobed : Probed σ (pagedColumn c codes fresh) results)
include hbits hnil hcodes hdim h hprobed

/-- A bit of a result buffer is the bitmap at the code of its row. -/
theorem joinBits_row {p r : Nat} (hp : p < (pagedColumn c codes fresh).numOfPartitions) (hr : r < 2048)
    (hrow : p * 2048 + r < codes.length) :
    (joinWord (resultBuffers σ results p) (r / 64)).getLsbD (r % 64) = bitmap codes[p * 2048 + r] := by
  obtain ⟨n, run, hdel, hresult, hpage⟩ := hprobed p hp
  have hq := List.getElem?_eq_getElem hp
  have hline : r / 32 < 64 := by omega
  have hlen : r / 32 < (hostLines σ.host.mem (results p)).length := by
    rw [hostLines, List.length_map, List.length_range]
    exact hline
  have hmem : σ.host.mem (results p + BitVec.ofNat 42 (r / 32)) =
      joinLine bitmap (σ.host.mem (run.pageLine (r / 32))) := by
    rw [← hresult]
    exact hdel.line hdim h hline
  have hlane : decide (r % 32 < 32) = true := decide_eq_true (Nat.mod_lt r (by decide))
  rw [resultBuffers, getLsbD_joinWord_line hlen, getD_hostLines _ _ hline, hmem, getLsbD_joinLine, hlane,
    Bool.true_and, hpage _ hline, dataBlock_eq hq, lane_keyLine hbits hnil hq hcodes hr hrow]

/-- After the copy of all buffers the bit of every row is the bitmap at its code. -/
theorem joined_rows (hsize : c.colSize = codes.length) (hfits : 16 * codes.length < 2 ^ 31) (result : Nat → Word) :
    ∃ job, joinCopyLoop ((JobWrapper.new .loDateJoin (pagedColumn c codes fresh)).reserveResultBuffer result)
        (resultBuffers σ results) = some job ∧
      ∀ R (hR : R < codes.length), bitAt job.bitResult R = bitmap codes[R] := by
  have hpages : (pagedColumn c codes fresh).numOfPartitions = (2 * codes.length + 4095) / 4096 := by
    have hprod : c.numOfBits * c.colSize = (16 * codes.length : Nat) := by
      rw [hbits, hsize]
      push_cast
      rfl
    have hnum : (pagedColumn c codes fresh).numOfPartitions = (c.numOfPagesRequired pageSize).toNat :=
      numOfPartitions_compressColumn hnil fresh _
    rw [hnum, numOfPagesRequired_eq (by omega) ⟨by omega, by omega⟩, hprod]
    omega
  obtain ⟨len, hlen⟩ : ∃ len : Nat, len = if codes.length < 2048 then codes.length / 64 + 1 else 32 := ⟨_, rfl⟩
  generalize hj : (JobWrapper.new .loDateJoin (pagedColumn c codes fresh)).reserveResultBuffer result = j
  have hres : j.resBuffLen = len := by
    rw [← hj]
    show (if c.colSize < ((pageSize : Int) * 8).tdiv c.numOfBits then c.colSize.tdiv 64 + 1
      else (((pageSize : Int) * 8).tdiv c.numOfBits).tdiv 64) = _
    have hrows : ((pageSize : Int) * 8).tdiv c.numOfBits = 2048 := by
      rw [hbits]
      rfl
    rw [hrows, hsize, hlen, Int.tdiv_eq_ediv_of_nonneg (Int.natCast_nonneg _)]
    split
    · rw [if_pos (by omega)]
      omega
    · rw [if_neg (by omega)]
      rfl
  have hle : len ≤ 32 := by
    rw [hlen]
    split <;> omega
  have htotal : j.totalPartitions = (pagedColumn c codes fresh).numOfPartitions := by
    rw [← hj]
    rfl
  have hcount : (pagedColumn c codes fresh).numOfPartitions * len < 2 ^ 31 := by
    have hmul := Nat.mul_le_mul_left (pagedColumn c codes fresh).numOfPartitions hle
    omega
  have hvector : j.bitVectorSize = ((pagedColumn c codes fresh).numOfPartitions * len : Nat) := by
    have hwrapped : j.bitVectorSize = int32 (j.resBuffLen * (pagedColumn c codes fresh).numOfPartitions) := by
      rw [← hj]
      rfl
    rw [hwrapped, hres, int32, Int.mul_comm, ← Int.natCast_mul, Int.bmod_eq_of_le (by omega) (by omega)]
  have hbuff : ∀ p, 32 * len ≤ (resultBuffers σ results p).length := by
    intro p
    rw [resultBuffers, length_joinBuffer_hostLines]
    omega
  obtain ⟨job, hjob, hall⟩ := joinedAll_joinCopyLoop hres hbuff hvector.ge hcount htotal
  refine ⟨job, hjob, ?_⟩
  intro R hR
  -- the slice and the word of the row
  have hrow : R / 2048 * 2048 + R % 2048 = R := Nat.div_add_mod' R 2048
  have hpart : R / 2048 < (pagedColumn c codes fresh).numOfPartitions := by omega
  have hword : R % 2048 / 64 < len := by
    rw [hlen]
    split <;> omega
  have hindex : R / 64 = R / 2048 * len + R % 2048 / 64 := by
    rw [hlen]
    split
    · have hzero : R / 2048 = 0 := by omega
      rw [hzero, Nat.zero_mul]
      omega
    · omega
  have hmod : R % 64 = R % 2048 % 64 := by omega
  have hbit := joinBits_row hbits hnil hcodes hdim h hprobed hpart (Nat.mod_lt R (by decide)) (by omega)
  simp only [hrow] at hbit
  rw [bitAt, hindex, hall.copied _ hpart _ hword, hmod, hbit]

end Rows

/-! ## The semi-join of the tables -/

/-- The row has a date whose bit is set: the join of the two tables, one pair of rows at a time. -/
def HasDate (d : DataType) (dates : List Line) (bits : Nat → Bool) (order : Line) : Prop :=
  ∃ i y, dates[i]? = some y ∧ d.cmp order y = .eq ∧ bits i = true

section Keys
variable {d : DataType} {dates orders : List Line} (hd : d ≠ .double)
  (hdates : dates.Pairwise fun a b => d.cmp a b = .lt) (hocc : ∀ x ∈ orders, ∃ y ∈ dates, d.cmp x y = .eq)
include hd hdates hocc

/-- Every order has a date, whose row is the rank of the order's key. -/
theorem exists_date {x : Line} (hx : x ∈ orders) :
    ∃ i y, dates[i]? = some y ∧ d.cmp x y = .eq ∧ d.rank dates x = i := by
  obtain ⟨y, hy, heq⟩ := hocc x hx
  obtain ⟨i, hi⟩ := List.mem_iff_getElem?.mp hy
  exact ⟨i, y, hi, heq, rank_of_row hd hdates hi heq⟩

/-- There are no more keys than dates. -/
theorem distinctValues_le_dates (hpos : 0 < d.distinctValues orders) : d.distinctValues orders ≤ dates.length := by
  obtain ⟨x, hx, hrank⟩ := exists_rank_eq hd (show d.distinctValues orders - 1 < d.distinctValues orders by omega)
  obtain ⟨i, y, hi, _, hdate⟩ := exists_date hd hdates hocc hx
  have hle := (rank_orders hd hocc x).1
  have hlt := (List.getElem?_eq_some_iff.mp hi).1
  omega

/-- Where no smaller date is missing a probe of the bits by code is the join of the tables. -/
theorem probe_iff_hasDate (hmissing : ∀ x ∈ orders, ∀ y ∈ dates, d.cmp y x = .lt → ∃ z ∈ orders, d.cmp z y = .eq)
    (hlen : dates.length ≤ 2 ^ 32) (bits : Nat → Bool) {x : Line} (hx : x ∈ orders) :
    bits (d.code orders x).toNat = true ↔ HasDate d dates bits x := by
  obtain ⟨i, y, hi, heq, hrank⟩ := exists_date hd hdates hocc hx
  have hlt := (List.getElem?_eq_some_iff.mp hi).1
  have hcode : (d.code orders x).toNat = i :=
    ((toNat_code_eq_rank_iff hd hocc x).mpr ⟨by omega, hmissing x hx⟩).trans hrank
  rw [hcode]
  constructor
  · exact fun hbit => ⟨i, y, hi, heq, hbit⟩
  · rintro ⟨i', y', hi', heq', hbit⟩
    have hrank' := rank_of_row hd hdates hi' heq'
    rwa [← hrank, hrank']

end Keys

section Query
variable {files : Files} {basePath dataType : Line} {dates orders : List Line}
  (hrows : (files.lines (lineorderPath basePath ++ "meta.dat".toList)).getD 0 [] = decimal orders.length)
  (hbase : files (lineorderPath basePath ++ "lo_orderdate".toList ++ "/base.dat".toList) = some orders)
  (hvalues : 130 ≤ (baseType dataType).distinctValues orders) (hfits : 16 * orders.length < 2 ^ 31)
  (hdates : dates.Pairwise fun a b => (baseType dataType).cmp a b = .lt) (hdim : dates.length ≤ 2560)
  (hocc : ∀ x ∈ orders, ∃ y ∈ dates, (baseType dataType).cmp x y = .eq)
  (hmissing : ∀ x ∈ orders, ∀ y ∈ dates, (baseType dataType).cmp y x = .lt →
    ∃ z ∈ orders, (baseType dataType).cmp z y = .eq)
include hrows hbase hvalues hfits hdates hdim hocc hmissing

end Query

/-- 130 dates, each of them ordered once. -/
def dateKeys : List Line := (List.range 130).map decimal

def dateFiles : Files := fun path =>
  if path = "/lineorder/meta.dat".toList then some ["130".toList]
  else if path = "/lineorder/lo_orderdate/base.dat".toList then some dateKeys
  else none

/-- Their column. -/
def dateColumn : Option Column :=
  (generate dateFiles (lineorderPath "/".toList ++ "lo_orderdate".toList) "INT".toList).bind fun files' =>
    (((Table.new "lineorder".toList).initializeTable files' "/".toList).createColumn files' "lo_orderdate".toList
      ColumnName.loOrderdate.toInt id fun _ _ => 0).bind fun t => t.getColumn ColumnName.loOrderdate.toInt

/-- Line `i` of their page. -/
def keyLine (i : Nat) : ClData :=
  (List.range 32).foldl
    (fun cl l => cl ||| BitVec.ofNat 512 (if 32 * i + l < 130 then 32 * i + l else 0) <<< (16 * l)) 0

/-- The scan of the dates, in which the second one was selected. -/
def secondDateScan : ScanApi :=
  { ScanApi.new .dYearScan (Column.new 130) .eq 0 with bitResult := fun w => if w = 0 then 2 else 0 }

/-- The bitmap is line 1 of the memory, the page starts at line 2. -/
def keyMemory (a : ClAddr) : ClData := if a = 1 then 2 else if 2 ≤ a.toNat then keyLine (a.toNat - 2) else 0

/-- Where the script ends. -/
def probedKeys : JoinMemSys :=
  (joinDevice 130 (bitAt secondDateScan.bitResult)).withMemory.run ⟨JoinSys.boot, .new keyMemory⟩
    (memoryScript 2 keyLine)

theorem atoi_of_lt {k : Nat} (hk : k ∈ List.range 130) : atoi (decimal k) = k :=
  atoi_decimal k ((List.mem_range.mp hk).trans (by decide))

theorem pairwise_dateKeys : dateKeys.Pairwise fun a b => DataType.int.cmp a b = .lt := by
  rw [dateKeys, List.pairwise_map]
  refine List.pairwise_lt_range.imp_of_mem ?_
  intro a b ha hb hlt
  show compare (atoi (decimal a)) (atoi (decimal b)) = .lt
  rw [atoi_of_lt ha, atoi_of_lt hb, Int.compare_eq_lt]
  omega

theorem distinctValues_dateKeys : DataType.int.distinctValues dateKeys = 130 := by
  have hatoi : dateKeys.map atoi = (List.range 130).map Nat.cast := by
    rw [dateKeys, List.map_map]
    exact List.map_congr_left fun k hk => atoi_of_lt hk
  have hint : ∀ l : List Int, l.dedup.length = l.toFinset.card := fun _ => rfl
  rw [DataType.distinctValues, hint, hatoi, List.toFinset_card_of_nodup, List.length_map, List.length_range]
  exact List.nodup_range.map Nat.cast_injective

end SdbFpga.Sched
