import SdbFpga.Data.Dictionary
import SdbFpga.Sched.ScanCount

/-!
# The semi-join with the date table

The join looks the codes of `lo_orderdate` up in the bit vector of the `d_year` scan. The codes number the distinct
values of the fact table's own column, the bits are those of the rows of the date table.

* `JoinApi`, `createSemiJoin`, `getScanResult`, `JoinApi.lookup`;
* `rank_of_row` : in an ascending key column a row's number is the rank of its key;
* `rank_orders_le`, `rank_orders_eq_iff` : the two numberings of a key;
* `JoinsDates`, `joinsDates_bits_iff`, `joinsDates_iff` : when every row is given the bit of its date.
-/

namespace SdbFpga.Sched
open Bits Text Data Fpga Api

/-- `JoinApi`. -/
structure JoinApi extends JobWrapper where
  bitMap : Nat → Word
  bitmapSize : Int

/-- The constructor. -/
def JoinApi.new (joinJob : JobType) (fkColumn : Column) (bitMap : Nat → Word) (bitmapSize : Int) : JoinApi :=
  { JobWrapper.new joinJob fkColumn with
    bitMap := bitMap
    bitmapSize := bitmapSize }

/-- `initializeJoinOperator`. -/
def JoinApi.initializeJoinOperator (j : JoinApi) (fresh : Nat → Word) : JoinApi :=
  { j with toJobWrapper := j.reserveResultBuffer fresh }

/-- `createSemiJoin`. -/
def createSemiJoin (dScan : ScanApi) (fkColumn : Column) (bitMap fresh : Nat → Word) : JoinApi :=
  (JoinApi.new .loDateJoin fkColumn bitMap dScan.baseColumn.colSize).initializeJoinOperator fresh

/-- `getScanResult`. -/
def getScanResult (dScan : ScanApi) (scanJob : JobType) : Option (Nat → Word) :=
  if scanJob = .dYearScan then some dScan.bitResult else none

/-- `bit_map[key]`. -/
def JoinApi.lookup (j : JoinApi) (key : Nat) : Bool := bitAt j.bitMap key

/-- The join of a query looks up in the result of its `d_year` scan. -/
theorem lookup_createSemiJoin {dScan : ScanApi} {bitMap : Nat → Word} (h : getScanResult dScan .dYearScan = some bitMap)
    (fkColumn : Column) (fresh : Nat → Word) (key : Nat) :
    (createSemiJoin dScan fkColumn bitMap fresh).lookup key = bitAt dScan.bitResult key := by
  rw [getScanResult, if_pos rfl, Option.some.injEq] at h
  rw [h]
  rfl

/-! ## Two numberings of a key -/

section Keys
variable {d : DataType} {dates orders : List Line} (hd : d ≠ .double)
include hd

/-- In an ascending key column a row's number is the rank of its key. -/
theorem rank_of_row (hdates : dates.Pairwise fun a b => d.cmp a b = .lt) {x y : Line} {i : Nat}
    (hi : dates[i]? = some y) (hxy : d.cmp x y = .eq) : d.rank dates x = i := by
  match d with
  | .int =>
    have hvalue : atoi x = atoi y := Std.compare_eq_iff_eq.mp hxy
    have hvalues : (dates.map atoi).Pairwise fun a b => compare a b = .lt := List.pairwise_map.mpr hdates
    show Rank.rank (dates.map atoi).toFinset (atoi x) = i
    exact Rank.rank_of_getElem? hvalues (by rw [List.getElem?_map, hi, hvalue]; rfl)
  | .string =>
    have hvalue : x = y := Std.compare_eq_iff_eq.mp hxy
    rw [hvalue]
    exact Rank.rank_of_getElem? hdates hi

variable (hocc : ∀ x ∈ orders, ∃ y ∈ dates, d.cmp x y = .eq) (x : Line)
include hocc

/-- The fact table numbers a key no higher than the date table does, and alike exactly if every smaller date occurs in
it. -/
theorem rank_orders : d.rank orders x ≤ d.rank dates x ∧ (d.rank orders x = d.rank dates x ↔
    ∀ y ∈ dates, d.cmp y x = .lt → ∃ z ∈ orders, d.cmp z y = .eq) := by
  match d with
  | .int =>
    have hsub : (orders.map atoi).toFinset ⊆ (dates.map atoi).toFinset := by
      intro k hk
      rw [List.mem_toFinset] at hk ⊢
      obtain ⟨l, hl, rfl⟩ := List.mem_map.mp hk
      obtain ⟨y, hy, heq⟩ := hocc l hl
      rw [show atoi l = atoi y from Std.compare_eq_iff_eq.mp heq]
      exact List.mem_map_of_mem hy
    refine ⟨Rank.rank_le_rank_of_subset hsub _, (Rank.rank_eq_rank_iff hsub _).trans ?_⟩
    constructor
    · intro h y hy hlt
      have hmem := h (atoi y) (List.mem_toFinset.mpr (List.mem_map_of_mem hy)) hlt
      obtain ⟨z, hz, heq⟩ := List.mem_map.mp (List.mem_toFinset.mp hmem)
      exact ⟨z, hz, Std.compare_eq_iff_eq.mpr heq⟩
    · intro h k hk hlt
      obtain ⟨y, hy, rfl⟩ := List.mem_map.mp (List.mem_toFinset.mp hk)
      obtain ⟨z, hz, heq⟩ := h y hy hlt
      rw [List.mem_toFinset, ← show atoi z = atoi y from Std.compare_eq_iff_eq.mp heq]
      exact List.mem_map_of_mem hz
  | .string =>
    have hsub : orders.toFinset ⊆ dates.toFinset := by
      intro k hk
      rw [List.mem_toFinset] at hk ⊢
      obtain ⟨y, hy, heq⟩ := hocc k hk
      rw [show k = y from Std.compare_eq_iff_eq.mp heq]
      exact hy
    refine ⟨Rank.rank_le_rank_of_subset hsub _, (Rank.rank_eq_rank_iff hsub _).trans ?_⟩
    constructor
    · intro h y hy hlt
      exact ⟨y, List.mem_toFinset.mp (h y (List.mem_toFinset.mpr hy) hlt), Std.compare_eq_iff_eq.mpr rfl⟩
    · intro h y hy hlt
      obtain ⟨z, hz, heq⟩ := h y (List.mem_toFinset.mp hy) hlt
      rw [← show z = y from Std.compare_eq_iff_eq.mp heq]
      exact List.mem_toFinset.mpr hz

end Keys

/-! ## The bit of a date -/

/-- For every row of the fact table the bit looked up for its key is the scan bit of the date row with that key. -/
def JoinsDates (d : DataType) (dates orders file : List Line) (dScan : ScanApi) (join : JoinApi) : Prop :=
  ∀ (r : Nat) (x : Line) (code : Nat), orders[r]? = some x → file[r]? = some (decimal code) →
    ∀ (i : Nat) (y : Line), dates[i]? = some y → d.cmp x y = .eq → join.lookup code = bitAt dScan.bitResult i

section Join
variable {d : DataType} {dates orders file : List Line} {c : Column} (hd : d ≠ .double)
  (hdates : dates.Pairwise fun a b => d.cmp a b = .lt) (hocc : ∀ x ∈ orders, ∃ y ∈ dates, d.cmp x y = .eq)
  (h : Loaded d orders file c)
include hd hdates hocc h

/-- One scan: at every key of the fact table, the bits of the two numbers agree. -/
theorem joinsDates_bits_iff {dScan : ScanApi} {bitMap : Nat → Word}
    (hmap : getScanResult dScan .dYearScan = some bitMap) (fresh : Nat → Word) :
    JoinsDates d dates orders file dScan (createSemiJoin dScan c bitMap fresh) ↔
      ∀ x ∈ orders, bitAt dScan.bitResult (d.code orders x).toNat = bitAt dScan.bitResult (d.rank dates x) := by
  constructor
  · intro hjoin x hx
    obtain ⟨r, hr⟩ := List.mem_iff_getElem?.mp hx
    obtain ⟨y, hy, heq⟩ := hocc x hx
    obtain ⟨i, hi⟩ := List.mem_iff_getElem?.mp hy
    have hbit := hjoin r x _ hr (h.code_of_row hd hr) i y hi heq
    rw [lookup_createSemiJoin hmap] at hbit
    rw [hbit, rank_of_row hd hdates hi heq]
  · intro hbits r x code hr hcode i y hi heq
    rw [h.code_of_row hd hr, Option.some.injEq] at hcode
    rw [lookup_createSemiJoin hmap, ← decimal_injective hcode, hbits x (List.mem_of_getElem? hr),
      rank_of_row hd hdates hi heq]

omit hdates h in
/-- A code is the number of the date row exactly if no smaller date is missing in the fact table. -/
theorem toNat_code_eq_rank_iff (x : Line) : (d.code orders x).toNat = d.rank dates x ↔
    d.rank dates x < 2 ^ 32 ∧ ∀ y ∈ dates, d.cmp y x = .lt → ∃ z ∈ orders, d.cmp z y = .eq := by
  obtain ⟨hle, hiff⟩ := rank_orders hd hocc x
  rw [← hiff, DataType.code, BitVec.toNat_ofNat]
  have hmod := Nat.mod_le (d.rank orders x) (2 ^ 32)
  constructor
  · intro heq
    have hlt := Nat.mod_lt (d.rank orders x) (Nat.two_pow_pos 32)
    omega
  · rintro ⟨hlt, heq⟩
    rw [Nat.mod_eq_of_lt (by omega), heq]

/-- In one scan the join is right exactly if at every key the bits of the two numbers agree. In all scans it is right
exactly if the fact table misses no date below one that occurs (and there are codes for all of them). -/
theorem joinsDates_iff :
    (∀ (dScan : ScanApi) (bitMap fresh : Nat → Word), getScanResult dScan .dYearScan = some bitMap →
      (JoinsDates d dates orders file dScan (createSemiJoin dScan c bitMap fresh) ↔
        ∀ x ∈ orders, bitAt dScan.bitResult (d.code orders x).toNat = bitAt dScan.bitResult (d.rank dates x))) ∧
    ((∀ (dScan : ScanApi) (bitMap fresh : Nat → Word), getScanResult dScan .dYearScan = some bitMap →
      JoinsDates d dates orders file dScan (createSemiJoin dScan c bitMap fresh)) ↔
        ∀ x ∈ orders, d.rank dates x < 2 ^ 32 ∧
          ∀ y ∈ dates, d.cmp y x = .lt → ∃ z ∈ orders, d.cmp z y = .eq) := by
  have hone := fun (dScan : ScanApi) (bitMap fresh : Nat → Word)
    (hmap : getScanResult dScan .dYearScan = some bitMap) => joinsDates_bits_iff hd hdates hocc h hmap fresh
  refine ⟨hone, ?_⟩
  constructor
  · intro hall x hx
    rw [← toNat_code_eq_rank_iff hd hocc x]
    -- a scan that selects the date of `x` only
    obtain ⟨mem, hmem⟩ := exists_bitAt (w := 64) (by decide) fun r => decide (r = d.rank dates x)
    have hbits := (hone { ScanApi.new .dYearScan c .eq 0 with bitResult := mem } mem (fun _ => 0) rfl).mp
      (hall _ _ _ rfl) x hx
    simp only [hmem, decide_true, decide_eq_true_eq] at hbits
    exact hbits
  · intro hall dScan bitMap fresh hmap
    rw [hone dScan bitMap fresh hmap]
    intro x hx
    rw [(toNat_code_eq_rank_iff hd hocc x).mpr (hall x hx)]

end Join

/-- A scan whose write buffers were copied. -/
def scanned (scan : ScanApi) (writeBuffers : Int → Nat → Word) : ScanApi :=
  { scan with toJobWrapper := copyLoop scan writeBuffers }

/-- The scan of two dates, of 1992 and of 1993, for the second year. -/
def secondYearScan : ScanApi :=
  ScanUnit.dYear.scan (pagedColumn { Column.new 2 with numOfBits := 4 } [0, 1] fun _ _ => 0) .eq 1 (-1) fun _ => 0

/-- The fact table has an order of the first date. -/
theorem joinsDates_iff_first_date : ∃ file c, Loaded .int ["19921231".toList] file c ∧
    JoinsDates .int ["19921231".toList, "19930101".toList] ["19921231".toList] file secondYearScan
      (createSemiJoin secondYearScan c secondYearScan.bitResult fun _ => 0) := by
  obtain ⟨file, c, h⟩ := exists_loaded (d := .int) ["19921231".toList]
  exact ⟨file, c, h, (joinsDates_iff (by decide) (by decide) (by decide) h).2.mpr (by decide) _ _ _ rfl⟩

/-- It has an order of the second date only: the join looks up the bit of the first one. -/
theorem missing_date : ∃ file c writeBuffers, Loaded .int ["19930101".toList] file c ∧
    (∀ p : Nat, FilledBy secondYearScan (dataBlock secondYearScan.baseColumn) writeBuffers p) ∧
    ¬ JoinsDates .int ["19921231".toList, "19930101".toList] ["19930101".toList] file
      (scanned secondYearScan writeBuffers) (createSemiJoin (scanned secondYearScan writeBuffers) c
        (scanned secondYearScan writeBuffers).bitResult fun _ => 0) := by
  obtain ⟨file, c, h⟩ := exists_loaded (d := .int) ["19930101".toList]
  have hfilled := fun p : Nat =>
    filledBy_writeBuffer secondYearScan (dataBlock secondYearScan.baseColumn) (fun _ => 0) p
  have hrow : ∀ (R : Nat) (hR : R < 2), bitAt (scanned secondYearScan _).bitResult R = true ↔
      ScanUnit.dYear.Selects 1 (2 ^ 32 - 1) [0, 1][R] :=
    fun _ hR => bitAt_row (c := { Column.new 2 with numOfBits := 4 }) rfl rfl rfl (by decide) (by decide) (by decide)
      (fun p _ => hfilled p) (hR.trans (by decide)) hR
  refine ⟨file, c, _, h, hfilled, ?_⟩
  rw [joinsDates_bits_iff (by decide) (by decide) (by decide) h rfl]
  intro hbits
  have hbit := hbits _ List.mem_cons_self
  have hcode : (DataType.int.code ["19930101".toList] "19930101".toList).toNat = 0 := by decide
  have hrank : DataType.int.rank ["19921231".toList, "19930101".toList] "19930101".toList = 1 := by decide
  rw [hcode, hrank] at hbit
  have hset := (hrow 1 (by decide)).mpr (by decide)
  have hclear := (hrow 0 (by decide)).mp (hbit.trans hset)
  exact absurd hclear (by decide)

end SdbFpga.Sched
