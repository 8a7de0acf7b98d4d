import SdbFpga.Data.Pages
import SdbFpga.Data.Table
import SdbFpga.Sched.ColumnScan
import SdbFpga.Sched.ScanOnFpga

/-!
# The quantity scan of the query, from `base.dat` to the bit vector

`lo_quantity` is the column whose stored width its unit reads. The generator writes its files, the table loads and
packs it, `createColumnScan` looks 24 up, and `scanAtATime` runs the scan on the FPGA.

* `quantityScan_eq` : the job for a constant of the column;
* `countedRows_of_fits` : no row is behind the pages;
* `Answers` : what a finished scan leaves behind;
* `quantity_query` : in every run of the loop it is the rows with a quantity of at most 24.
-/

namespace SdbFpga.Sched
open Bits Text Data Fpga Api Host Transition PostedWrites

/-! ## The job -/

section Job
variable {d : DataType} {base : List Line} {c : Column} (hd : d ≠ .double) (h : Stored d base c)
include hd h

/-- The lookup is in the dictionary, whatever pages the column has been given. -/
theorem compressValue_paged (fresh : Nat → Nat → Word) {v : Line} (hv : v ∈ base) :
    (pagedColumn c (d.storedCodes base) fresh).compressValue v =
      (d.code base v, pagedColumn c (d.storedCodes base) fresh) := by
  have hlookup : (pagedColumn c (d.storedCodes base) fresh).dictionary.lookup v = some (d.code base v) := by
    show c.dictionary.lookup v = _
    rw [h.loaded.lookup_dictionary hd, if_pos hv]
  rw [Column.compressValue, hlookup]

theorem quantityScan_eq (fresh : Nat → Nat → Word) (result : Nat → Word) {v : Line} (hv : v ∈ base) :
    quantityScan (pagedColumn c (d.storedCodes base) fresh) v result =
      (ScanUnit.loQuantity.scan (pagedColumn c (d.storedCodes base) fresh) .le (d.code base v) (-1) result,
        pagedColumn c (d.storedCodes base) fresh) := by
  unfold quantityScan
  rw [compressValue_paged hd h fresh hv]
  rfl

end Job

/-! ## The rows of the pages -/

section Rows
variable {c : Column} {rows : Nat} (hsize : c.colSize = rows) (hbits : c.numOfBits = (8 : Nat))
  (hfits : 8 * rows < 2 ^ 31)
include hsize hbits hfits

theorem numOfPagesRequired_bytes : (c.numOfPagesRequired pageSize).toNat = (rows + 4095) / 4096 := by
  have hprod : c.numOfBits * c.colSize = (8 * rows : Nat) := by
    rw [hbits, hsize]
    push_cast
    rfl
  rw [numOfPagesRequired_eq (by omega) ⟨by omega, by omega⟩, hprod]
  omega

/-- No row is behind the pages. -/
theorem le_countedRows_bytes : rows ≤ countedRows .loQuantity rows (c.numOfPagesRequired pageSize).toNat := by
  rw [numOfPagesRequired_bytes hsize hbits hfits, countedRows]
  have hpage : 512 * ScanUnit.loQuantity.codesPerWord = 4096 := rfl
  rw [hpage]
  split
  · rcases Nat.eq_zero_or_pos rows with rfl | hpos
    · exact Nat.zero_le _
    · have hone : (rows + 4095) / 4096 = 1 := by omega
      rw [hone]
      omega
  · omega

/-- Rows that fill their pages are the bits that are counted. -/
theorem countedRows_of_full (hpos : 0 < rows) (hfull : 4096 ∣ rows) :
    countedRows .loQuantity rows (c.numOfPagesRequired pageSize).toNat = rows := by
  rw [numOfPagesRequired_bytes hsize hbits hfits, countedRows]
  have hpage : 512 * ScanUnit.loQuantity.codesPerWord = 4096 := rfl
  rw [hpage, if_neg (by omega)]
  omega

end Rows

/-! ## The answer -/

/-- The result of a job: a bit for every row, and the count where the rows fill their pages. -/
structure Answers (base : List Line) (selected : Line → Prop) [DecidablePred selected] (job : JobWrapper) : Prop where
  bit : ∀ R (hR : R < base.length), bitAt job.bitResult R = true ↔ selected base[R]
  count : 4096 ∣ base.length → job.countBitResults = (base.countP fun x => decide (selected x) : Nat)

section Answer
variable {d : DataType} {base : List Line} {c : Column} (hd : d ≠ .double) (h : Stored d base c)
  (hvalues : d.distinctValues base ≤ 129) (hfits : 8 * base.length < 2 ^ 31) {v : Line} (hv : v ∈ base)
  {fresh : Nat → Nat → Word} {result : Nat → Word}
include hd h hvalues hfits hv

/-- Filled buffers are the answer for an upper bound that occurs in the column. -/
theorem answers_of_filled {writeBuffers : Int → Nat → Word}
    (hfilled : ∀ p : Nat, p < (pagedColumn c (d.storedCodes base) fresh).numOfPartitions →
      FilledBy (quantityScan (pagedColumn c (d.storedCodes base) fresh) v result).1
        (dataBlock (pagedColumn c (d.storedCodes base) fresh)) writeBuffers p) :
    Answers base (fun x => (d.cmp x v).isLE = true)
      (copyLoop (quantityScan (pagedColumn c (d.storedCodes base) fresh) v result).1 writeBuffers) := by
  rw [quantityScan_eq hd h fresh result hv] at hfilled ⊢
  have hlen : (d.storedCodes base).length = base.length := List.length_map _
  have hbits : c.numOfBits = ScanUnit.loQuantity.bits := by
    rw [h.numOfBits, storedBits, if_pos hvalues]
    rfl
  have hcodes : ∀ x ∈ d.storedCodes base, x < 2 ^ ScanUnit.loQuantity.bits := by
    intro x hx
    have hlt := lt_two_pow_storedBits hd hx
    rwa [storedBits, if_pos hvalues] at hlt
  have hlower : (d.code base v).toNat < 2 ^ ScanUnit.loQuantity.bits := hcodes _ (List.mem_map_of_mem hv)
  have hcode : ∀ {x : Line}, x ∈ base → (d.code base x).toNat = d.rank base x :=
    fun hx => toNat_code hd (fun _ => by omega) hx
  have hselects : ∀ x ∈ base, (ScanUnit.loQuantity.Selects (d.code base v).toNat (-1 : BitVec 32).toNat
      (d.code base x).toNat ↔ (d.cmp x v).isLE = true) := by
    intro x hx
    rw [← rank_le_rank_iff hd hx hv, ← hcode hx, ← hcode hv]
    exact Iff.rfl
  have hfits' : 8 * (d.storedCodes base).length < 2 ^ 31 := by rwa [hlen]
  have hcounted := le_countedRows_bytes h.colSize hbits hfits'
  constructor
  · intro R hR
    rw [bitAt_row h.colSize hbits h.partitions hlower (by decide) hcodes hfilled (by omega) (by omega)]
    simp only [DataType.storedCodes, List.getElem_map]
    exact hselects _ (List.getElem_mem hR)
  · intro hfull
    have hpos : 0 < (d.storedCodes base).length := by
      rw [hlen]
      exact List.length_pos_of_mem hv
    have hall := countedRows_of_full h.colSize hbits hfits' hpos (hlen ▸ hfull)
    have hcount := (count_iff_of_le h.colSize hbits h.partitions hlower (by decide) hcodes hfilled hall.le).mpr
      (fun r hr hrow => absurd hrow (by omega))
    rw [hcount, DataType.storedCodes, List.countP_map]
    refine congrArg Nat.cast (List.countP_congr ?_)
    intro x hx
    rw [Function.comp_apply, decide_eq_true_iff, decide_eq_true_iff]
    exact hselects x hx

end Answer

/-! ## The whole path -/

/-- A row holds a quantity of at most 24. -/
def QuantityLe24 (x : Line) : Prop := atoi x ≤ 24

instance : DecidablePred QuantityLe24 := fun x => inferInstanceAs (Decidable (atoi x ≤ 24))

theorem cmp_24_iff (x : Line) : (DataType.int.cmp x "24".toList).isLE = true ↔ QuantityLe24 x := by
  have h24 : atoi "24".toList = 24 := by decide
  show (compare (atoi x) (atoi "24".toList)).isLE = true ↔ _
  rw [h24, Std.isLE_compare]
  exact Iff.rfl

section Query
variable {files : Files} {basePath : Line} {base : List Line}
  (hrows : (files.lines (lineorderPath basePath ++ "meta.dat".toList)).getD 0 [] = decimal base.length)
  (hbase : files (lineorderPath basePath ++ "lo_quantity".toList ++ "/base.dat".toList) = some base)
  (h2 : 2 ≤ DataType.int.distinctValues base) (hvalues : DataType.int.distinctValues base ≤ 129)
  (hfits : 8 * base.length < 2 ^ 31) (h24 : "24".toList ∈ base)
include hrows hbase h2 hvalues hfits h24

/-- From the file of the quantities to the bit vector and the count, for the query's bound of 24: the generator
succeeds, the table gets a column and the column a job, and in every run of the loop over items for all partitions in
which polls and result addresses come in time, no line is refused and no write is left on its way, the copy loop leaves
behind a bit for every row that says if its quantity is at most 24, and where the rows fill their pages their number. -/
theorem quantity_query (order : List (Line × BitVec 32) → List (Line × BitVec 32)) (fresh : Nat → Nat → Word)
    (result : Nat → Word) : ∃ files' t column scan,
      generate files (lineorderPath basePath ++ "lo_quantity".toList) "INT".toList = some files' ∧
      ((Table.new "lineorder".toList).initializeTable files' basePath).createColumn files' "lo_quantity".toList
        ColumnName.loQuantity.toInt order fresh = some t ∧
      t.getColumn ColumnName.loQuantity.toInt = some column ∧
      createColumnScan .loQuantity column result = (some scan, column) ∧
      ∀ {items : List Query} {readBuffers writeBuffers : Int → MmioData} {s₀ s : HostMemSys},
        hostDevice.withMemory.init s₀ → ScanLoop scan items readBuffers writeBuffers s₀.dev →
        Prepared (itemPages column items) s₀ →
        (∀ p : Nat, p < column.numOfPartitions → ∃ item ∈ items, item.partId = p) →
        Reachable (hostDevice.withMemory.after s₀) s → LoopDone s →
          Answers base QuantityLe24 (copyLoop scan (hostBuffers s.host.mem writeBuffers)) := by
  have hd : DataType.int ≠ .double := by decide
  have hint : baseType "INT".toList = .int := by decide
  have h2' : 2 ≤ (baseType "INT".toList).distinctValues base := by rwa [hint]
  obtain ⟨files', t, c, hgen, hcreate, hstored, hget⟩ :=
    exists_createColumn hrows hbase h2' (by omega) ColumnName.loQuantity.toInt order fresh
  rw [hint] at hstored hget
  have hscan := quantityScan_eq hd hstored fresh result h24
  have hjob : createColumnScan .loQuantity (pagedColumn c (DataType.int.storedCodes base) fresh) result =
      (some (quantityScan (pagedColumn c (DataType.int.storedCodes base) fresh) "24".toList result).1,
        pagedColumn c (DataType.int.storedCodes base) fresh) := by
    unfold createColumnScan
    rw [hscan]
  refine ⟨files', t, _, _, hgen, hcreate, hget, hjob, ?_⟩
  intro items readBuffers writeBuffers s₀ s h0 hloop hprep hitems h hdone
  have hbits : c.numOfBits = ScanUnit.loQuantity.bits := by
    rw [hstored.numOfBits, storedBits, if_pos hvalues]
    rfl
  have hcls : ∃ n : Nat, (quantityScan (pagedColumn c (DataType.int.storedCodes base) fresh) "24".toList
      result).1.totalCls = n ∧ n ≤ 64 := by
    rw [hscan]
    exact totalCls_scan hstored.colSize hbits
  obtain ⟨n, htotal, hle⟩ := hcls
  have hanswers : Answers base (fun x => (DataType.int.cmp x "24".toList).isLE = true) (copyLoop (quantityScan
      (pagedColumn c (DataType.int.storedCodes base) fresh) "24".toList result).1
        (hostBuffers s.host.mem writeBuffers)) := by
    refine answers_of_filled hd hstored hvalues hfits h24 ?_
    intro p hp
    obtain ⟨item, hitem, hid⟩ := hitems p hp
    rw [← hid]
    have hbase' : (quantityScan (pagedColumn c (DataType.int.storedCodes base) fresh) "24".toList
        result).1.baseColumn = pagedColumn c (DataType.int.storedCodes base) fresh := by
      rw [hscan]
      rfl
    have hfilled := filledBy_of_loop htotal hle h0 hloop (by rw [hbase']; exact hprep) h hdone hitem
    rwa [hbase'] at hfilled
  constructor
  · intro R hR
    rw [hanswers.bit R hR]
    exact cmp_24_iff _
  · intro hfull
    rw [hanswers.count hfull]
    refine congrArg Nat.cast (List.countP_congr ?_)
    intro x _
    rw [decide_eq_true_iff, decide_eq_true_iff]
    exact cmp_24_iff x

end Query

/-- A table of the quantities 24 and 25. -/
def quantityFiles : Files := fun path =>
  if path = "/lineorder/meta.dat".toList then some ["2".toList]
  else if path = "/lineorder/lo_quantity/base.dat".toList then some ["24".toList, "25".toList]
  else none

/-- Its column. -/
def quantityColumn : Option Column :=
  (generate quantityFiles (lineorderPath "/".toList ++ "lo_quantity".toList) "INT".toList).bind fun files' =>
    (((Table.new "lineorder".toList).initializeTable files' "/".toList).createColumn files' "lo_quantity".toList
      ColumnName.loQuantity.toInt id fun _ _ => 0).bind fun t => t.getColumn ColumnName.loQuantity.toInt

/-- The parameters of its scan: one line, code 0, the type of the job. -/
def quantityParams (k : Fin 3) : MmioData := if k = 0 then 1 else if k = 1 then 0 else 2

/-- The whole path on the table. -/
theorem quantity_query_two_rows : ∃ files' t column scan,
    generate quantityFiles (lineorderPath "/".toList ++ "lo_quantity".toList) "INT".toList = some files' ∧
      ((Table.new "lineorder".toList).initializeTable files' "/".toList).createColumn files' "lo_quantity".toList
        ColumnName.loQuantity.toInt id (fun _ _ => 0) = some t ∧
      t.getColumn ColumnName.loQuantity.toInt = some column ∧
      createColumnScan .loQuantity column (fun _ => 0) = (some scan, column) ∧
      Answers ["24".toList, "25".toList] QuantityLe24
        (copyLoop scan (hostBuffers (oneLineEnd quantityParams 0x100).host.mem fun _ => 0x1000)) := by
  have hrows : (quantityFiles.lines (lineorderPath "/".toList ++ "meta.dat".toList)).getD 0 [] =
      decimal ["24".toList, "25".toList].length := by decide
  have hbase : quantityFiles (lineorderPath "/".toList ++ "lo_quantity".toList ++ "/base.dat".toList) =
      some ["24".toList, "25".toList] := by decide
  obtain ⟨files', t, column, scan, hgen, hcreate, hget, hscan, hrun⟩ :=
    quantity_query hrows hbase (by decide) (by decide) (by decide) (by decide) id (fun _ _ => 0) fun _ => 0
  refine ⟨files', t, column, scan, hgen, hcreate, hget, hscan, ?_⟩
  have hcolumn : quantityColumn = some column := by
    rw [quantityColumn, hgen, Option.bind_some, hcreate, Option.bind_some, hget]
  have hpages : quantityColumn.map (fun c => (c.numOfPartitions, cacheLine (dataBlock c 0) 0)) = some (1, 0x100) := by
    decide +kernel
  have hparams : ∀ k, quantityColumn.map (fun c => scanParams (quantityScan c "24".toList fun _ => 0).1 k) =
      some (quantityParams k) := by
    decide +kernel
  rw [hcolumn, Option.map_some, Option.some.injEq, Prod.mk.injEq] at hpages
  obtain ⟨hnum, hpage⟩ := hpages
  have hjob : (quantityScan column "24".toList fun _ => 0).1 = scan := Option.some.inj (congrArg Prod.fst hscan)
  have hparam : quantityParams = scanParams scan := by
    funext k
    have hk := hparams k
    rw [hcolumn, Option.map_some, Option.some.injEq, hjob] at hk
    exact hk.symm
  have hitems : ∀ p : Nat, p < column.numOfPartitions →
      ∃ item ∈ [(⟨0, 0, .loQuantityScan⟩ : Query)], item.partId = p := by
    intro p hp
    rw [hnum] at hp
    obtain rfl : p = 0 := Nat.lt_one_iff.mp hp
    exact ⟨_, List.mem_singleton.mpr rfl, rfl⟩
  have hloop : ScanLoop scan [⟨0, 0, .loQuantityScan⟩] (fun _ => 0x40) (fun _ => 0x1000)
      (oneLineStart quantityParams 0x100).dev := ⟨hparam, rfl⟩
  have hprep : Prepared (itemPages column [⟨0, 0, .loQuantityScan⟩]) (oneLineStart quantityParams 0x100) :=
    prepared_oneLineStart rfl hpage
  have hdone : LoopDone (oneLineEnd quantityParams 0x100) := loopDone_oneLineEnd (by decide +kernel)
    (by decide +kernel) (by decide +kernel)
  exact hrun (init_oneLineStart (by decide) (by decide)) hloop hprep hitems (reachable_oneLineEnd (by decide +kernel))
    hdone

end SdbFpga.Sched
