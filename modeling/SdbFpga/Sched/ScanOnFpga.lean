import SdbFpga.Api.ScanOnFpga
import SdbFpga.Host.ScanLoopMemory
import SdbFpga.Sched.ScanCount

/-!
# `scanAtATime` on the FPGA, from the codes to the bit vector and the count

* `scanParams`, `ScanLoop` : what `scanAtATime` writes to the unit for a job and the items of its queue;
* `filledBy_of_loop` : after the loop, the write buffer of every item holds the result of its page;
* `scanned_on_fpga` : the bit of every row, and the count, after the copy loop.
-/

namespace SdbFpga.Sched
open Bits Text Data Fpga Api Host Transition PostedWrites

/-- The three parameters, through `writeParameterToCSR(CSRS_TYPE, uint32_t)`. -/
def scanParams (scan : ScanApi) (k : Fin 3) : MmioData :=
  if k = 0 then (BitVec.ofInt 32 scan.totalCls).setWidth 64
  else if k = 1 then scan.filterPred.setWidth 64
  else (BitVec.ofNat 32 scan.jobType.toNat).setWidth 64

/-- The loop runs this job on these items; `readBuffers` and `writeBuffers` are the addresses of the buffers. -/
structure ScanLoop (scan : ScanApi) (items : List Query) (readBuffers writeBuffers : Int → MmioData) (h : HostSys) :
    Prop where
  param : h.param = scanParams scan
  work : h.work = items.map fun item => (readBuffers item.partId, writeBuffers item.partId)

/-- The pages of the items. -/
def itemPages (column : Column) (items : List Query) (k : Nat) : Nat → Word :=
  (items[k]?).elim (fun _ => 0) fun item => dataBlock column item.partId

/-- A buffer of cache lines as words. -/
def hostBuffers (mem : ClAddr → ClData) (writeBuffers : Int → MmioData) (p : Int) : Nat → Word :=
  hostWords mem (csrClAddr (writeBuffers p))

section Loop
variable {scan : ScanApi} {items : List Query} {readBuffers writeBuffers : Int → MmioData} {s₀ s : HostMemSys}

theorem setWidth_jobType (scan : ScanApi) : (scanParams scan 2).setWidth 2 = scan.jobType.scanColumn := by
  show (((BitVec.ofNat 32 scan.jobType.toNat).setWidth 64).setWidth 2) = BitVec.ofNat 2 scan.jobType.toNat
  cases scan.jobType <;> decide

theorem toNat_totalCls {n : Nat} (htotal : scan.totalCls = n) (hle : n ≤ 64) :
    (scanParams scan 0).toNat = scan.totalCls.toNat := by
  show ((BitVec.ofInt 32 scan.totalCls).setWidth 64).toNat = _
  rw [htotal, Int.toNat_natCast, BitVec.ofInt_natCast, BitVec.toNat_setWidth, BitVec.toNat_ofNat]
  omega

/-- The parameters and the queue are not changed by a run. -/
theorem dev_const (h : Reachable (hostDevice.withMemory.after s₀) s) :
    s.dev.param = s₀.dev.param ∧ s.dev.work = s₀.dev.work := by
  refine h.invariant (P := fun s => s.dev.param = s₀.dev.param ∧ s.dev.work = s₀.dev.work) ?_ ?_
  · rintro s rfl
    exact ⟨rfl, rfl⟩
  · intro s i _ hs _
    match i with
    | .step _ => exact hs
    | .perform _ => exact hs
    | .write _ _ => exact hs

/-- The write buffer of an item holds the result of its page. -/
theorem filledBy_of_loop {n : Nat} (htotal : scan.totalCls = n) (hle : n ≤ 64)
    (h0 : hostDevice.withMemory.init s₀) (hloop : ScanLoop scan items readBuffers writeBuffers s₀.dev)
    (hprep : Prepared (itemPages scan.baseColumn items) s₀) (h : Reachable (hostDevice.withMemory.after s₀) s)
    (hdone : LoopDone s) {item : Query} (hitem : item ∈ items) :
    FilledBy scan (dataBlock scan.baseColumn) (hostBuffers s.host.mem writeBuffers) item.partId := by
  obtain ⟨hparam, hwork⟩ := dev_const h
  obtain ⟨k, hk⟩ := List.mem_iff_getElem?.mp hitem
  have har : s.dev.work[k]? = some (readBuffers item.partId, writeBuffers item.partId) := by
    rw [hwork, hloop.work, List.getElem?_map, hk]
    rfl
  have hcls : s.dev.cls = scan.totalCls.toNat := by
    rw [HostSys.cls, hparam, hloop.param, toNat_totalCls htotal hle]
  intro i t hi ht
  have hline := result_line h0 hprep h hdone har (hcls ▸ hi)
  have hpage : itemPages scan.baseColumn items k = dataBlock scan.baseColumn item.partId := by
    rw [itemPages, hk]
    rfl
  rw [hparam, hloop.param, setWidth_jobType, hpage] at hline
  have hdiv : (8 * i + t) / 8 = i := by omega
  have hmod : (8 * i + t) % 8 = t := by omega
  rw [hostBuffers, hostWords, hdiv, hmod]
  exact congrArg (lane 64 t) hline

end Loop

/-! ## A column -/

section Column
variable {u : ScanUnit} {c : Column} {codes : List Nat} (hsize : c.colSize = codes.length)
  (hbits : c.numOfBits = u.bits) {comp : ComparisonType} {lower upper : BitVec 32} {fresh : Nat → Nat → Word}
  {result : Nat → Word}
include hsize hbits

/-- `total_cls` is at most a page. -/
theorem totalCls_scan : ∃ n : Nat, (u.scan (pagedColumn c codes fresh) comp lower upper result).totalCls = n ∧
    n ≤ 64 := by
  have hv := u.codesPerWord_pos
  have hitems : (clSize : Int).tdiv c.numOfBits = (8 * u.codesPerWord : Nat) := by
    rw [hbits]
    cases u <;> decide
  have htotal : (u.scan (pagedColumn c codes fresh) comp lower upper result).totalCls =
      min (ceilDiv codes.length (8 * u.codesPerWord : Nat)) (pageSize / 64 : Nat) := by
    show min (ceilDiv c.colSize ((clSize : Int).tdiv c.numOfBits)) _ = _
    rw [hitems, hsize]
  have hpage : pageSize / 64 = 64 := rfl
  have hnonneg : 0 ≤ ceilDiv codes.length (8 * u.codesPerWord : Nat) := by
    have hdiv : -(codes.length : Int) / (8 * u.codesPerWord : Nat) ≤ 0 :=
      Int.ediv_nonpos_of_nonpos_of_neg (by omega) (by omega)
    unfold ceilDiv
    omega
  rw [htotal, hpage]
  refine ⟨(min (ceilDiv codes.length (8 * u.codesPerWord : Nat)) (64 : Nat)).toNat, ?_, ?_⟩ <;> omega

variable (hnil : c.partitions = []) (hl : lower.toNat < 2 ^ u.bits) (hu : u = .loDiscount → upper.toNat < 2 ^ u.bits)
  (hcodes : ∀ x ∈ codes, x < 2 ^ u.bits)
include hnil hl hu hcodes

/-- The whole path, in every run of the host, the MMIO registers, the unit and the memory whose polls and result
addresses come in time: when the loop over items for all partitions is over, with no line refused and no write on its
way, the copy loop sets the bit of every row in the pages exactly if the row is selected, and where padding adds nothing
the reported count is the number of selected rows. -/
theorem scanned_on_fpga {items : List Query} {readBuffers writeBuffers : Int → MmioData} {s₀ s : HostMemSys}
    (h0 : hostDevice.withMemory.init s₀)
    (hloop : ScanLoop (u.scan (pagedColumn c codes fresh) comp lower upper result) items readBuffers writeBuffers
      s₀.dev)
    (hprep : Prepared (itemPages (pagedColumn c codes fresh) items) s₀)
    (hitems : ∀ p : Nat, p < (pagedColumn c codes fresh).numOfPartitions → ∃ item ∈ items, item.partId = p)
    (h : Reachable (hostDevice.withMemory.after s₀) s) (hdone : LoopDone s) :
    (∀ R, R < countedRows u codes.length (c.numOfPagesRequired pageSize).toNat → ∀ hrow : R < codes.length,
      bitAt (copyLoop (u.scan (pagedColumn c codes fresh) comp lower upper result)
        (hostBuffers s.host.mem writeBuffers)).bitResult R = true ↔ u.Selects lower.toNat upper.toNat codes[R]) ∧
    (CountsExactly u lower.toNat upper.toNat codes (c.numOfPagesRequired pageSize).toNat →
      (copyLoop (u.scan (pagedColumn c codes fresh) comp lower upper result)
        (hostBuffers s.host.mem writeBuffers)).countBitResults =
          (codes.countP fun code => decide (u.Selects lower.toNat upper.toNat code) : Nat)) := by
  have hcls : ∃ n : Nat, (u.scan (pagedColumn c codes fresh) comp lower upper result).totalCls = n ∧ n ≤ 64 :=
    totalCls_scan hsize hbits
  obtain ⟨n, htotal, hle⟩ := hcls
  have hfilled : ∀ p : Nat, p < (pagedColumn c codes fresh).numOfPartitions →
      FilledBy (u.scan (pagedColumn c codes fresh) comp lower upper result) (dataBlock (pagedColumn c codes fresh))
        (hostBuffers s.host.mem writeBuffers) p := by
    intro p hp
    obtain ⟨item, hitem, hid⟩ := hitems p hp
    rw [← hid]
    exact filledBy_of_loop htotal hle h0 hloop hprep h hdone hitem
  refine ⟨fun R hR hrow => bitAt_row hsize hbits hnil hl hu hcodes hfilled hR hrow, ?_⟩
  intro hcounts
  exact countsRows_of_countsExactly hsize hbits hnil hl hu hcodes hcounts fresh result _ hfilled

end Column

/-! ## One line -/

section OneLine
variable {param : Fin 3 → MmioData} {page : ClData}

/-- One work unit for a job of one line; line 1 of the memory holds it. -/
def oneLineStart (param : Fin 3 → MmioData) (page : ClData) : HostMemSys :=
  ⟨{ HostSys.start with param := param, work := [(0x40, 0x1000)] }, .new fun a => if a = 1 then page else 0⟩

/-- The host acts in every cycle; the line is delivered after the poll has returned. -/
def oneLineLabels (page : ClData) : List (AttachedLabel HostCycle ClAddr ClData) :=
  (List.replicate 10 (.step (.plain true none)) ++ [.step (.plain true (some page))] ++
    List.replicate 7 (.step (.plain true none))) ++ [.write 7 0x123, .perform 0]

/-- Where the loop ends. -/
def oneLineEnd (param : Fin 3 → MmioData) (page : ClData) : HostMemSys :=
  hostDevice.withMemory.run (oneLineStart param page) (oneLineLabels page)

theorem init_oneLineStart (hcls : 0 < (param 0).toNat ∧ (param 0).toNat < 128) (hcolumn : (param 2).toNat ≤ 2) :
    hostDevice.withMemory.init (oneLineStart param page) := by
  obtain ⟨h1, h2, h3, h4, h5, h6, h7, h8, h9, h10, h11, h12, h13, h14, _, _⟩ := atRest_start
  exact ⟨⟨h1, h2, h3, h4, h5, h6, h7, h8, h9, h10, h11, h12, h13, h14, hcls, hcolumn⟩, _, rfl⟩

theorem prepared_oneLineStart {pages : Nat → Nat → Word} (hcls : (param 0).toNat = 1)
    (hpage : cacheLine (pages 0) 0 = page) : Prepared pages (oneLineStart param page) := by
  have hone : ∀ {k : Nat} {ar : MmioData × MmioData}, (oneLineStart param page).dev.work[k]? = some ar →
      k = 0 ∧ ar = (0x40, 0x1000) := by
    intro k ar har
    match k, har with
    | 0, har => exact ⟨rfl, (Option.some.inj har).symm⟩
  have hline : ∀ {i : Nat}, i < (oneLineStart param page).dev.cls → i = 0 :=
    fun hi => Nat.lt_one_iff.mp (hi.trans_eq hcls)
  constructor
  · intro k m ar br hk hm i hi j hj
    obtain ⟨rfl, rfl⟩ := hone hk
    obtain ⟨rfl, rfl⟩ := hone hm
    obtain rfl := hline hi
    obtain rfl := hline hj
    exact ⟨fun hne => absurd rfl hne, by decide⟩
  · intro k ar hk i hi
    obtain ⟨rfl, rfl⟩ := hone hk
    obtain rfl := hline hi
    exact hpage.symm

theorem loopDone_oneLineEnd (hiter : (oneLineEnd param page).dev.iter = 1)
    (hruns : (oneLineEnd param page).dev.sys.runs.map PartitionRun.swallowed = [false])
    (hpending : (oneLineEnd param page).host.pending = []) : LoopDone (oneLineEnd param page) := by
  have hwork : (oneLineEnd param page).dev.work.length = 1 := rfl
  refine ⟨hiter.trans hwork.symm, ?_, hpending⟩
  intro k p hp
  have hmem : p.swallowed ∈ (oneLineEnd param page).dev.sys.runs.map PartitionRun.swallowed :=
    List.mem_map_of_mem (List.mem_of_getElem? hp)
  rw [hruns] at hmem
  exact List.mem_singleton.mp hmem

theorem reachable_oneLineEnd (hsteps : hostDevice.withMemory.Steps hostDevice.withMemory.permits
    (oneLineStart param page) (oneLineLabels page)) :
    Reachable (hostDevice.withMemory.after (oneLineStart param page)) (oneLineEnd param page) :=
  Reachable.run (S := hostDevice.withMemory.after (oneLineStart param page)) (.init rfl) hsteps

end OneLine

/-- The column of the two `d_year` rows 3 and 5, and its scan for 3. -/
def twoRows : Column := { Column.new 2 with numOfBits := 4 }
def twoRowsScan : ScanApi := ScanUnit.dYear.scan (pagedColumn twoRows [3, 5] fun _ _ => 0) .eq 3 (-1) fun _ => 0

/-- Where its loop ends. -/
def twoRowsEnd : HostMemSys := oneLineEnd (scanParams twoRowsScan) 0x53

theorem scanned_on_fpga_two_rows :
    bitAt (copyLoop twoRowsScan (hostBuffers twoRowsEnd.host.mem fun _ => 0x1000)).bitResult 0 = true ∧
      bitAt (copyLoop twoRowsScan (hostBuffers twoRowsEnd.host.mem fun _ => 0x1000)).bitResult 1 = false := by
  have hline : cacheLine (dataBlock (pagedColumn twoRows [3, 5] fun _ _ => 0) 0) 0 = 0x53 := by decide +kernel
  have hprep : Prepared (itemPages (pagedColumn twoRows [3, 5] fun _ _ => 0) [⟨0, 0, .dYearScan⟩])
      (oneLineStart (scanParams twoRowsScan) 0x53) := prepared_oneLineStart (by decide +kernel) hline
  have hitems : ∀ p : Nat, p < (pagedColumn twoRows [3, 5] fun _ _ => 0).numOfPartitions →
      ∃ item ∈ [(⟨0, 0, .dYearScan⟩ : Query)], item.partId = p := by
    intro p hp
    have hnum : (pagedColumn twoRows [3, 5] fun _ _ => 0).numOfPartitions = 1 := by decide +kernel
    rw [hnum] at hp
    obtain rfl : p = 0 := Nat.lt_one_iff.mp hp
    exact ⟨_, List.mem_singleton.mpr rfl, rfl⟩
  have hloop : ScanLoop twoRowsScan [⟨0, 0, .dYearScan⟩] (fun _ => 0x40) (fun _ => 0x1000)
      (oneLineStart (scanParams twoRowsScan) 0x53).dev := ⟨rfl, rfl⟩
  have hdone : LoopDone twoRowsEnd := loopDone_oneLineEnd (by decide +kernel) (by decide +kernel) (by decide +kernel)
  have hbits := (scanned_on_fpga (u := .dYear) rfl rfl rfl (by decide) (by decide) (by decide)
    (init_oneLineStart (by decide +kernel) (by decide +kernel)) hloop hprep hitems
    (reachable_oneLineEnd (by decide +kernel)) hdone).1
  constructor
  · exact (hbits 0 (by decide +kernel) (by decide)).mpr rfl
  · rw [Bool.eq_false_iff]
    intro hbit
    exact absurd ((hbits 1 (by decide +kernel) (by decide)).mp hbit) (by decide)

end SdbFpga.Sched
