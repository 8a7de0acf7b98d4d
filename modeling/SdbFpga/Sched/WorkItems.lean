import SdbFpga.Api.ScanPipeline
import SdbFpga.Exec.DrainLoop

/-!
# Work items of a scan

The partitions of a column are enqueued by one of two loops, taken from the queue by `scanAtATime`, and their results
copied by a third loop over `TotalPartitions()`.

* `ProcessingUnit.addWorkItems`, `ThreadHandler.addWorkItems` : the items of a job;
* `workLoop`, `copyLoop`, `scanAtATime` : the scan over the items;
* `FilledBy` : a write buffer holds the result of this scan, `filledBy_workLoop`;
* `scanAtATime_congr` : the job does not depend on what was in the buffers before;
* `EachPartitionOnce`, `eachPartitionOnce_iff` : when the three loops agree;
* `eachPartitionOnce_delivered` : the same for the items that a `WorkQueue` delivers.
-/

namespace SdbFpga.Sched
open Bits Data Fpga Api Exec Transition

/-- `Query`. -/
structure Query where
  pType : Int
  partId : Int
  jobType : JobType
  deriving DecidableEq, Repr

/-- The items of `ProcessingUnit::addWorkItems(Column*, JOB_TYPE, WorkQueue&)`. -/
def ProcessingUnit.addWorkItems (scanColumn : Column) (jType : JobType) : List Query :=
  (List.range ((scanColumn.numOfPartitions : Int) - 1).toNat).map fun pId : Nat => ⟨0, pId, jType⟩

/-- The items of `ThreadHandler::addWorkItems`. -/
def ThreadHandler.addWorkItems (jType : JobType) (numOfPartitions : Int) : List Query :=
  (List.range numOfPartitions.toNat).map fun pId : Nat => ⟨0, pId, jType⟩

/-- Who enqueues the items of a scan. -/
inductive Submission
  | processingUnit
  | threadHandler
  deriving DecidableEq, Repr

/-- The items of a scan. -/
def Submission.workItems (path : Submission) (scan : ScanApi) : List Query :=
  match path with
  | .processingUnit => ProcessingUnit.addWorkItems scan.baseColumn scan.jobType
  | .threadHandler => ThreadHandler.addWorkItems scan.jobType scan.totalPartitions

/-! ## `scanAtATime` -/

section Scan
variable (scan : ScanApi) (readBuffers : Int → Nat → Word)

/-- The AFU scans the partition of an item into its write buffer. -/
def scanItem (writeBuffers : Int → Nat → Word) (item : Query) : Int → Nat → Word :=
  Function.update writeBuffers item.partId
    (writeBuffer scan.jobType.scanColumn scan.predRegister scan.totalCls.toNat (readBuffers item.partId)
      (writeBuffers item.partId))

/-- The work loop, on the items that the queue delivers. -/
def workLoop (items : List Query) (writeBuffers : Int → Nat → Word) : Int → Nat → Word :=
  items.foldl (scanItem scan readBuffers) writeBuffers

/-- The loop over `copyFPGAWriteBuffer`. -/
def copyLoop (writeBuffers : Int → Nat → Word) : JobWrapper :=
  (List.range scan.totalPartitions.toNat).foldl
    (fun job (buffId : Nat) => job.copyFPGAWriteBuffer (writeBuffers buffId) buffId scan.totalCls) scan.toJobWrapper

/-- `scanAtATime`. -/
def scanAtATime (items : List Query) (writeBuffers : Int → Nat → Word) : JobWrapper :=
  copyLoop scan (workLoop scan readBuffers items writeBuffers)

/-- The lines that are copied from the buffer of partition `p` are results of its page. -/
def FilledBy (writeBuffers : Int → Nat → Word) (p : Int) : Prop :=
  ∀ i t, i < scan.totalCls.toNat → t < 8 → writeBuffers p (8 * i + t) =
    lane 64 t (scanLine scan.jobType.scanColumn scan.predRegister (cacheLine (readBuffers p) i))

variable {scan readBuffers}

theorem filledBy_scanItem (writeBuffers : Int → Nat → Word) (item : Query) :
    FilledBy scan readBuffers (scanItem scan readBuffers writeBuffers item) item.partId := by
  intro i t hi ht
  rw [scanItem, Function.update_self, writeBuffer_line hi ht]

theorem FilledBy.scanItem {writeBuffers : Int → Nat → Word} {p : Int} (h : FilledBy scan readBuffers writeBuffers p)
    (item : Query) : FilledBy scan readBuffers (scanItem scan readBuffers writeBuffers item) p := by
  by_cases hp : item.partId = p
  · rw [← hp]
    exact filledBy_scanItem writeBuffers item
  · intro i t hi ht
    rw [Sched.scanItem, Function.update_of_ne (Ne.symm hp)]
    exact h i t hi ht

theorem FilledBy.workLoop {p : Int} (items : List Query) : ∀ {writeBuffers : Int → Nat → Word},
    FilledBy scan readBuffers writeBuffers p →
      FilledBy scan readBuffers (workLoop scan readBuffers items writeBuffers) p := by
  induction items with
  | nil => exact fun h => h
  | cons item items ih => exact fun h => ih (h.scanItem item)

/-- The buffer of every item is filled, whatever was in it. -/
theorem filledBy_workLoop (items : List Query) : ∀ (writeBuffers : Int → Nat → Word), ∀ item ∈ items,
    FilledBy scan readBuffers (workLoop scan readBuffers items writeBuffers) item.partId := by
  induction items with
  | nil =>
    intro _ item hitem
    cases hitem
  | cons first items ih =>
    intro writeBuffers item hitem
    rcases List.mem_cons.mp hitem with rfl | hitem
    · exact (filledBy_scanItem writeBuffers item).workLoop items
    · exact ih _ item hitem

theorem copyLoop_congr {writeBuffers writeBuffers' : Int → Nat → Word}
    (h : ∀ p : Nat, (p : Int) < scan.totalPartitions → FilledBy scan readBuffers writeBuffers p)
    (h' : ∀ p : Nat, (p : Int) < scan.totalPartitions → FilledBy scan readBuffers writeBuffers' p) :
    copyLoop scan writeBuffers = copyLoop scan writeBuffers' := by
  unfold copyLoop
  apply List.foldl_ext
  intro job p hp
  rw [List.mem_range] at hp
  apply copyFPGAWriteBuffer_congr
  intro i t hi ht
  rw [h p (by omega) i t hi ht, h' p (by omega) i t hi ht]

/-- Where every buffer that is copied was filled, nothing of an earlier scan is left in the job. -/
theorem scanAtATime_congr {items : List Query}
    (h : ∀ (writeBuffers : Int → Nat → Word) (p : Nat), (p : Int) < scan.totalPartitions →
      FilledBy scan readBuffers (workLoop scan readBuffers items writeBuffers) p)
    (writeBuffers writeBuffers' : Int → Nat → Word) :
    scanAtATime scan readBuffers items writeBuffers = scanAtATime scan readBuffers items writeBuffers' :=
  copyLoop_congr (h writeBuffers) (h writeBuffers')

end Scan

/-! ## Every partition once -/

/-- The items are the partitions of the column, each once; every partition whose result is copied is one of the column
and its buffer was written in this scan; the count does not depend on what was in the buffers before. -/
structure EachPartitionOnce (scan : ScanApi) (items : List Query) : Prop where
  nodup : (items.map Query.partId).Nodup
  mem : ∀ p : Int, p ∈ items.map Query.partId ↔ 0 ≤ p ∧ p < scan.baseColumn.numOfPartitions
  read : ∀ p : Nat, (p : Int) < scan.totalPartitions → p < scan.baseColumn.numOfPartitions ∧
    ∀ readBuffers writeBuffers, FilledBy scan readBuffers (workLoop scan readBuffers items writeBuffers) p
  counted : ∀ readBuffers writeBuffers writeBuffers',
    (scanAtATime scan readBuffers items writeBuffers).countBitResults =
      (scanAtATime scan readBuffers items writeBuffers').countBitResults

/-- The ids of an enqueueing loop. -/
theorem mem_partId_range (jType : JobType) (n : Int) (p : Int) :
    p ∈ ((List.range n.toNat).map fun pId : Nat => (⟨0, pId, jType⟩ : Query)).map Query.partId ↔ 0 ≤ p ∧ p < n := by
  rw [List.map_map, List.mem_map]
  constructor
  · rintro ⟨i, hi, rfl⟩
    rw [List.mem_range] at hi
    show (0 : Int) ≤ i ∧ (i : Int) < n
    omega
  · rintro ⟨h0, hn⟩
    refine ⟨p.toNat, ?_, ?_⟩
    · rw [List.mem_range]
      omega
    · show (p.toNat : Int) = p
      omega

theorem nodup_partId_range (jType : JobType) (n : Int) :
    (((List.range n.toNat).map fun pId : Nat => (⟨0, pId, jType⟩ : Query)).map Query.partId).Nodup := by
  rw [List.map_map]
  exact List.nodup_range.map fun _ _ h => Int.ofNat.inj h

/-- The handler's loop, where `TotalPartitions()` is the column's number of partitions. -/
theorem eachPartitionOnce_threadHandler (scan : ScanApi)
    (htotal : scan.totalPartitions = scan.baseColumn.numOfPartitions) :
    EachPartitionOnce scan (ThreadHandler.addWorkItems scan.jobType scan.totalPartitions) := by
  have hfilled : ∀ readBuffers writeBuffers (p : Nat), (p : Int) < scan.totalPartitions → FilledBy scan readBuffers
      (workLoop scan readBuffers (ThreadHandler.addWorkItems scan.jobType scan.totalPartitions) writeBuffers) p := by
    intro readBuffers writeBuffers p hp
    have hmem := (mem_partId_range scan.jobType scan.totalPartitions p).mpr ⟨by omega, hp⟩
    obtain ⟨item, hitem, hid⟩ := List.mem_map.mp hmem
    rw [← hid]
    exact filledBy_workLoop _ writeBuffers item hitem
  refine ⟨nodup_partId_range _ _, ?_, ?_, ?_⟩
  · intro p
    rw [← htotal]
    exact mem_partId_range _ _ p
  · intro p hp
    exact ⟨by omega, fun readBuffers writeBuffers => hfilled readBuffers writeBuffers p hp⟩
  · intro readBuffers writeBuffers writeBuffers'
    exact congrArg JobWrapper.countBitResults (scanAtATime_congr (hfilled readBuffers) writeBuffers writeBuffers')

/-- Another number is noticed: the items then differ from the partitions. -/
theorem totalPartitions_of_once (scan : ScanApi) (hpos : 1 ≤ scan.baseColumn.numOfPartitions)
    (h : EachPartitionOnce scan (ThreadHandler.addWorkItems scan.jobType scan.totalPartitions)) :
    scan.totalPartitions = scan.baseColumn.numOfPartitions := by
  have hids : ∀ p : Int, 0 ≤ p ∧ p < scan.totalPartitions ↔ 0 ≤ p ∧ p < scan.baseColumn.numOfPartitions :=
    fun p => (mem_partId_range scan.jobType _ p).symm.trans (h.mem p)
  have hlast := (hids ((scan.baseColumn.numOfPartitions : Int) - 1)).mpr (by omega)
  have htotal := (hids (scan.totalPartitions - 1)).mp (by omega)
  omega

/-- A job as the constructor left it. -/
theorem eachPartitionOnce_new (scanJob : JobType) (column : Column) (comp : ComparisonType) (param1 : BitVec 32) :
    EachPartitionOnce (ScanApi.new scanJob column comp param1)
      (ThreadHandler.addWorkItems scanJob (ScanApi.new scanJob column comp param1).totalPartitions) :=
  eachPartitionOnce_threadHandler _ rfl

/-- `setNumOfPartitions` is harmless only with the number that is there. -/
theorem eachPartitionOnce_setNumOfPartitions {scan : ScanApi} (hpos : 1 ≤ scan.baseColumn.numOfPartitions)
    (parts : Int) :
    EachPartitionOnce (scan.setNumOfPartitions parts) (ThreadHandler.addWorkItems scan.jobType parts) ↔
      parts = scan.baseColumn.numOfPartitions :=
  ⟨totalPartitions_of_once (scan.setNumOfPartitions parts) hpos,
    eachPartitionOnce_threadHandler (scan.setNumOfPartitions parts)⟩

/-- The processing unit's loop leaves the last partition out. -/
theorem last_not_mem_processingUnit (scanColumn : Column) (jType : JobType) :
    (scanColumn.numOfPartitions : Int) - 1 ∉
      (ProcessingUnit.addWorkItems scanColumn jType).map Query.partId := by
  intro hlast
  have := (mem_partId_range jType _ _).mp hlast
  omega

/-- The handler's loop submits every partition once exactly if `TotalPartitions()` is the column's number of
partitions; the processing unit's loop never does. -/
theorem eachPartitionOnce_iff (path : Submission) (scan : ScanApi) (hpos : 1 ≤ scan.baseColumn.numOfPartitions) :
    EachPartitionOnce scan (path.workItems scan) ↔
      path = .threadHandler ∧ scan.totalPartitions = scan.baseColumn.numOfPartitions := by
  match path with
  | .processingUnit =>
    refine iff_of_false ?_ ?_
    · intro h
      exact last_not_mem_processingUnit _ _ ((h.mem ((scan.baseColumn.numOfPartitions : Int) - 1)).mpr (by omega))
    · rintro ⟨⟨⟩, _⟩
  | .threadHandler =>
    constructor
    · intro h
      exact ⟨rfl, totalPartitions_of_once scan hpos h⟩
    · rintro ⟨_, htotal⟩
      exact eachPartitionOnce_threadHandler _ htotal

/-- A column of one page. -/
def onePage : Column := { Column.new 2556 with numOfBits := 8 }.initializePageAlignedPartitions fun _ _ => 0

/-- The scan of `d_year` for one year. -/
def onePageScan : ScanApi := ScanApi.new .dYearScan onePage .eq 1

/-- The handler's loop submits its only partition. -/
theorem eachPartitionOnce_iff_one_page : EachPartitionOnce onePageScan (Submission.threadHandler.workItems onePageScan) :=
  (eachPartitionOnce_iff .threadHandler onePageScan (by decide)).mpr ⟨rfl, rfl⟩

/-- The processing unit's loop submits nothing. -/
theorem page_not_submitted : 1 ≤ onePage.numOfPartitions ∧
    (Submission.processingUnit.workItems onePageScan) = [] ∧
    ¬ EachPartitionOnce onePageScan (Submission.processingUnit.workItems onePageScan) := by
  refine ⟨by decide, rfl, ?_⟩
  intro h
  have hmem := (h.mem 0).mpr ⟨by decide, by decide⟩
  cases hmem

/-! ## The items of a queue -/

section Queue
variable {τ ν : Type} [DecidableEq τ] [DecidableEq ν] {s : State τ ν}

/-- The items that the work loop takes from a queue. -/
def delivered (value : ν → Query) (q : Queue ν) (spurious : List Bool) : List Query :=
  ((drain q spurious).results.filterMap id).map value

/-- A queue that was filled by calls one by one and whose `tail` is the last node delivers the items as they were
added. -/
theorem delivered_eq (value : ν → Query) (hr : Reachable ((system τ ν).when OneAtATime) s)
    (hquiet : ∀ t, (s.pc t).ready = true) (htail : s.queue.tail.bind s.queue.next = none) {spurious : List Bool}
    (hexit : (drain s.queue spurious).pc = .exit) : delivered value s.queue spurious = s.added.map value := by
  have hs := seq_of_reachable hr
  have hall := (drainsAll_linked hr.of_when hs.handed).mpr htail
  rw [delivered, (hall spurious).2.1 hexit, ← hs.idle hquiet, List.filterMap_map]
  congr 1
  exact List.filterMap_some

/-- The handler's items, added to such a queue and taken out by the work loop. -/
theorem eachPartitionOnce_delivered {scan : ScanApi} (value : ν → Query)
    (hr : Reachable ((system τ ν).when OneAtATime) s) (hquiet : ∀ t, (s.pc t).ready = true)
    (hitems : s.added.map value = ThreadHandler.addWorkItems scan.jobType scan.totalPartitions)
    (htotal : scan.totalPartitions = scan.baseColumn.numOfPartitions)
    (htail : s.queue.tail.bind s.queue.next = none) {spurious : List Bool}
    (hexit : (drain s.queue spurious).pc = .exit) : EachPartitionOnce scan (delivered value s.queue spurious) := by
  rw [delivered_eq value hr hquiet htail hexit, hitems]
  exact eachPartitionOnce_threadHandler _ htotal

end Queue

end SdbFpga.Sched
