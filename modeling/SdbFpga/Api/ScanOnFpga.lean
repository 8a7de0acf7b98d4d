import SdbFpga.Api.ScanPipeline
import SdbFpga.Fpga.HostMemory

/-!
# A scan on the FPGA, from the codes to the bit vector

The cycle-level unit, the memory it shares with the host, and the host's layout of pages and results put together.

* `hostWords` : a buffer of cache lines as the host reads it;
* `writeBuffer_hostWords` : what the unit leaves in memory is the write buffer of a scan;
* `selected_in_memory` : after a partition is processed and delivered, `copyFPGAWriteBuffer` sets exactly the bits of
  the selected rows.
-/

namespace SdbFpga.Api
open Bits Text Data Fpga Transition PostedWrites

/-- The words of the buffer at line `a`. -/
def hostWords (mem : ClAddr → ClData) (a : ClAddr) (i : Nat) : Word :=
  lane 64 (i % 8) (mem (a + BitVec.ofNat 42 (i / 8)))

/-- The words of a page are those of its lines. -/
theorem cacheLine_hostWords (mem : ClAddr → ClData) (a : ClAddr) (j : Nat) :
    cacheLine (hostWords mem a) j = mem (a + BitVec.ofNat 42 j) := by
  apply BitVec.eq_of_getLsbD_eq
  intro b hb
  have hlt : b % 64 < 64 := Nat.mod_lt b (by decide)
  have hdiv : (8 * j + b / 64) / 8 = j := by omega
  have hmod : (8 * j + b / 64) % 8 = b / 64 := by omega
  rw [cacheLine, getLsbD_concat 64 _ 8 b hb, hostWords, hdiv, hmod, getLsbD_lane, decide_eq_true hlt, Bool.true_and,
    Nat.div_add_mod]

/-- A result buffer whose lines are the scans of a page is that page's write buffer. -/
theorem writeBuffer_hostWords {mem : ClAddr → ClData} {a : ClAddr} {scanColumn : BitVec 2} {filterPred : BitVec 8}
    {totalCls : Nat} {page : Nat → Word}
    (h : ∀ i < totalCls, mem (a + BitVec.ofNat 42 i) = scanLine scanColumn filterPred (cacheLine page i)) :
    hostWords mem a = writeBuffer scanColumn filterPred totalCls page (hostWords mem a) := by
  funext i
  unfold writeBuffer
  split
  · next hlt => rw [hostWords, h _ hlt]
  · rfl

/-- The lines of a page held by the memory. -/
theorem cacheLine_of_words {mem : ClAddr → ClData} {a : ClAddr} {page : Nat → Word} {n j : Nat}
    (h : ∀ i < 8 * n, hostWords mem a i = page i) (hj : j < n) :
    cacheLine page j = mem (a + BitVec.ofNat 42 j) := by
  rw [← cacheLine_hostWords mem a j]
  apply BitVec.eq_of_getLsbD_eq
  intro b hb
  rw [cacheLine, cacheLine, getLsbD_concat 64 _ 8 b hb, getLsbD_concat 64 _ 8 b hb, h _ (by omega)]

/-- The partition of a run that a scan announces, with its page loaded: `CSR[0]`, `CSR[1]` and `CSR[2]` hold the
scan's parameters. -/
structure Announces (scan : ScanApi) (page : Nat → Word) (mem : ClAddr → ClData) (run : PartitionRun) : Prop where
  cls : run.cls = scan.totalCls.toNat
  pred : run.pred = scan.predRegister
  column : run.column = scan.jobType.scanColumn
  page : ∀ i < 8 * run.cls, hostWords mem run.base i = page i

/-- Its result buffer is the write buffer of the scan. -/
theorem resultBuffer_eq {σ : MemSys} {n : Nat} {run : PartitionRun} (hdel : Delivers σ n run)
    (h : Reachable scanDevice.withMemory σ) {scan : ScanApi} {page : Nat → Word}
    (hrun : Announces scan page σ.host.mem run) :
    hostWords σ.host.mem run.result = writeBuffer scan.jobType.scanColumn scan.predRegister scan.totalCls.toNat page
      (hostWords σ.host.mem run.result) := by
  apply writeBuffer_hostWords
  rw [← hrun.cls, ← hrun.pred, ← hrun.column]
  intro i hi
  rw [cacheLine_of_words hrun.page hi]
  exact hdel.line h hi

/-- The bit of a row after a partition went through the cycle-level unit and the memory: it is set exactly if the row
is selected. -/
theorem selected_in_memory {u : ScanUnit} {c column : Column} {fresh : Nat → Nat → Word} {codes : List Nat}
    (hcodes : ∀ x ∈ codes, x < 2 ^ u.bits) (hsize : c.colSize = codes.length) (hbits : c.numOfBits = u.bits)
    (hnil : c.partitions = [])
    (hcolumn : (c.initializePageAlignedPartitions fresh).compressColumn (codes.map decimal) = column)
    {comp : ComparisonType} {lower upper : BitVec 32} {result : Nat → Word} {scan : ScanApi}
    (hl : lower.toNat < 2 ^ u.bits) (hu : u = .loDiscount → upper.toNat < 2 ^ u.bits)
    (hscan : u.scan column comp lower upper result = scan) {p r : Nat} {q : Partition}
    (hq : column.partitions[p]? = some q) (hr : r < q.partSize.toNat) (hrow : p * q.partSize.toNat + r < codes.length)
    {σ : MemSys} (h : Reachable scanDevice.withMemory σ) {n : Nat} {run : PartitionRun} (hdel : Delivers σ n run)
    (hrun : Announces scan q.compressed σ.host.mem run) :
    ((scan.copyFPGAWriteBuffer (hostWords σ.host.mem run.result) p scan.totalCls).bitResult
        (p * scan.resBuffLen.toNat + r / 64)).getLsbD (r % 64) = true ↔
      u.Selects lower.toNat upper.toNat codes[p * q.partSize.toNat + r] := by
  subst hcolumn
  have hpart : q.partSize.toNat = 512 * u.codesPerWord := by
    rw [partSize_page u.bits_pos u.bits_mul_codesPerWord hbits hnil hq, Int.toNat_natCast]
  simp only [hpart] at hr hrow ⊢
  have hlanes : 0 < 8 * u.codesPerWord := Nat.mul_pos (by decide) u.codesPerWord_pos
  have hjob : scan.jobType = u.jobType := by
    rw [← hscan]
    rfl
  have hlower : scan.lowerParam = lower := by
    rw [← hscan]
    rfl
  have hupper : scan.upperParam = upper := by
    rw [← hscan]
    rfl
  have hcopy : scan.copyFPGAWriteBuffer (hostWords σ.host.mem run.result) p scan.totalCls =
      scan.scanPartition q (hostWords σ.host.mem run.result) p :=
    congrArg (fun buf => scan.copyFPGAWriteBuffer buf p scan.totalCls) (resultBuffer_eq hdel h hrun)
  rw [hcopy, bitResult_index hsize hbits hnil hscan hq hr hrow,
    scanLine_iff u scan hjob (hlower ▸ hl) (hupper ▸ hu) _ (Nat.mod_lt r hlanes),
    lane_cacheLine_page hbits hnil hq hcodes hr hrow, hlower, hupper]

/-- The page of the two `d_year` rows 3 and 5 goes through the unit. -/
def twoRowScript : List (AttachedLabel Wires ClAddr ClData) :=
  (paramScript 1 3 0 ++ [Wires.csr 5 0x1000] ++ lineScript 0x40 0x53 .quiet).map .step ++ [.step .quiet, .perform 0]

/-- The unit after its reset; line 1 of the memory holds the page. -/
def twoRowBoot : MemSys := ⟨Sys.boot, .new fun a => if a = 1 then 0x53 else 0⟩

/-- Where the script ends. -/
def twoRowsDone : MemSys := scanDevice.withMemory.run twoRowBoot twoRowScript

theorem selected_in_memory_two_rows :
    let c : Column := { Column.new 2 with numOfBits := 4 }
    let column := (c.initializePageAlignedPartitions fun _ _ => 0).compressColumn ([3, 5].map decimal)
    let scan := ScanUnit.dYear.scan column .eq 3 (-1) fun _ => 0
    ∃ run, Delivers twoRowsDone 0 run ∧
      ((scan.copyFPGAWriteBuffer (hostWords twoRowsDone.host.mem run.result) 0 scan.totalCls).bitResult
        (0 * scan.resBuffLen.toNat + 0 / 64)).getLsbD (0 % 64) = true := by
  intro c column scan
  have hr : Reachable scanDevice.withMemory twoRowsDone :=
    Reachable.run (.init ⟨booted_boot, _, rfl⟩) (by decide +kernel)
  have hfacts : twoRowsDone.host.pending = [] ∧ twoRowsDone.dev.runs.map
      (fun p => ((p.cls, p.processed, p.swallowed), (p.base, p.result), (p.pred, p.column))) =
        [((1, true, false), (1, 64), (3, 0))] ∧
      ∀ i < 8, hostWords twoRowsDone.host.mem 1 i = if i = 0 then 0x53 else 0 := by
    decide +kernel
  obtain ⟨hpend, hruns, hpage⟩ := hfacts
  obtain ⟨run, hp, heq⟩ := List.map_eq_singleton_iff.mp hruns
  simp only [Prod.mk.injEq] at heq
  obtain ⟨⟨hcls, hd, hs⟩, ⟨hbase, hres⟩, hpred, hcol⟩ := heq
  have hdel : Delivers twoRowsDone 0 run := by
    refine ⟨by rw [hp]; rfl, hd, hs, apart_single hp ?_, ?_⟩
    · unfold PartitionRun.resultLine PartitionRun.pageLine
      rw [hcls, hbase, hres]
      decide
    · rw [hpend]
      rintro i _ e ⟨⟩
  obtain ⟨q, hq⟩ : ∃ q, column.partitions[0]? = some q := ⟨_, rfl⟩
  have hwords : ∀ i < 8, q.compressed i = if i = 0 then 0x53 else 0 := by
    cases hq
    decide +kernel
  have hrun : Announces scan q.compressed twoRowsDone.host.mem run := by
    refine ⟨hcls, hpred, hcol, ?_⟩
    rw [hcls, hbase]
    intro i hi
    rw [hpage i hi, hwords i hi]
  have hbits : c.numOfBits = ScanUnit.dYear.bits := rfl
  have hpart : q.partSize.toNat = 512 * 16 := by
    rw [partSize_page ScanUnit.dYear.bits_pos ScanUnit.dYear.bits_mul_codesPerWord hbits rfl hq]
    rfl
  have hrow : 0 * q.partSize.toNat + 0 < [3, 5].length := by
    rw [Nat.zero_mul]
    decide
  have hr0 : 0 < q.partSize.toNat := by
    rw [hpart]
    decide
  have hcolumn : (c.initializePageAlignedPartitions fun _ _ => 0).compressColumn ([3, 5].map decimal) = column := rfl
  have hscan : ScanUnit.dYear.scan column .eq 3 (-1) (fun _ => 0) = scan := rfl
  refine ⟨run, hdel, (selected_in_memory (by decide) rfl hbits rfl hcolumn (by decide) (by decide) hscan hq hr0 hrow
    hr hdel hrun).mpr ?_⟩
  simp only [Nat.zero_mul]
  rfl

end SdbFpga.Api
