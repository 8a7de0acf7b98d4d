import SdbFpga.Fpga.BlockInvariant

/-!
# `BLOCK_RW::waitAndWriteResponse` against `block_read`

The host polls `CSR[0]` and `CSR[2]` and takes `CSR[3]`, `CSR[4]` when the line index has changed. A read returns what
the CSR holds in the cycle in which `csr_mgr` samples it; between two reads any number of cycles pass.

* `BlockHost` : the loop with the AFU, `BlockHost.read` : its next read; `blockLoop` : every run of one block;
* `KeepsUp` : the timing of the reads under which the loop works, `CollectedInOrder` : what it then leaves;
* `collected_iff` : one holds along a run exactly when the other does;
* `line_zero_missed` : a loop that starts on index 0 never takes line 0.
-/

namespace SdbFpga.Host
open Transition SdbFpga.Fpga

/-- The next read of the loop. -/
inductive LoopPc
  /-- `readCSR(0) == 0` -/
  | test
  /-- `(cur_cl = readCSR(2)) != prev_cl` -/
  | poll
  /-- `cur_cl = readCSR(2)` -/
  | reread
  /-- `addBitResult(readCSR(3))` -/
  | vector
  /-- `addBitResult(readCSR(4))` -/
  | four
  | ended
  deriving DecidableEq, Repr

/-- The loop and the AFU. -/
structure BlockHost where
  sys : BlockSys
  pc : LoopPc
  prevCl : BitVec 32
  curCl : BitVec 32
  /-- the words this call has appended to `bit_results` -/
  bitResults : List MmioData
  /-- results stored in the CSRs since the last read of `CSR[3]`, or since the announcement -/
  unread : Nat
  /-- for each read of `CSR[3]` the line whose result it held, `none` before the first result of the block -/
  taken : List (Option Nat)

/-- A cycle of the AFU, or the next read of the loop. -/
inductive LoopStep
  | cycle (w : BlockWires)
  | read

/-- Results of the current block that have reached the CSRs. -/
def BlockHost.stored (h : BlockHost) : Nat :=
  (h.sys.cur.map fun p => p.lines.length).getD 0 - (if h.sys.afu.rspReceived then 1 else 0)

/-- The bit vectors of the lines received so far. -/
def BlockHost.vectors (h : BlockHost) : List MmioData :=
  (h.sys.cur.map fun p => p.lines.map fun rsp => lineVector h.sys.afu.bitEncoding h.sys.afu.filterPred rsp.data).getD []

/-- The lines of the current block. -/
def BlockHost.cls (h : BlockHost) : Nat := (h.sys.cur.map BlockRun.cls).getD 0

/-- The next read of the loop, with what follows it. -/
def BlockHost.read (h : BlockHost) : BlockHost :=
  let csr := h.sys.afu.cpuRdCsrs
  match h.pc with
  | .test => { h with pc := if csr 0 == 0 then .poll else .ended }
  | .poll => { h with curCl := (csr 2).setWidth 32, pc := if (csr 2).setWidth 32 != h.prevCl then .reread else .test }
  | .reread => { h with curCl := (csr 2).setWidth 32, pc := .vector }
  | .vector =>
    { h with
      bitResults := h.bitResults ++ [csr 3]
      pc := .four
      unread := 0
      taken := h.taken ++ [if h.stored = 0 then none else some (h.stored - 1)] }
  | .four => { h with bitResults := h.bitResults ++ [csr 4], prevCl := h.curCl, pc := .test }
  | .ended => h

/-- One cycle of the AFU. -/
def BlockHost.cycle (h : BlockHost) (w : BlockWires) : BlockHost :=
  { h with
    sys := h.sys.step w
    unread := h.unread + (if h.sys.afu.rspReceived then 1 else 0) }

def BlockHost.step (h : BlockHost) : LoopStep → BlockHost
  | .cycle w => h.cycle w
  | .read => h.read

/-- The host writes no CSR while it waits, and a response carries the tag of its request. -/
structure WaitProtocol (h : BlockHost) (w : BlockWires) : Prop where
  afu : BlockProtocol h.sys w
  noWrite : ∀ k, (w.wrCsrs k).en = false
  tag : ∀ rsp ∈ w.readRsp, ∀ p ∈ h.sys.cur, p.reads[p.lines.length]?.map ReadHdr.mdata = some rsp.mdata

instance (h : BlockHost) (w : BlockWires) : Decidable (WaitProtocol h w) :=
  -- the response, not every one there is
  have : Decidable (∀ rsp ∈ w.readRsp, ∀ p ∈ h.sys.cur,
      p.reads[p.lines.length]?.map ReadHdr.mdata = some rsp.mdata) := Option.decidableForallMem w.readRsp
  decidable_of_iff
    (BlockProtocol h.sys w ∧ (∀ k, (w.wrCsrs k).en = false) ∧
      ∀ rsp ∈ w.readRsp, ∀ p ∈ h.sys.cur, p.reads[p.lines.length]?.map ReadHdr.mdata = some rsp.mdata)
    ⟨fun ⟨a, b, c⟩ => ⟨a, b, c⟩, fun ⟨a, b, c⟩ => ⟨a, b, c⟩⟩

/-- The call starts: the announcement of the block has just reached the AFU, after any earlier run. -/
structure WaitStart (h : BlockHost) : Prop where
  reachable : Reachable blockSystem h.sys
  announced : h.sys.afu.newBlockReceived = true
  pc : h.pc = .test
  prevCl : h.prevCl = 0
  bitResults : h.bitResults = []
  unread : h.unread = 0
  taken : h.taken = []

/-- A cycle keeps to the protocol; a read needs nothing. -/
def LoopPermits (h : BlockHost) : LoopStep → Prop
  | .cycle w => WaitProtocol h w
  | .read => True

instance : (h : BlockHost) → (i : LoopStep) → Decidable (LoopPermits h i)
  | h, .cycle w => inferInstanceAs (Decidable (WaitProtocol h w))
  | _, .read => .isTrue trivial

/-- The runs of one call. -/
def blockLoop : System BlockHost LoopStep where
  init := WaitStart
  permits := LoopPermits
  step := BlockHost.step

instance (h : BlockHost) (i : LoopStep) : Decidable (blockLoop.permits h i) :=
  inferInstanceAs (Decidable (LoopPermits h i))

/-! ## What is asked of the loop and what it needs -/

/-- The words of `CSR[3]` among the words read: every other one. -/
def csr3Words : List MmioData → List MmioData
  | [] => []
  | [v] => [v]
  | v :: _ :: rest => v :: csr3Words rest

/-- Each read of `CSR[3]` took the next line, and the loop ended on the last one. -/
structure CollectedInOrder (h : BlockHost) : Prop where
  lines : h.taken = (List.range h.taken.length).map some
  words : csr3Words h.bitResults = h.vectors.take h.taken.length
  all : h.pc = .ended → csr3Words h.bitResults = h.vectors ∧ h.vectors.length = h.cls

/-- `CSR[3]` is read when exactly one result has been stored since the last time, and `CSR[0]` is read as 1 only when
the result of the last line has been stored and read. -/
def KeepsUp (h : BlockHost) : LoopStep → Prop
  | .cycle _ => True
  | .read =>
    (h.pc = .vector → h.unread = 1) ∧
      (h.pc = .test → h.sys.afu.readsDone = true → h.stored = h.cls ∧ h.unread = 0)

instance : (h : BlockHost) → (i : LoopStep) → Decidable (KeepsUp h i)
  | _, .cycle _ => .isTrue trivial
  | h, .read => inferInstanceAs (Decidable ((h.pc = .vector → h.unread = 1) ∧
      (h.pc = .test → h.sys.afu.readsDone = true → h.stored = h.cls ∧ h.unread = 0)))

/-! ## The reads of the loop -/

section Read
variable {h : BlockHost}

theorem read_test (hpc : h.pc = .test) :
    h.read = { h with pc := if h.sys.afu.cpuRdCsrs 0 == 0 then .poll else .ended } := by
  unfold BlockHost.read
  rw [hpc]

theorem read_poll (hpc : h.pc = .poll) :
    h.read = { h with
      curCl := (h.sys.afu.cpuRdCsrs 2).setWidth 32
      pc := if (h.sys.afu.cpuRdCsrs 2).setWidth 32 != h.prevCl then .reread else .test } := by
  unfold BlockHost.read
  rw [hpc]

theorem read_reread (hpc : h.pc = .reread) :
    h.read = { h with curCl := (h.sys.afu.cpuRdCsrs 2).setWidth 32, pc := .vector } := by
  unfold BlockHost.read
  rw [hpc]

theorem read_vector (hpc : h.pc = .vector) :
    h.read = { h with
      bitResults := h.bitResults ++ [h.sys.afu.cpuRdCsrs 3]
      pc := .four
      unread := 0
      taken := h.taken ++ [if h.stored = 0 then none else some (h.stored - 1)] } := by
  unfold BlockHost.read
  rw [hpc]

theorem read_four (hpc : h.pc = .four) :
    h.read = { h with bitResults := h.bitResults ++ [h.sys.afu.cpuRdCsrs 4], prevCl := h.curCl, pc := .test } := by
  unfold BlockHost.read
  rw [hpc]

theorem read_ended (hpc : h.pc = .ended) : h.read = h := by
  unfold BlockHost.read
  rw [hpc]

end Read

/-! ## The result CSRs -/

theorem csr3Words_even {l : List MmioData} (v : MmioData) (h : l.length % 2 = 0) :
    csr3Words (l ++ [v]) = csr3Words l ++ [v] := by
  fun_induction csr3Words l with
  | case1 => rfl
  | case2 a => simp at h
  | case3 a b rest ih =>
    have hrest : rest.length % 2 = 0 := by
      simp only [List.length_cons] at h
      omega
    simp [csr3Words, ih hrest]

theorem csr3Words_odd {l : List MmioData} (v : MmioData) (h : l.length % 2 = 1) :
    csr3Words (l ++ [v]) = csr3Words l := by
  fun_induction csr3Words l with
  | case1 => simp at h
  | case2 a => rfl
  | case3 a b rest ih =>
    have hrest : rest.length % 2 = 1 := by
      simp only [List.length_cons] at h
      omega
    simp [csr3Words, ih hrest]

/-- Nothing latched at the previous edge is left when a block is announced. -/
theorem rspReceived_announced {σ : BlockSys} (h : Reachable blockSystem σ) (hn : σ.afu.newBlockReceived = true) :
    σ.afu.rspReceived = false := by
  cases h with
  | init h0 =>
    have := (BlockBooted.handshake h0).newBlock
    rw [hn] at this
    cases this
  | @step σ w hr hw =>
    have hout : σ.outstanding = 0 := by
      have := (hw.announce hn).2.1
      unfold BlockSys.inFlight at this
      omega
    have hrsp : w.readRsp = none := BlockProtocol.no_response hw hout
    show (σ.afu.step w).rspReceived = false
    simp [BlockRead.step, BlockRead.readResponse, hrsp]

/-- The number of the last result read, counted from 1. -/
def BlockHost.lastTaken (h : BlockHost) : Nat :=
  match h.taken.getLast? with
  | some (some i) => i + 1
  | _ => 0

/-- The block under way and the results on their way to the host. -/
structure WaitInv (h : BlockHost) (p : BlockRun) : Prop where
  reachable : Reachable blockSystem h.sys
  cur : h.sys.cur = some p
  same : p.rewritten = false
  clear : h.sys.afu.newBlockReceived = false → h.sys.afu.bitEncoding ≠ 1 → h.sys.afu.bitResult = 0
  latched : h.sys.afu.rspReceived = true → h.vectors.getLast? = some h.sys.afu.bitResult
  held : 0 < h.stored → h.vectors[h.stored - 1]? = some (h.sys.afu.rdCsrs 3)
  read : h.stored = h.lastTaken + h.unread
  parity : h.bitResults.length % 2 = if h.pc = .four then 1 else 0
  count : (csr3Words h.bitResults).length = h.taken.length

section Inv
variable {h : BlockHost} {p : BlockRun}

theorem WaitInv.stored_eq (hi : WaitInv h p) :
    h.stored + (if h.sys.afu.rspReceived then 1 else 0) = p.lines.length := by
  have hs : h.stored = p.lines.length - (if h.sys.afu.rspReceived then 1 else 0) := by
    simp [BlockHost.stored, hi.cur]
  cases hr : h.sys.afu.rspReceived
  · rw [hs, hr]
    rfl
  · have hne : p.lines ≠ [] := by
      intro he
      have := hi.latched hr
      simp [BlockHost.vectors, hi.cur, he] at this
    have := List.length_pos_of_ne_nil hne
    rw [hs, hr, if_pos rfl]
    omega

theorem WaitInv.vectors_eq (hi : WaitInv h p) :
    h.vectors = p.lines.map fun rsp => lineVector h.sys.afu.bitEncoding h.sys.afu.filterPred rsp.data := by
  simp [BlockHost.vectors, hi.cur]

theorem WaitInv.vectors_length (hi : WaitInv h p) : h.vectors.length = p.lines.length := by
  rw [hi.vectors_eq, List.length_map]

theorem WaitInv.cls_eq (hi : WaitInv h p) : h.cls = p.cls := by
  simp [BlockHost.cls, hi.cur]

/-- No more lines arrive than the block has. -/
theorem WaitInv.lines_le (hi : WaitInv h p) : p.lines.length ≤ p.cls := by
  obtain ⟨r, l, hlr, hr, hp, _⟩ := (blockInv_of_reachable hi.reachable).phase.progress hi.cur
  rw [hp.lines]
  omega

/-- What `scan_8bit` latches with a response is the vector of its line. -/
theorem WaitInv.scan (hi : WaitInv h p) {w : BlockWires} (hw : WaitProtocol h w) {rsp : ReadRsp}
    (hr : w.readRsp = some rsp) :
    h.sys.afu.scan8bit w = lineVector h.sys.afu.bitEncoding h.sys.afu.filterPred rsp.data := by
  obtain ⟨_, _, hl, _⟩ := (blockInv_of_reachable hi.reachable).phase.of_response hw.afu (by rw [hr]; rfl)
  unfold BlockRead.scan8bit lineVector
  rw [hw.afu.noReset, hl.newBlock, hr]
  by_cases he : h.sys.afu.bitEncoding = 1
  · simp only [he, beq_self_eq_true, Option.isSome_some, Bool.and_self, Bool.or_self]
    exact p64Block_old _ _ _ _
  · have hb : (h.sys.afu.bitEncoding == 1) = false := by simpa using he
    rw [hb, hi.clear hl.newBlock he]
    rfl

section Cycle
variable {w : BlockWires} (hw : WaitProtocol h w)
include hw

theorem WaitInv.cycle_cur (hi : WaitInv h p) : (h.cycle w).sys.cur = some (p.observe w (h.sys.afu.step w)) := by
  simp [BlockHost.cycle, BlockSys.step, hw.noWrite 3, hi.cur]

theorem cycle_bitEncoding : (h.cycle w).sys.afu.bitEncoding = h.sys.afu.bitEncoding := by
  simp [BlockHost.cycle, BlockSys.step, BlockRead.step, BlockRead.csrRegs, hw.noWrite 2]

theorem cycle_filterPred : (h.cycle w).sys.afu.filterPred = h.sys.afu.filterPred := by
  simp [BlockHost.cycle, BlockSys.step, BlockRead.step, BlockRead.csrRegs, hw.noWrite 1]

theorem cycle_rspReceived : (h.cycle w).sys.afu.rspReceived = w.readRsp.isSome := by
  show (h.sys.afu.readResponse w).rspReceived = _
  cases hr : w.readRsp <;> simp [BlockRead.readResponse, hw.afu.noReset, hr]

/-- A response adds the vector of its line. -/
theorem WaitInv.cycle_vectors (hi : WaitInv h p) :
    (h.cycle w).vectors = h.vectors ++ w.readRsp.toList.map fun rsp =>
      lineVector h.sys.afu.bitEncoding h.sys.afu.filterPred rsp.data := by
  simp [BlockHost.vectors, hi.cycle_cur hw, cycle_bitEncoding hw, cycle_filterPred hw, hi.cur, BlockRun.observe]

theorem WaitInv.cycle (hi : WaitInv h p) : WaitInv (h.cycle w) (p.observe w (h.sys.afu.step w)) := by
  have hcur := hi.cycle_cur hw
  have henc := cycle_bitEncoding hw
  have hrsp := cycle_rspReceived hw
  have hvec := hi.cycle_vectors hw
  have hstored : (h.cycle w).stored = p.lines.length := by
    cases hr : w.readRsp <;> simp [BlockHost.stored, hcur, hrsp, hr, BlockRun.observe]
  have hlen := hi.stored_eq
  refine ⟨hi.reachable.step hw.afu, hcur, ?_, ?_, ?_, ?_, ?_, hi.parity, hi.count⟩
  · simp [BlockRun.observe, hi.same, hw.noWrite 0]
  · intro _ he
    rw [henc] at he
    have hb : (h.sys.afu.bitEncoding == 1) = false := by simpa using he
    show h.sys.afu.scan8bit w = 0
    unfold BlockRead.scan8bit
    cases hn : h.sys.afu.newBlockReceived
    · rw [hw.afu.noReset, hb, hi.clear hn he]
      rfl
    · rw [Bool.or_true]
      rfl
  · intro hr
    rw [hrsp] at hr
    obtain ⟨rsp, hr⟩ := Option.isSome_iff_exists.mp hr
    rw [hvec, hr, Option.toList_some, List.map_singleton, List.getLast?_concat, ← hi.scan hw hr]
    rfl
  · intro hpos
    rw [hstored] at hpos ⊢
    have hold : (h.cycle w).sys.afu.rdCsrs 3 =
        if h.sys.afu.rspReceived then h.sys.afu.bitResult else h.sys.afu.rdCsrs 3 := by
      show h.sys.afu.resultCsrs w 3 = _
      simp [BlockRead.resultCsrs, hw.afu.noReset]
    have hin : p.lines.length - 1 < h.vectors.length := by
      rw [hi.vectors_length]
      omega
    rw [hvec, hold, List.getElem?_append_left hin]
    cases hr : h.sys.afu.rspReceived
    · rw [hr] at hlen
      have hs : h.stored = p.lines.length := by simpa using hlen
      rw [← hs] at hpos ⊢
      exact hi.held hpos
    · rw [← hi.vectors_length, ← List.getLast?_eq_getElem?]
      exact hi.latched hr
  · rw [hstored, ← hlen, hi.read]
    show _ = h.lastTaken + (h.unread + _)
    omega

end Cycle

/-- A read of `CSR[0]` or `CSR[2]` appends nothing. -/
theorem WaitInv.move (hi : WaitInv h p) (hpc : h.pc ≠ .four) (c : BitVec 32) (pc : LoopPc) (hnew : pc ≠ .four) :
    WaitInv { h with curCl := c, pc := pc } p := by
  obtain ⟨hreach, hcur, hsame, hclear, hlatched, hheld, hread, hparity, hcount⟩ := hi
  refine ⟨hreach, hcur, hsame, hclear, hlatched, hheld, hread, ?_, hcount⟩
  rw [if_neg hpc] at hparity
  rw [if_neg hnew]
  exact hparity

theorem WaitInv.pull (hi : WaitInv h p) : WaitInv h.read p := by
  cases hpc : h.pc with
  | test =>
    rw [read_test hpc]
    exact hi.move (by rw [hpc]; simp) h.curCl _ (by split <;> simp)
  | poll =>
    rw [read_poll hpc]
    exact hi.move (by rw [hpc]; simp) _ _ (by split <;> simp)
  | reread =>
    rw [read_reread hpc]
    exact hi.move (by rw [hpc]; simp) _ _ (by simp)
  | vector =>
    obtain ⟨hreach, hcur, hsame, hclear, hlatched, hheld, _, hparity, hcount⟩ := hi
    rw [if_neg (by rw [hpc]; simp)] at hparity
    rw [read_vector hpc]
    refine ⟨hreach, hcur, hsame, hclear, hlatched, hheld, ?_, ?_, ?_⟩
    · show h.stored = BlockHost.lastTaken _ + 0
      unfold BlockHost.lastTaken
      rw [List.getLast?_concat]
      by_cases hs : h.stored = 0
      · rw [if_pos hs, hs]
      · rw [if_neg hs]
        show h.stored = h.stored - 1 + 1 + 0
        omega
    · rw [if_pos rfl, List.length_append, List.length_singleton]
      omega
    · rw [csr3Words_even _ hparity, List.length_append, List.length_append, hcount]
      rfl
  | four =>
    obtain ⟨hreach, hcur, hsame, hclear, hlatched, hheld, hread, hparity, hcount⟩ := hi
    rw [if_pos hpc] at hparity
    rw [read_four hpc]
    refine ⟨hreach, hcur, hsame, hclear, hlatched, hheld, hread, ?_, ?_⟩
    · rw [if_neg (by simp), List.length_append, List.length_singleton]
      omega
    · rw [csr3Words_odd _ hparity, hcount]
  | ended =>
    rw [read_ended hpc]
    exact hi

/-- What the announcement finds. -/
theorem WaitStart.inv (h0 : WaitStart h) : ∃ p, WaitInv h p := by
  have hrsp := rspReceived_announced h0.reachable h0.announced
  have quiet : ∀ {allowed valid out}, Handshake h.sys false allowed valid out → False := by
    intro allowed valid out hl
    have := hl.newBlock
    rw [h0.announced] at this
    cases this
  cases (blockInv_of_reachable h0.reachable).phase with
  | @announced p hl hc hp =>
    have hlines := List.eq_nil_of_length_eq_zero hp.lines
    refine ⟨p, h0.reachable, hc.cur, hc.same, ?_, ?_, ?_, ?_, ?_, ?_⟩
    · simp [h0.announced]
    · simp [hrsp]
    · simp [BlockHost.stored, hc.cur, hlines]
    · simp [BlockHost.stored, BlockHost.lastTaken, hc.cur, hlines, h0.taken, h0.unread]
    · simp [h0.bitResults, h0.pc]
    · simp [h0.bitResults, h0.taken, csr3Words]
  | idle hl _ => exact (quiet hl).elim
  | allowed hl => exact (quiet hl).elim
  | requested hl => exact (quiet hl).elim
  | awaiting hl => exact (quiet hl).elim

end Inv

theorem waitInv_of_reachable {h : BlockHost} (hr : Reachable blockLoop h) : ∃ p, WaitInv h p := by
  refine Reachable.invariant (P := fun h => ∃ p, WaitInv h p) ?_ ?_ hr
  · intro h h0
    exact WaitStart.inv h0
  · intro h i _ hi hw
    obtain ⟨p, hi⟩ := hi
    cases i with
    | cycle w => exact ⟨_, hi.cycle hw⟩
    | read => exact ⟨p, hi.pull⟩

/-! ## Keeping up is what it takes -/

section Collected
variable {h : BlockHost} {p : BlockRun}

theorem CollectedInOrder.lastTaken (hc : CollectedInOrder h) : h.lastTaken = h.taken.length := by
  unfold BlockHost.lastTaken
  rw [hc.lines]
  cases h.taken.length with
  | zero => rfl
  | succ n => simp [List.range_succ]

/-- The results read are among the results received. -/
theorem CollectedInOrder.taken_le (hc : CollectedInOrder h) (hi : WaitInv h p) :
    h.taken.length + h.unread = h.stored ∧ h.stored ≤ h.vectors.length := by
  have hs := hi.stored_eq
  rw [hi.vectors_length, hi.read, hc.lastTaken] at *
  omega

theorem cpuRdCsrs_zero (s : BlockRead) : (s.cpuRdCsrs 0 == 0) = !s.readsDone := by
  have : ∀ b : Bool, ((BitVec.ofBool b).setWidth 64 == 0#64) = !b := by decide
  exact this s.readsDone

theorem cpuRdCsrs_three (s : BlockRead) : s.cpuRdCsrs 3 = s.rdCsrs 3 := rfl

/-- A cycle of the AFU takes nothing back. -/
theorem CollectedInOrder.cycle (hc : CollectedInOrder h) (hi : WaitInv h p) {w : BlockWires}
    (hw : WaitProtocol h w) : CollectedInOrder (h.cycle w) := by
  obtain ⟨hread, hle⟩ := hc.taken_le hi
  have hvec := hi.cycle_vectors hw
  have hcls : (h.cycle w).cls = h.cls := by
    rw [(hi.cycle hw).cls_eq, hi.cls_eq]
    rfl
  refine ⟨hc.lines, ?_, ?_⟩
  · rw [hvec]
    show csr3Words h.bitResults = List.take h.taken.length _
    rw [List.take_append_of_le_length (by omega)]
    exact hc.words
  · intro hend
    obtain ⟨hwords, hall⟩ := hc.all hend
    have hbound := (hi.cycle hw).lines_le
    rw [← (hi.cycle hw).vectors_length, ← (hi.cycle hw).cls_eq, hcls, hvec, List.length_append, hall] at hbound
    cases hr : w.readRsp with
    | none =>
      rw [hvec, hcls, hr, Option.toList_none, List.map_nil, List.append_nil]
      exact ⟨hwords, hall⟩
    | some rsp =>
      rw [hr, Option.toList_some, List.map_singleton, List.length_singleton] at hbound
      omega

/-- A read that appends nothing and does not end the loop. -/
theorem CollectedInOrder.move (hc : CollectedInOrder h) (c : BitVec 32) (pc : LoopPc) (hpc : pc ≠ .ended) :
    CollectedInOrder { h with curCl := c, pc := pc } :=
  ⟨hc.lines, hc.words, fun he => absurd he hpc⟩

/-- `CSR[0]`: the loop ends here only if nothing is missing. -/
theorem collected_test_iff (hc : CollectedInOrder h) (hi : WaitInv h p) (hpc : h.pc = .test) :
    CollectedInOrder h.read ↔ (h.sys.afu.readsDone = true → h.stored = h.cls ∧ h.unread = 0) := by
  obtain ⟨hread, hle⟩ := hc.taken_le hi
  have hbound : h.vectors.length ≤ h.cls := by
    rw [hi.vectors_length, hi.cls_eq]
    exact hi.lines_le
  rw [read_test hpc, cpuRdCsrs_zero]
  cases hd : h.sys.afu.readsDone
  · simp only [Bool.not_false, if_true, Bool.false_eq_true, false_implies, iff_true]
    exact hc.move h.curCl .poll (by simp)
  · simp only [Bool.not_true, Bool.false_eq_true, if_false, true_implies]
    constructor
    · intro hc'
      have hwords : csr3Words h.bitResults = h.vectors := (hc'.all rfl).1
      have hall : h.vectors.length = h.cls := (hc'.all rfl).2
      have hcount : h.taken.length = h.cls := by
        rw [← hi.count, hwords, hall]
      omega
    · rintro ⟨hs, hu⟩
      refine ⟨hc.lines, hc.words, fun _ => ⟨?_, ?_⟩⟩
      · show csr3Words h.bitResults = h.vectors
        rw [hc.words, List.take_of_length_le (by omega)]
      · show h.vectors.length = h.cls
        omega

/-- `CSR[3]`: the next line is there exactly when one result is unread. -/
theorem collected_vector_iff (hc : CollectedInOrder h) (hi : WaitInv h p) (hpc : h.pc = .vector) :
    CollectedInOrder h.read ↔ h.unread = 1 := by
  obtain ⟨hread, hle⟩ := hc.taken_le hi
  have hparity := hi.parity
  rw [if_neg (by rw [hpc]; simp)] at hparity
  rw [read_vector hpc]
  constructor
  · intro hc'
    have htag := hc'.lines
    rw [List.length_append, List.length_singleton, List.range_succ, List.map_append, ← hc.lines] at htag
    have htag := List.append_cancel_left htag
    by_cases hs : h.stored = 0
    · simp [hs] at htag
    · simp only [if_neg hs, List.map_cons, List.map_nil, List.cons.injEq, Option.some.injEq, and_true] at htag
      omega
  · intro hu
    have hs : h.stored = h.taken.length + 1 := by omega
    have hheld := hi.held (by omega)
    rw [hs, Nat.add_sub_cancel] at hheld
    refine ⟨?_, ?_, fun he => by cases he⟩
    · rw [if_neg (by omega), hs, Nat.add_sub_cancel, List.length_append, List.length_singleton, List.range_succ,
        List.map_append, ← hc.lines]
      rfl
    · show csr3Words (h.bitResults ++ [_]) = List.take (h.taken ++ [_]).length h.vectors
      rw [csr3Words_even _ hparity, List.length_append, List.length_singleton, List.take_add_one, hheld, hc.words,
        cpuRdCsrs_three]
      rfl

theorem collected_step_iff {i : LoopStep} (hc : CollectedInOrder h) (hi : WaitInv h p) (hw : LoopPermits h i) :
    CollectedInOrder (h.step i) ↔ KeepsUp h i := by
  cases i with
  | cycle w => exact iff_of_true (hc.cycle hi hw) trivial
  | read =>
    unfold KeepsUp
    show CollectedInOrder h.read ↔ _
    cases hpc : h.pc with
    | test => simpa [hpc] using collected_test_iff hc hi hpc
    | vector => simpa [hpc] using collected_vector_iff hc hi hpc
    | poll =>
      rw [read_poll hpc]
      simpa using hc.move _ _ (by split <;> simp)
    | reread =>
      rw [read_reread hpc]
      simpa using hc.move _ _ (by simp)
    | four =>
      have hparity := hi.parity
      rw [if_pos hpc] at hparity
      have hc' : CollectedInOrder h.read := by
        rw [read_four hpc]
        refine ⟨hc.lines, ?_, fun he => by cases he⟩
        show csr3Words (h.bitResults ++ [_]) = _
        rw [csr3Words_odd _ hparity]
        exact hc.words
      simpa using hc'
    | ended =>
      rw [read_ended hpc]
      simpa using hc

end Collected

theorem WaitStart.collected {h : BlockHost} (h0 : WaitStart h) : CollectedInOrder h := by
  refine ⟨?_, ?_, ?_⟩
  · simp [h0.taken]
  · simp [h0.bitResults, h0.taken, csr3Words]
  · simp [h0.pc]

/-- The loop takes the lines in order and ends on the last one exactly in the runs in which it keeps up. -/
theorem collected_iff (h : BlockHost) (is : List LoopStep) (h0 : WaitStart h)
    (ha : blockLoop.Steps blockLoop.permits h is) :
    blockLoop.Along CollectedInOrder h is ↔ blockLoop.Steps KeepsUp h is := by
  refine along_iff_steps ?_ (.init h0) h0.collected ha
  intro h i hr hc hw
  obtain ⟨p, hi⟩ := waitInv_of_reachable hr
  exact collected_step_iff hc hi hw

/-- The call for the block that the given cycles announce. -/
def BlockHost.start (ws : List BlockWires) : BlockHost := ⟨blockSystem.run .boot ws, .test, 0, 0, [], 0, []⟩

/-- A block of one line, with predicate 3 over bytes. -/
def announceOne : List BlockWires := [.csr 1 3, .csr 2 1, .csr 0 1, .csr 3 1280]

/-- A block of two lines from its announcement to the store of the last result. -/
def twoLineBlock : List BlockWires :=
  [.csr 0 2, .csr 3 640, .quiet, .quiet, .quiet, .respond 0 5, .quiet, .quiet, .respond 1 6, .quiet]

theorem waitStart_start (ws : List BlockWires) (hw : blockSystem.Steps blockSystem.permits .boot ws)
    (hn : (blockSystem.run .boot ws).afu.newBlockReceived = true) : WaitStart (.start ws) :=
  ⟨Reachable.run (.init blockBooted_boot) hw, hn, rfl, rfl, rfl, rfl, rfl⟩

/-- The reads of the loop when the block before left index 1 and the only line arrives between the two reads of
`CSR[2]` and the read of `CSR[3]`. -/
def luckyReads : List LoopStep :=
  [.cycle .quiet, .read, .read, .read, .cycle .quiet, .cycle .quiet, .cycle (.respond 0 7), .cycle .quiet, .read,
    .read, .read]

theorem collected_lucky :
    blockLoop.Along CollectedInOrder (.start (twoLineBlock ++ announceOne)) luckyReads ∧
      (blockLoop.run (.start (twoLineBlock ++ announceOne)) luckyReads).pc = .ended := by
  have h0 : WaitStart (.start (twoLineBlock ++ announceOne)) :=
    waitStart_start _ (by decide +kernel) (by decide +kernel)
  exact ⟨(collected_iff _ _ h0 (by decide +kernel)).mpr (by decide +kernel), by decide +kernel⟩

/-- The line is read and its result stored before the first read of the loop. -/
def lateReads : List LoopStep :=
  [.cycle .quiet, .cycle .quiet, .cycle .quiet, .cycle (.respond 0 7), .cycle .quiet, .read]

/-- The loop ends without it. -/
theorem only_line_missed :
    ¬ ∀ (h : BlockHost) (is : List LoopStep), WaitStart h → blockLoop.Steps blockLoop.permits h is →
      (blockLoop.run h is).pc = .ended →
        csr3Words (blockLoop.run h is).bitResults = (blockLoop.run h is).vectors ∧
          (blockLoop.run h is).vectors.length = (blockLoop.run h is).cls := by
  intro hall
  have h0 : WaitStart (.start announceOne) := waitStart_start _ (by decide +kernel) (by decide +kernel)
  have hwords := (hall _ lateReads h0 (by decide +kernel) (by decide +kernel)).1
  exact absurd hwords (by decide +kernel)

/-! ## Line 0

`prev_cl` starts at 0, the index of line 0, so the loop takes its index for no change. -/

/-- Until the second result is stored the index reads 0 and the loop has not moved. -/
structure ZeroIndex (h : BlockHost) (p : BlockRun) : Prop where
  later : ∀ x ∈ h.taken, ∃ i, x = some (i + 1)
  polling : h.stored ≤ 1 → h.prevCl = 0 ∧ (h.pc = .test ∨ h.pc = .poll ∨ h.pc = .ended)
  index : h.stored ≤ 1 → h.sys.afu.rdCsrs 2 = 0
  latched : h.sys.afu.rspReceived = true → p.lines.length ≤ 1 → h.sys.afu.clBlock = 0

section ZeroIndex
variable {h : BlockHost} {p : BlockRun}

/-- The tag of the response to the first request is 0. -/
theorem WaitInv.tag_zero (hi : WaitInv h p) {w : BlockWires} (hw : WaitProtocol h w) {rsp : ReadRsp}
    (hr : w.readRsp = some rsp) (hl : p.lines.length = 0) : rsp.mdata = 0 := by
  obtain ⟨q, k, _, hq, _, _, hp⟩ := (blockInv_of_reachable hi.reachable).phase.of_response hw.afu (by rw [hr]; rfl)
  have hqp : q = p := Option.some.inj (hq.cur.symm.trans hi.cur)
  subst hqp
  have htag := hw.tag rsp hr q hi.cur
  rw [hl, hp.reads] at htag
  simpa [BlockRun.requests] using htag.symm

theorem ZeroIndex.cycle (hz : ZeroIndex h p) (hi : WaitInv h p) {w : BlockWires} (hw : WaitProtocol h w) :
    ZeroIndex (h.cycle w) (p.observe w (h.sys.afu.step w)) := by
  have hs := hi.stored_eq
  have hs' := (hi.cycle hw).stored_eq
  have hrsp := cycle_rspReceived hw
  have hlines : (p.observe w (h.sys.afu.step w)).lines = p.lines ++ w.readRsp.toList := rfl
  have hstored : (h.cycle w).stored = p.lines.length := by
    rw [hrsp, hlines, List.length_append] at hs'
    cases hr : w.readRsp <;> simp [hr] at hs' <;> omega
  refine ⟨hz.later, ?_, ?_, ?_⟩
  · intro h1
    exact hz.polling (by omega)
  · intro h1
    show h.sys.afu.resultCsrs w 2 = 0
    unfold BlockRead.resultCsrs
    rw [hw.afu.noReset]
    cases hr : h.sys.afu.rspReceived
    · simpa using hz.index (by omega)
    · simp [hz.latched hr (by omega)]
  · intro hr h1
    rw [hrsp] at hr
    obtain ⟨rsp, hr⟩ := Option.isSome_iff_exists.mp hr
    rw [hlines, hr, List.length_append, Option.toList_some, List.length_singleton] at h1
    show (h.sys.afu.readResponse w).clBlock = 0
    simp [BlockRead.readResponse, hw.afu.noReset, hr, hi.tag_zero hw hr (by omega)]

theorem ZeroIndex.read (hz : ZeroIndex h p) : ZeroIndex h.read p := by
  obtain ⟨hlater, hpolling, hindex, hlatched⟩ := hz
  have hmoved : h.pc ≠ .test → h.pc ≠ .poll → h.pc ≠ .ended → 1 < h.stored := by
    intro h1 h2 h3
    by_contra hle
    rcases (hpolling (by omega)).2 with h | h | h
    · exact h1 h
    · exact h2 h
    · exact h3 h
  cases hpc : h.pc with
  | test =>
    rw [read_test hpc]
    refine ⟨hlater, fun h1 => ⟨(hpolling h1).1, ?_⟩, hindex, hlatched⟩
    dsimp only
    split <;> simp
  | poll =>
    rw [read_poll hpc]
    refine ⟨hlater, fun h1 => ⟨(hpolling h1).1, .inl ?_⟩, hindex, hlatched⟩
    have hcsr : h.sys.afu.cpuRdCsrs 2 = 0 := hindex h1
    simp [hcsr, (hpolling h1).1]
  | reread =>
    have hst : 1 < h.stored := hmoved (by rw [hpc]; simp) (by rw [hpc]; simp) (by rw [hpc]; simp)
    rw [read_reread hpc]
    exact ⟨hlater, fun h1 => absurd hst (Nat.not_lt.mpr h1), hindex, hlatched⟩
  | vector =>
    have hst : 1 < h.stored := hmoved (by rw [hpc]; simp) (by rw [hpc]; simp) (by rw [hpc]; simp)
    rw [read_vector hpc]
    refine ⟨?_, fun h1 => absurd hst (Nat.not_lt.mpr h1), hindex, hlatched⟩
    intro x hx
    rcases List.mem_append.mp hx with hx | hx
    · exact hlater x hx
    · rw [if_neg (by omega), List.mem_singleton] at hx
      exact ⟨h.stored - 2, by rw [hx]; congr 1; omega⟩
  | four =>
    have hst : 1 < h.stored := hmoved (by rw [hpc]; simp) (by rw [hpc]; simp) (by rw [hpc]; simp)
    rw [read_four hpc]
    exact ⟨hlater, fun h1 => absurd hst (Nat.not_lt.mpr h1), hindex, hlatched⟩
  | ended =>
    rw [read_ended hpc]
    exact ⟨hlater, hpolling, hindex, hlatched⟩

end ZeroIndex

/-- A loop that starts while the index reads 0, as it does after a reset, never collects its block. -/
theorem line_zero_missed (h : BlockHost) (is : List LoopStep) (h0 : WaitStart h) (hz : h.sys.afu.rdCsrs 2 = 0)
    (ha : blockLoop.Steps blockLoop.permits h is) (hend : (blockLoop.run h is).pc = .ended) :
    ¬ CollectedInOrder (blockLoop.run h is) := by
  obtain ⟨p, hi⟩ := h0.inv
  have hstart : ZeroIndex h p := by
    refine ⟨?_, ?_, fun _ => hz, ?_⟩
    · simp [h0.taken]
    · simp [h0.prevCl, h0.pc]
    · simp [rspReceived_announced h0.reachable h0.announced]
  obtain ⟨q, hi', hz'⟩ := System.run_invariant (P := fun h => ∃ p, WaitInv h p ∧ ZeroIndex h p)
    (fun h i hp hw => by
      obtain ⟨p, hi, hz⟩ := hp
      cases i with
      | cycle w => exact ⟨_, hi.cycle hw, hz.cycle hi hw⟩
      | read => exact ⟨p, hi.pull, hz.read⟩) ⟨p, hi, hstart⟩ ha
  intro hc
  obtain ⟨hwords, hall⟩ := hc.all hend
  obtain ⟨r, l, _, _, hprog, _⟩ := (blockInv_of_reachable hi'.reachable).phase.progress hi'.cur
  have hpos := hprog.pos
  have hcount : (blockLoop.run h is).taken.length = q.cls := by
    rw [← hi'.count, hwords, hall, hi'.cls_eq]
  have hmem : some 0 ∈ (blockLoop.run h is).taken := by
    rw [hc.lines, hcount]
    exact List.mem_map_of_mem (List.mem_range.mpr hpos)
  obtain ⟨i, hx⟩ := hz'.later _ hmem
  cases hx

end SdbFpga.Host
