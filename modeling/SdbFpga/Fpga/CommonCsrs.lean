import SdbFpga.Fpga.CsrMgr
import SdbFpga.Lib.SyncReset
import SdbFpga.Lib.Transition

/-!
# `csr_mgr`: the common CSRs

Beside the MMIO path `csr_mgr` counts the responses and the almost-full cycles it sees, keeps a sticky error flag and
two saturating counters of power events, and shows them in the CSRs below 32 as `CSR_COMMON` of the host library.

* `CsrStats`, `CsrStats.step` : these registers, `CsrStats.common` : the common CSRs;
* `CsrUnit`, `csrUnit` : all of `csr_mgr`, and its runs from power-on;
* `Counter`, `Counter.count` : what each counter is for, `counter_run` : and that it holds it;
* `common_counters`, `fiu_state` : what the host reads.
-/

namespace SdbFpga.Fpga
open Transition SyncReset

universe u

/-! ## The registers -/

/-- `t_ccip_vc`. -/
inductive Vc
  | va
  | vl0
  | vh0
  | vh1
  deriving DecidableEq, Repr

/-- The response side of `t_if_cci_c0_Rx`; `isReadRsp` is `ccip_c0Rx_isReadRsp`. -/
structure C0Rsp where
  isReadRsp : Bool
  hitMiss : Bool
  vcUsed : Vc
  deriving DecidableEq, Repr

/-- The response side of `t_if_cci_c1_Rx`; `isWriteRsp` is `ccip_c1Rx_isWriteRsp`. -/
structure C1Rsp where
  isWriteRsp : Bool
  hitMiss : Bool
  vcUsed : Vc
  format : Bool
  clNum : BitVec 2
  deriving DecidableEq, Repr

/-- The wires of `csr_mgr`. -/
structure CsrWires (τ : Type u) where
  reset : Bool
  mmio : C0Rx τ
  c0Rx : C0Rsp
  c1Rx : C1Rsp
  c0TxAlmFull : Bool
  c1TxAlmFull : Bool
  /-- `pck_cp2af_pwrState` -/
  pwrState : BitVec 2
  /-- `pck_cp2af_error` -/
  error : Bool
  afuC2Tx : C2Tx τ
  afuId : BitVec 128
  cpuRdCsrs : Fin 8 → MmioData

/-- `t_csr_mgr_counter`. -/
abbrev CsrMgrCounter := BitVec 40

/-- The registers off the MMIO path. -/
structure CsrStats where
  c0Rx : C0Rsp
  c1Rx : C1Rsp
  ctrRdCacheHits : CsrMgrCounter
  ctrWrCacheHits : CsrMgrCounter
  rdIsVl0 : Bool
  wrCntVl0 : BitVec 3
  ctrChanVl0Rd : CsrMgrCounter
  ctrChanVl0Wr : CsrMgrCounter
  rdIsVh0 : Bool
  wrCntVh0 : BitVec 3
  ctrChanVh0 : CsrMgrCounter
  rdIsVh1 : Bool
  wrCntVh1 : BitVec 3
  ctrChanVh1 : CsrMgrCounter
  c0TxAlmFull : Bool
  ctrRdAlmFull : CsrMgrCounter
  c1TxAlmFull : Bool
  ctrWrAlmFull : CsrMgrCounter
  errorRaised : Bool
  pwrEventsAp1 : BitVec 16
  pwrEventAp1Active : Bool
  pwrEventsAp2 : BitVec 16
  pwrEventAp2Active : Bool
  deriving DecidableEq, Repr

/-- `rd_is_vl0`, `rd_is_vh0` and `rd_is_vh1`. -/
def C0Rsp.on (c : C0Rsp) (vc : Vc) : Bool := c.isReadRsp && c.vcUsed == vc

/-- `wr_rsp_len`. -/
def C1Rsp.rspLen (c : C1Rsp) : BitVec 3 := 1 + if c.format then c.clNum.setWidth 3 else 0

/-- The next `wr_cnt_vl0_q`, `wr_cnt_vh0_q` and `wr_cnt_vh1_q`. -/
def C1Rsp.cntOn (c : C1Rsp) (vc : Vc) : BitVec 3 := if c.isWriteRsp && c.vcUsed == vc then c.rspLen else 0

/-- `+ t_csr_mgr_counter'(b)`. -/
def ctrOfBool (b : Bool) : CsrMgrCounter := (BitVec.ofBool b).setWidth 40

/-- What a channel that counts reads and writes together adds, three bits wide before it is extended. -/
def chanAmount (q : Bool × BitVec 3) : CsrMgrCounter := ((BitVec.ofBool q.1).setWidth 3 + q.2).setWidth 40

/-- The next count of a power state: it rises where the state is entered and the count is not saturated. -/
def pwrEvents (events : BitVec 16) (entered : Bool) : BitVec 16 :=
  if entered && !(events == BitVec.allOnes 16) then events + 1 else events

variable {τ : Type u}

/-- One clock edge. -/
def CsrStats.step (s : CsrStats) (reset : Bool) (w : CsrWires τ) : CsrStats where
  c0Rx := w.c0Rx
  c1Rx := w.c1Rx
  ctrRdCacheHits :=
    if reset then 0
    else if s.c0Rx.isReadRsp && s.c0Rx.hitMiss then s.ctrRdCacheHits + 1 else s.ctrRdCacheHits
  ctrWrCacheHits :=
    if reset then 0
    else if s.c1Rx.isWriteRsp && s.c1Rx.hitMiss then s.ctrWrCacheHits + s.c1Rx.rspLen.setWidth 40
    else s.ctrWrCacheHits
  rdIsVl0 := if reset then false else s.c0Rx.on .vl0
  wrCntVl0 := if reset then 0 else s.c1Rx.cntOn .vl0
  ctrChanVl0Rd := if reset then 0 else s.ctrChanVl0Rd + ctrOfBool s.rdIsVl0
  ctrChanVl0Wr := if reset then 0 else s.ctrChanVl0Wr + s.wrCntVl0.setWidth 40
  rdIsVh0 := if reset then false else s.c0Rx.on .vh0
  wrCntVh0 := if reset then 0 else s.c1Rx.cntOn .vh0
  ctrChanVh0 := if reset then 0 else s.ctrChanVh0 + chanAmount (s.rdIsVh0, s.wrCntVh0)
  rdIsVh1 := if reset then false else s.c0Rx.on .vh1
  wrCntVh1 := if reset then 0 else s.c1Rx.cntOn .vh1
  ctrChanVh1 := if reset then 0 else s.ctrChanVh1 + chanAmount (s.rdIsVh1, s.wrCntVh1)
  c0TxAlmFull := w.c0TxAlmFull
  ctrRdAlmFull := if reset then 0 else s.ctrRdAlmFull + ctrOfBool s.c0TxAlmFull
  c1TxAlmFull := w.c1TxAlmFull
  ctrWrAlmFull := if reset then 0 else s.ctrWrAlmFull + ctrOfBool s.c1TxAlmFull
  errorRaised := if reset then false else s.errorRaised || w.error
  pwrEventsAp1 := if reset then 0 else pwrEvents s.pwrEventsAp1 (w.pwrState == 1 && !s.pwrEventAp1Active)
  pwrEventAp1Active := w.pwrState == 1
  pwrEventsAp2 := if reset then 0 else pwrEvents s.pwrEventsAp2 (w.pwrState == 3 && !s.pwrEventAp2Active)
  pwrEventAp2Active := w.pwrState == 3

/-! ## The common CSRs -/

/-- `t_csr_common` of the host library. -/
inductive CommonCsr
  | dfh
  | idL
  | idH
  | freq
  | cacheRdHits
  | cacheWrHits
  | vl0RdLines
  | vl0WrLines
  | vh0Lines
  | vh1Lines
  | fiuState
  | rdAlmostFullCycles
  | wrAlmostFullCycles
  deriving DecidableEq, Repr

/-- The enumerators' values. -/
def CommonCsr.toNat : CommonCsr → Nat
  | .dfh => 0
  | .idL => 1
  | .idH => 2
  | .freq => 8
  | .cacheRdHits => 9
  | .cacheWrHits => 10
  | .vl0RdLines => 11
  | .vl0WrLines => 12
  | .vh0Lines => 13
  | .vh1Lines => 14
  | .fiuState => 15
  | .rdAlmostFullCycles => 16
  | .wrAlmostFullCycles => 17

/-- `CSR_COMMON__LAST`. -/
def csrCommonLast : Nat := 18

/-- The request of `readCommonCSR`, which from `CSR_COMMON__LAST` on sends none and returns `~0`. -/
def readCommonCsr (t : τ) (idx : Nat) : Option (C0Rx τ) :=
  if csrCommonLast ≤ idx then none else some ⟨true, false, BitVec.ofNat 16 (2 * idx), t, 0⟩

/-- What the build fixes: `afu_dfh`, the clock frequency, and what an index without a CSR shows. -/
structure Platform where
  dfh : MmioData
  freq : MmioData
  unknown : BitVec 6 → MmioData

/-- The CSRs that `c2Tx.data` shows below the application's. -/
def CsrStats.common (s : CsrStats) (p : Platform) (w : CsrWires τ) (csrIdx : BitVec 6) : MmioData :=
  match csrIdx.toNat with
  | 0 => p.dfh
  | 1 => w.afuId.extractLsb' 0 64
  | 2 => w.afuId.extractLsb' 64 64
  | 3 => 0
  | 4 => 0
  | 8 => p.freq
  | 9 => s.ctrRdCacheHits.setWidth 64
  | 10 => s.ctrWrCacheHits.setWidth 64
  | 11 => s.ctrChanVl0Rd.setWidth 64
  | 12 => s.ctrChanVl0Wr.setWidth 64
  | 13 => s.ctrChanVh0.setWidth 64
  | 14 => s.ctrChanVh1.setWidth 64
  | 15 => s.pwrEventsAp2 ++ s.pwrEventsAp1 ++ (0 : BitVec 29) ++ BitVec.ofBool s.errorRaised ++
      BitVec.ofBool w.c1TxAlmFull ++ BitVec.ofBool w.c0TxAlmFull
  | 16 => s.ctrRdAlmFull.setWidth 64
  | 17 => s.ctrWrAlmFull.setWidth 64
  | _ => p.unknown csrIdx

/-- All of `csr_mgr`. -/
structure CsrUnit (τ : Type u) where
  mgr : CsrMgr τ
  stats : CsrStats

/-- One clock edge. -/
def CsrUnit.step (p : Platform) (m : CsrUnit τ) (w : CsrWires τ) : CsrUnit τ where
  mgr := m.mgr.step w.reset w.mmio w.afuC2Tx w.cpuRdCsrs (m.stats.common p w)
  stats := m.stats.step m.mgr.reset w

/-- The runs from power-on: `reset` is high, every other register arbitrary. -/
def csrUnit (p : Platform) : System (CsrUnit τ) (CsrWires τ) where
  init := fun m => m.mgr.reset = true
  permits := fun _ _ => True
  step := CsrUnit.step p

/-! ## What the counters are for -/

/-- The counters that the host can read. -/
inductive Counter
  | rdCacheHits
  | wrCacheHits
  | chanVl0Rd
  | chanVl0Wr
  | chanVh0
  | chanVh1
  | rdAlmFull
  | wrAlmFull
  deriving DecidableEq, Repr

/-- Its register. -/
def CsrStats.counter (s : CsrStats) : Counter → CsrMgrCounter
  | .rdCacheHits => s.ctrRdCacheHits
  | .wrCacheHits => s.ctrWrCacheHits
  | .chanVl0Rd => s.ctrChanVl0Rd
  | .chanVl0Wr => s.ctrChanVl0Wr
  | .chanVh0 => s.ctrChanVh0
  | .chanVh1 => s.ctrChanVh1
  | .rdAlmFull => s.ctrRdAlmFull
  | .wrAlmFull => s.ctrWrAlmFull

/-- Its CSR. -/
def Counter.csr : Counter → CommonCsr
  | .rdCacheHits => .cacheRdHits
  | .wrCacheHits => .cacheWrHits
  | .chanVl0Rd => .vl0RdLines
  | .chanVl0Wr => .vl0WrLines
  | .chanVh0 => .vh0Lines
  | .chanVh1 => .vh1Lines
  | .rdAlmFull => .rdAlmostFullCycles
  | .wrAlmFull => .wrAlmostFullCycles

/-- The lines that a write response acknowledges: several only in a packed one. -/
def C1Rsp.lines (c : C1Rsp) : Nat := if c.format then c.clNum.toNat + 1 else 1

/-- The lines written over a channel. -/
def C1Rsp.linesOn (c : C1Rsp) (vc : Vc) : Nat := if c.isWriteRsp ∧ c.vcUsed = vc then c.lines else 0

/-- What one cycle is worth. -/
def Counter.events (k : Counter) (w : CsrWires τ) : Nat :=
  match k with
  | .rdCacheHits => (w.c0Rx.isReadRsp && w.c0Rx.hitMiss).toNat
  | .wrCacheHits => if w.c1Rx.isWriteRsp && w.c1Rx.hitMiss then w.c1Rx.lines else 0
  | .chanVl0Rd => (w.c0Rx.on .vl0).toNat
  | .chanVl0Wr => w.c1Rx.linesOn .vl0
  | .chanVh0 => (w.c0Rx.on .vh0).toNat + w.c1Rx.linesOn .vh0
  | .chanVh1 => (w.c0Rx.on .vh1).toNat + w.c1Rx.linesOn .vh1
  | .rdAlmFull => w.c0TxAlmFull.toNat
  | .wrAlmFull => w.c1TxAlmFull.toNat

/-- The counters of a channel lag one cycle behind the others. -/
def Counter.late : Counter → Bool
  | .chanVl0Rd | .chanVl0Wr | .chanVh0 | .chanVh1 => true
  | .rdCacheHits | .wrCacheHits | .rdAlmFull | .wrAlmFull => false

/-- What the counter has seen after the cycles `ws`. -/
def Counter.count (k : Counter) (ws : List (CsrWires τ)) : Nat :=
  let since := sinceReset CsrWires.reset ws
  ((if k.late then since.dropLast else since).map k.events).sum

theorem toNat_rspLen (c : C1Rsp) : c.rspLen.toNat = c.lines := by
  have hlt := c.clNum.isLt
  unfold C1Rsp.rspLen C1Rsp.lines
  cases c.format
  · rfl
  · simp only [if_true, BitVec.toNat_add, BitVec.toNat_setWidth]
    simp
    omega

theorem toNat_cntOn (c : C1Rsp) (vc : Vc) : (c.cntOn vc).toNat = c.linesOn vc := by
  unfold C1Rsp.cntOn C1Rsp.linesOn
  simp only [Bool.and_eq_true, beq_iff_eq]
  split
  · exact toNat_rspLen c
  · rfl

theorem linesOn_le (c : C1Rsp) (vc : Vc) : c.linesOn vc ≤ 4 := by
  have hlt := c.clNum.isLt
  unfold C1Rsp.linesOn C1Rsp.lines
  split
  · split <;> omega
  · omega

theorem toNat_ctrOfBool (b : Bool) : (ctrOfBool b).toNat = b.toNat := by cases b <;> rfl

theorem ctrOfBool_eq (b : Bool) : ctrOfBool b = BitVec.ofNat 40 b.toNat := by cases b <;> rfl

/-- The sum of a channel fits in its three bits. -/
theorem toNat_chanAmount (b : Bool) (c : C1Rsp) (vc : Vc) :
    (chanAmount (b, c.cntOn vc)).toNat = b.toNat + c.linesOn vc := by
  have hle := linesOn_le c vc
  unfold chanAmount
  simp only [BitVec.toNat_setWidth, BitVec.toNat_add, toNat_cntOn, BitVec.toNat_ofBool]
  have hb := Bool.toNat_le b
  omega

/-! ## The counters over a run -/

section Runs
variable {p : Platform} {u : CsrUnit τ}

theorem reset_run (ws : List (CsrWires τ)) (w : CsrWires τ) :
    ((csrUnit p).run u (ws ++ [w])).mgr.reset = w.reset := by
  rw [System.run_concat]
  rfl

theorem stats_run (ws : List (CsrWires τ)) (w w' : CsrWires τ) : ((csrUnit p).run u (ws ++ [w, w'])).stats =
    ((csrUnit p).run u (ws ++ [w])).stats.step w.reset w' := by
  rw [show ws ++ [w, w'] = ws ++ [w] ++ [w'] by simp, System.run_concat, ← reset_run (p := p) (u := u) ws w]
  rfl

theorem stats_run_one (hu : u.mgr.reset = true) (w : CsrWires τ) :
    ((csrUnit p).run u [w]).stats = u.stats.step true w := by
  rw [← hu]
  rfl

/-- What a register that the reset clears holds after a run. -/
theorem register_run {β : Type*} (hu : u.mgr.reset = true) (reg : CsrStats → β) {init : β}
    {f : β → CsrWires τ × CsrWires τ → β} (hreset : ∀ (s : CsrStats) (w : CsrWires τ), reg (s.step true w) = init)
    (hstep : ∀ (m : CsrUnit τ) (w w' : CsrWires τ),
      reg ((m.step p w).stats.step false w') = f (reg (m.step p w).stats) (w, w'))
    (ws : List (CsrWires τ)) (w : CsrWires τ) : reg ((csrUnit p).run u (ws ++ [w])).stats =
      (window CsrWires.reset (ws ++ [w])).foldl f init := by
  refine value_eq_foldl CsrWires.reset (fun ws => reg ((csrUnit p).run u ws).stats) ?_ ?_ ws w
  · intro w
    rw [stats_run_one hu, hreset]
  · intro ws w w'
    rw [stats_run]
    cases w.reset
    · rw [System.run_concat, if_neg Bool.false_ne_true]
      exact hstep _ w w'
    · exact hreset _ w'

/-- A counter that adds at once. -/
theorem counter_now (hu : u.mgr.reset = true) (reg : CsrStats → CsrMgrCounter) {e : CsrWires τ → Nat}
    (hreset : ∀ (s : CsrStats) (w : CsrWires τ), reg (s.step true w) = 0)
    (hstep : ∀ (m : CsrUnit τ) (w w' : CsrWires τ),
      reg ((m.step p w).stats.step false w') = reg (m.step p w).stats + BitVec.ofNat 40 (e w))
    (ws : List (CsrWires τ)) (w : CsrWires τ) : reg ((csrUnit p).run u (ws ++ [w])).stats =
      BitVec.ofNat 40 ((sinceReset CsrWires.reset ws).map e).sum := by
  rw [register_run (f := fun c q => c + BitVec.ofNat 40 (e q.1)) hu reg hreset hstep, ← map_fst_window _ ws w,
    ← foldl_counter, List.foldl_map]

/-- A counter that adds one cycle late. -/
theorem counter_late {γ : Type*} (hu : u.mgr.reset = true) (reg : CsrStats → γ × CsrMgrCounter) (q₀ : γ)
    (next : CsrWires τ → γ) (amount : γ → CsrMgrCounter) {e : CsrWires τ → Nat}
    (hreset : ∀ (s : CsrStats) (w : CsrWires τ), reg (s.step true w) = (q₀, 0))
    (hstep : ∀ (m : CsrUnit τ) (w w' : CsrWires τ), reg ((m.step p w).stats.step false w') =
      (next w, (reg (m.step p w).stats).2 + amount (reg (m.step p w).stats).1))
    (hq₀ : amount q₀ = 0) (he : ∀ w, (amount (next w)).toNat = e w)
    (ws : List (CsrWires τ)) (w : CsrWires τ) : (reg ((csrUnit p).run u (ws ++ [w])).stats).2 =
      BitVec.ofNat 40 ((sinceReset CsrWires.reset ws).dropLast.map e).sum := by
  rw [register_run (f := fun c q => (next q.1, c.2 + amount c.1)) hu reg hreset hstep, ← map_fst_window _ ws w,
    ← funext he, ← foldl_delayed next hq₀, List.foldl_map]

/-- Every counter holds what it is for. -/
theorem counter_run (hu : u.mgr.reset = true) (k : Counter) (ws : List (CsrWires τ)) (w : CsrWires τ) :
    ((csrUnit p).run u (ws ++ [w])).stats.counter k = BitVec.ofNat 40 (k.count ws) := by
  cases k with
  | rdCacheHits =>
    refine counter_now hu CsrStats.ctrRdCacheHits (fun _ _ => rfl) (fun m w w' => ?_) ws w
    show (if w.c0Rx.isReadRsp && w.c0Rx.hitMiss then _ + 1 else _) = _ + BitVec.ofNat 40 (Bool.toNat _)
    cases w.c0Rx.isReadRsp && w.c0Rx.hitMiss <;> simp
  | wrCacheHits =>
    refine counter_now hu CsrStats.ctrWrCacheHits (fun _ _ => rfl) (fun m w w' => ?_) ws w
    show (if w.c1Rx.isWriteRsp && w.c1Rx.hitMiss then _ + w.c1Rx.rspLen.setWidth 40 else _) =
      _ + BitVec.ofNat 40 (if w.c1Rx.isWriteRsp && w.c1Rx.hitMiss then w.c1Rx.lines else 0)
    split
    · rw [← toNat_rspLen, BitVec.ofNat_toNat]
    · simp
  | chanVl0Rd =>
    exact counter_late hu (fun s => (s.rdIsVl0, s.ctrChanVl0Rd)) false (fun w => w.c0Rx.on .vl0) ctrOfBool
      (fun _ _ => rfl) (fun _ _ _ => rfl) rfl (fun w => toNat_ctrOfBool (w.c0Rx.on .vl0)) ws w
  | chanVl0Wr =>
    refine counter_late hu (fun s => (s.wrCntVl0, s.ctrChanVl0Wr)) 0 (fun w => w.c1Rx.cntOn .vl0)
      (BitVec.setWidth 40) (fun _ _ => rfl) (fun _ _ _ => rfl) rfl (fun w => ?_) ws w
    rw [BitVec.toNat_setWidth_of_le (by decide)]
    exact toNat_cntOn w.c1Rx .vl0
  | chanVh0 =>
    exact counter_late hu (fun s => ((s.rdIsVh0, s.wrCntVh0), s.ctrChanVh0)) (false, 0)
      (fun w => (w.c0Rx.on .vh0, w.c1Rx.cntOn .vh0)) chanAmount (fun _ _ => rfl) (fun _ _ _ => rfl) rfl
      (fun w => toNat_chanAmount (w.c0Rx.on .vh0) w.c1Rx .vh0) ws w
  | chanVh1 =>
    exact counter_late hu (fun s => ((s.rdIsVh1, s.wrCntVh1), s.ctrChanVh1)) (false, 0)
      (fun w => (w.c0Rx.on .vh1, w.c1Rx.cntOn .vh1)) chanAmount (fun _ _ => rfl) (fun _ _ _ => rfl) rfl
      (fun w => toNat_chanAmount (w.c0Rx.on .vh1) w.c1Rx .vh1) ws w
  | rdAlmFull =>
    refine counter_now hu CsrStats.ctrRdAlmFull (fun _ _ => rfl) (fun m w w' => ?_) ws w
    exact congrArg (_ + ·) (ctrOfBool_eq w.c0TxAlmFull)
  | wrAlmFull =>
    refine counter_now hu CsrStats.ctrWrAlmFull (fun _ _ => rfl) (fun m w w' => ?_) ws w
    exact congrArg (_ + ·) (ctrOfBool_eq w.c1TxAlmFull)

end Runs

/-! ## What the host reads -/

section Reads
variable {p : Platform} {u : CsrUnit τ} {t : τ} {idx : Nat} {c : C0Rx τ}

/-- The request of `readCommonCSR` reaches its CSR. -/
theorem readCommonCsr_spec (h : readCommonCsr t idx = some c) :
    c.isCsrRead = true ∧ c.tid = t ∧ c.csrIdx.toNat = idx ∧ idx < 18 := by
  unfold readCommonCsr at h
  split at h
  · cases h
  · next hlt =>
    rw [csrCommonLast, Nat.not_le] at hlt
    cases h
    refine ⟨?_, rfl, ?_, hlt⟩
    · simp [C0Rx.isCsrRead, C0Rx.addrValid, maxCsrIdx, numAppCsrs]
      omega
    · simp [C0Rx.csrIdx]
      omega

/-- A common CSR is sampled in the cycle after the request and shown two cycles after that. -/
theorem run_read {w w₁ w₂ : CsrWires τ} (hread : readCommonCsr t idx = some w.mmio) (hreset : w.reset = false)
    (ws : List (CsrWires τ)) : ((csrUnit p).run u (ws ++ [w, w₁, w₂])).mgr.fiuC2Tx =
      ⟨true, t, ((csrUnit p).run u (ws ++ [w])).stats.common p w₁ w.mmio.csrIdx⟩ := by
  obtain ⟨hvalid, htid, hidx, hlt⟩ := readCommonCsr_spec hread
  have hrun : (csrUnit p).run u (ws ++ [w, w₁, w₂]) =
      CsrUnit.step p (CsrUnit.step p ((csrUnit p).run u (ws ++ [w])) w₁) w₂ := by
    rw [show ws ++ [w, w₁, w₂] = ws ++ [w] ++ [w₁] ++ [w₂] by simp, System.run_concat, System.run_concat]
    rfl
  have hmmio : ((csrUnit p).run u (ws ++ [w])).mgr.c0Rx = w.mmio := by
    rw [System.run_concat]
    rfl
  have hc2 : (CsrUnit.step p ((csrUnit p).run u (ws ++ [w])) w₁).mgr.c2Tx =
      ⟨true, t, ((csrUnit p).run u (ws ++ [w])).stats.common p w₁ w.mmio.csrIdx⟩ := by
    simp only [CsrUnit.step, CsrMgr.step, hmmio, reset_run, hvalid, hreset, htid, readData]
    rw [dif_neg (by omega)]
    rfl
  rw [hrun]
  show (if (CsrUnit.step p _ w₁).mgr.c2Tx.mmioRdValid then (CsrUnit.step p _ w₁).mgr.c2Tx else _) = _
  rw [hc2]
  rfl

theorem common_counter (s : CsrStats) (k : Counter) (w : CsrWires τ) {i : BitVec 6} (hi : i.toNat = k.csr.toNat) :
    s.common p w i = (s.counter k).setWidth 64 := by
  unfold CsrStats.common
  rw [hi]
  cases k <;> rfl

/-- Whatever came before, on whatever reset pattern, a counter that the host reads has counted every cycle since the
last one of reset and before the request, modulo `2 ^ 40`; a channel's misses the last of them. -/
theorem common_counters (hu : u.mgr.reset = true) (k : Counter) (ws : List (CsrWires τ)) {w w₁ w₂ : CsrWires τ}
    (hread : readCommonCsr t k.csr.toNat = some w.mmio) (hreset : w.reset = false) :
    ((csrUnit p).run u (ws ++ [w, w₁, w₂])).mgr.fiuC2Tx =
      ⟨true, t, BitVec.ofNat 64 (k.count ws % 2 ^ 40)⟩ := by
  obtain ⟨_, _, hidx, _⟩ := readCommonCsr_spec hread
  rw [run_read hread hreset, common_counter _ k w₁ hidx, counter_run hu]
  congr 1
  apply BitVec.eq_of_toNat_eq
  simp

/-- Power-on garbage, then a cycle of reset and two cycles of traffic. -/
def powerOnUnit : CsrUnit Nat where
  mgr := ⟨true, .none 0, ⟨true, 0, 77⟩, ⟨true, 0, 77⟩, fun _ => ⟨0, false⟩⟩
  stats :=
    ⟨⟨true, true, .vh0⟩, ⟨true, true, .vh0, true, 3⟩, 7, 7, true, 7, 7, 7, true, 7, 7, true, 7, 7, true, 7, true, 7,
      true, 7, false, 7, true⟩

/-- A cycle with a request, a read response and a packed write response of four lines on `VH0`. -/
def trafficCycle (mmio : C0Rx Nat) (reset : Bool) (pwrState : BitVec 2) : CsrWires Nat where
  reset := reset
  mmio := mmio
  c0Rx := ⟨true, false, .vh0⟩
  c1Rx := ⟨true, true, .vh0, true, 3⟩
  c0TxAlmFull := false
  c1TxAlmFull := true
  pwrState := pwrState
  error := true
  afuC2Tx := ⟨false, 0, 0⟩
  afuId := 0
  cpuRdCsrs := fun _ => 0

/-- A build at 200 MHz with no further feature. -/
def platform200 : Platform := ⟨0x1000010000000000, 200, fun _ => 0⟩

/-- The request of `readCommonCSR(idx)` under transaction 5. -/
def commonRead (idx : Nat) : C0Rx Nat := ⟨true, false, BitVec.ofNat 16 (2 * idx), 5, 0⟩

theorem common_counters_traffic :
    ((csrUnit platform200).run powerOnUnit
      ([trafficCycle (.none 0) true 0, trafficCycle (.none 0) false 1, trafficCycle (.none 0) false 0] ++
        [trafficCycle (commonRead 13) false 0, trafficCycle (.none 0) false 0,
          trafficCycle (.none 0) true 0])).mgr.fiuC2Tx = ⟨true, 5, 5⟩ :=
  common_counters rfl .chanVh0 _ rfl rfl

/-! ### The FIU state -/

/-- The cycle after the first one enters a power state. -/
def entered (state : BitVec 2) (q : CsrWires τ × CsrWires τ) : Bool :=
  q.2.pwrState == state && !(q.1.pwrState == state)

theorem errorRaised_run (hu : u.mgr.reset = true) (ws : List (CsrWires τ)) (w : CsrWires τ) :
    ((csrUnit p).run u (ws ++ [w])).stats.errorRaised =
      (window CsrWires.reset (ws ++ [w])).any fun q => q.2.error := by
  rw [register_run (f := fun b q => b || q.2.error) hu CsrStats.errorRaised (fun _ _ => rfl) (fun _ _ _ => rfl)]
  exact foldl_sticky (fun q : _ × CsrWires τ => q.2.error) _

theorem pwrEventsAp1_run (hu : u.mgr.reset = true) (ws : List (CsrWires τ)) (w : CsrWires τ) :
    ((csrUnit p).run u (ws ++ [w])).stats.pwrEventsAp1 =
      BitVec.ofNat 16 (min 65535 ((window CsrWires.reset (ws ++ [w])).countP (entered 1))) := by
  rw [register_run (f := fun c q => pwrEvents c (entered 1 q)) hu CsrStats.pwrEventsAp1 (fun _ _ => rfl)
    (fun _ _ _ => rfl)]
  exact foldl_saturating (entered 1) _

theorem pwrEventsAp2_run (hu : u.mgr.reset = true) (ws : List (CsrWires τ)) (w : CsrWires τ) :
    ((csrUnit p).run u (ws ++ [w])).stats.pwrEventsAp2 =
      BitVec.ofNat 16 (min 65535 ((window CsrWires.reset (ws ++ [w])).countP (entered 3))) := by
  rw [register_run (f := fun c q => pwrEvents c (entered 3 q)) hu CsrStats.pwrEventsAp2 (fun _ _ => rfl)
    (fun _ _ _ => rfl)]
  exact foldl_saturating (entered 3) _

/-- The FIU state shows how often each power state was entered since the last cycle of reset, up to saturation,
whether an error was raised, and the two almost-full wires of the cycle after the request. -/
theorem fiu_state (hu : u.mgr.reset = true) (ws : List (CsrWires τ)) {w w₁ w₂ : CsrWires τ}
    (hread : readCommonCsr t CommonCsr.fiuState.toNat = some w.mmio) (hreset : w.reset = false) :
    ((csrUnit p).run u (ws ++ [w, w₁, w₂])).mgr.fiuC2Tx =
      let since := window CsrWires.reset (ws ++ [w])
      ⟨true, t, BitVec.ofNat 16 (min 65535 (since.countP (entered 3))) ++
        BitVec.ofNat 16 (min 65535 (since.countP (entered 1))) ++ (0 : BitVec 29) ++
        BitVec.ofBool (since.any fun q => q.2.error) ++ BitVec.ofBool w₁.c1TxAlmFull ++
        BitVec.ofBool w₁.c0TxAlmFull⟩ := by
  obtain ⟨_, _, hidx, _⟩ := readCommonCsr_spec hread
  rw [run_read hread hreset]
  unfold CsrStats.common
  rw [hidx, errorRaised_run hu, pwrEventsAp1_run hu, pwrEventsAp2_run hu]
  rfl

theorem fiu_state_traffic :
    ((csrUnit platform200).run powerOnUnit
      ([trafficCycle (.none 0) true 0, trafficCycle (.none 0) false 1, trafficCycle (.none 0) false 0] ++
        [trafficCycle (commonRead 15) false 1, trafficCycle (.none 0) false 0,
          trafficCycle (.none 0) true 0])).mgr.fiuC2Tx = ⟨true, 5, 0x100000006⟩ :=
  fiu_state rfl _ rfl rfl

end Reads

end SdbFpga.Fpga
