import SdbFpga.Fpga.ScanAfu

/-!
# `csr_mgr`: the MMIO pipeline

A host request is registered (`c0Rx`), then decoded: a write raises one `cpu_wr_csrs[i].en` for one cycle, a read
samples `cpu_rd_csrs` into `c2Tx`, which is forwarded to `fiu.c2Tx` one cycle later. The transaction id of a read is
only echoed, so its type is a parameter.

* `C0Rx`, `C2Tx` : the MMIO side of the two channels;
* `CsrMgr.step` : one clock edge; `strobes` : the decoder of the write path;
* `strobes_write`, `readData_read` : what a request for application CSR `k` does.
-/

namespace SdbFpga.Fpga

universe u

/-- `NUM_APP_CSRS` and `MAX_CSR_IDX`. -/
def numAppCsrs : Nat := 8
def maxCsrIdx : Nat := 32 + numAppCsrs

/-- The MMIO fields of `t_if_cci_c0_Rx`; addresses count 32-bit words. -/
structure C0Rx (τ : Type u) where
  mmioRdValid : Bool
  mmioWrValid : Bool
  addr : BitVec 16
  tid : τ
  data : MmioData
  deriving DecidableEq, Repr

/-- `t_if_ccip_c2_Tx`. -/
structure C2Tx (τ : Type u) where
  mmioRdValid : Bool
  tid : τ
  data : MmioData
  deriving DecidableEq, Repr

/-- The registers of `csr_mgr` on the MMIO path; `fiuC2Tx` is its registered output. -/
structure CsrMgr (τ : Type u) where
  reset : Bool
  c0Rx : C0Rx τ
  c2Tx : C2Tx τ
  fiuC2Tx : C2Tx τ
  cpuWrCsrs : Fin 8 → WrCsr

variable {τ : Type u}

/-- `mmio_req_addr_valid`. -/
def C0Rx.addrValid (c : C0Rx τ) : Bool := c.addr.toNat < 2 * maxCsrIdx

/-- `csr_idx`: the six address bits above the word bit. -/
def C0Rx.csrIdx (c : C0Rx τ) : BitVec 6 := c.addr.extractLsb' 1 6

/-- `is_csr_read`. -/
def C0Rx.isCsrRead (c : C0Rx τ) : Bool := c.mmioRdValid && c.addrValid

/-- `is_csr_write`. -/
def C0Rx.isCsrWrite (c : C0Rx τ) : Bool := c.mmioWrValid && c.addrValid

/-- The next `cpu_wr_csrs`: data to all, `en` where the index matches. -/
def strobes (c : C0Rx τ) (i : Fin 8) : WrCsr where
  data := c.data
  en := BitVec.ofNat 6 (i + 32) == c.csrIdx && c.isCsrWrite

/-- The next `c2Tx.data`: an application CSR, else one of the common ones. -/
def readData (c : C0Rx τ) (cpuRdCsrs : Fin 8 → MmioData) (common : BitVec 6 → MmioData) : MmioData :=
  if h : 32 ≤ c.csrIdx.toNat ∧ c.csrIdx.toNat < 40 then cpuRdCsrs ⟨c.csrIdx.toNat - 32, by omega⟩
  else common c.csrIdx

/-- One clock edge, under the wires from the host, from the AFU and the values of the common CSRs. -/
def CsrMgr.step (m : CsrMgr τ) (fiuReset : Bool) (fiuC0Rx : C0Rx τ) (afuC2Tx : C2Tx τ)
    (cpuRdCsrs : Fin 8 → MmioData) (common : BitVec 6 → MmioData) : CsrMgr τ where
  reset := fiuReset
  c0Rx := fiuC0Rx
  c2Tx := ⟨m.c0Rx.isCsrRead && !m.reset, m.c0Rx.tid, readData m.c0Rx cpuRdCsrs common⟩
  fiuC2Tx := if m.c2Tx.mmioRdValid then m.c2Tx else afuC2Tx
  cpuWrCsrs := strobes m.c0Rx

/-! ## Requests of the host library -/

/-- `writeCSR(idx, v)`: byte address `8 * (USER_CSR_BASE + idx)`. -/
def C0Rx.writeCsr (t : τ) (k : Fin 8) (v : MmioData) : C0Rx τ := ⟨false, true, BitVec.ofNat 16 (2 * (32 + k)), t, v⟩

/-- `readCSR(idx)`. -/
def C0Rx.readCsr (t : τ) (k : Fin 8) : C0Rx τ := ⟨true, false, BitVec.ofNat 16 (2 * (32 + k)), t, 0⟩

/-- No request. -/
def C0Rx.none (t : τ) : C0Rx τ := ⟨false, false, 0, t, 0⟩

theorem csrIdx_writeCsr (t : τ) (k : Fin 8) (v : MmioData) :
    (C0Rx.writeCsr t k v).csrIdx = BitVec.ofNat 6 (k + 32) := by
  have h : ∀ k : Fin 8, (BitVec.ofNat 16 (2 * (32 + k.val))).extractLsb' 1 6 = BitVec.ofNat 6 (k + 32) := by decide
  exact h k

theorem addrValid_writeCsr (t : τ) (k : Fin 8) (v : MmioData) : (C0Rx.writeCsr t k v).addrValid = true := by
  have h : ∀ k : Fin 8, decide ((BitVec.ofNat 16 (2 * (32 + k.val))).toNat < 2 * maxCsrIdx) = true := by decide
  exact h k

theorem strobes_write (t : τ) (k : Fin 8) (v : MmioData) : strobes (.writeCsr t k v) = fun i => ⟨v, i = k⟩ := by
  funext i
  have hidx : (BitVec.ofNat 6 (i.val + 32) == BitVec.ofNat 6 (k.val + 32)) = decide (i = k) := by
    revert i k
    decide
  rw [strobes, C0Rx.isCsrWrite, csrIdx_writeCsr, addrValid_writeCsr, hidx]
  simp [C0Rx.writeCsr]

theorem strobes_of_no_write {c : C0Rx τ} (h : c.mmioWrValid = false) (i : Fin 8) : (strobes c i).en = false := by
  simp [strobes, C0Rx.isCsrWrite, h]

theorem isCsrRead_of_no_read {c : C0Rx τ} (h : c.mmioRdValid = false) : c.isCsrRead = false := by
  simp [C0Rx.isCsrRead, h]

theorem readData_read (t : τ) (k : Fin 8) (rd : Fin 8 → MmioData) (common : BitVec 6 → MmioData) :
    readData (.readCsr t k) rd common = rd k := by
  have hidx : (C0Rx.readCsr t k).csrIdx.toNat = k + 32 := by
    have h := congrArg BitVec.toNat (csrIdx_writeCsr t k 0)
    rw [BitVec.toNat_ofNat] at h
    exact h.trans (Nat.mod_eq_of_lt (by omega))
  unfold readData
  rw [dif_pos (by rw [hidx]; omega)]
  congr 1
  apply Fin.ext
  simp only [hidx]
  omega

end SdbFpga.Fpga
