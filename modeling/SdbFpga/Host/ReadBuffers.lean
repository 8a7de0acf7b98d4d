import Mathlib.Logic.Function.Basic

/-!
# The read buffers of a job: `prepareInputBuffersForFPGA`

* `allocBuffer`, `FPGAHandler.prepareReadBuffer`, `FPGAHandler.prepareInputBuffersForFPGA` : the code, with the answers
  of the driver as a parameter;
* `preparePartition_eq_some` : what one partition does, `preparePartition_stale` : also after a failed allocation;
* `Counted`, `Filled` : what is known after some partitions, in general and when no allocation failed;
* `buffersReady_iff` : when every partition finds its page.
-/

namespace SdbFpga.Host

/-- What the driver answers to the calls of one `allocBuffer`. -/
structure Response where
  /-- `mpfVtpBufferAllocate`, `fpgaPrepareBuffer` return `FPGA_OK` -/
  allocated : Bool
  /-- `mpfVtpGetIOAddress`, `fpgaGetIOAddress`; `none` when there is no address -/
  ioAddress : Option (BitVec 64)

/-- `FPGAHandler` and its `AFU_HANDLER`. A buffer is named by the allocation that made it, so buffers do not overlap. -/
structure FPGAHandler (α : Type*) where
  readBuffPa : BitVec 64
  readBuffers : Nat → List (Option Nat)
  nextBuffer : Nat
  content : Nat → α

/-- What `prepareInputBuffersForFPGA` reads of a `JobWrapper`. -/
structure InputJob (α : Type*) where
  jobType : Nat
  totalPartitions : Nat
  partData : Nat → α

/-- The buffer, `none` for `NULL`, and what is in `*ioAddress` afterwards. -/
def allocBuffer (vtpIsAvailable : Bool) (r : Response) (va : Nat) (ioAddress : BitVec 64) :
    Option Nat × BitVec 64 :=
  if vtpIsAvailable then
    if r.allocated then (some va, r.ioAddress.getD 0#64) else (none, ioAddress)
  else
    if r.allocated then
      match r.ioAddress with
      | some pa => (some va, pa)
      | none => (none, ioAddress)
    else (none, ioAddress)

section Code
variable {α : Type*} (vtpIsAvailable : Bool)
  -- what a copy to `NULL` does to the buffers, `none` for a fault
  (copyToNull : (Nat → α) → Option (Nat → α))

def memcpy (content : Nat → α) (buff : Option Nat) (block : α) : Option (Nat → α) :=
  match buff with
  | some va => some (Function.update content va block)
  | none => copyToNull content

/-- The buffer, and whether it is reported as good. -/
def FPGAHandler.prepareReadBuffer (h : FPGAHandler α) (r : Response) (block : α) :
    Option (FPGAHandler α × Option Nat × Bool) :=
  let (buff, pa) := allocBuffer vtpIsAvailable r h.nextBuffer h.readBuffPa
  (memcpy copyToNull h.content buff block).map fun content =>
    ({ h with readBuffPa := pa, nextBuffer := h.nextBuffer + 1, content := content }, buff, !decide (pa = 0#64))

def FPGAHandler.pushReadBuffer (h : FPGAHandler α) (jobId : Nat) (readBuff : Option Nat) : FPGAHandler α :=
  { h with readBuffers := Function.update h.readBuffers jobId (h.readBuffers jobId ++ [readBuff]) }

/-- One round of the loop; beside the handler, the partitions that were taken as prepared. -/
def preparePartition (job : InputJob α) (responses : Nat → Response) (s : FPGAHandler α × List Nat) (partId : Nat) :
    Option (FPGAHandler α × List Nat) :=
  (s.1.prepareReadBuffer vtpIsAvailable copyToNull (responses partId) (job.partData partId)).map
    fun (h, readBuff, isOK) =>
      if isOK then (h.pushReadBuffer job.jobType readBuff, s.2 ++ [partId]) else (h, s.2)

/-- `none` when a copy faults. -/
def FPGAHandler.prepareInputBuffersForFPGA (h : FPGAHandler α) (job : InputJob α) (responses : Nat → Response) :
    Option (FPGAHandler α × List Nat) :=
  (List.range job.totalPartitions).foldlM (preparePartition vtpIsAvailable copyToNull job responses) (h, [])

end Code

/-- `read_buffers[jobType][partId]` is a buffer that holds the page of the partition. -/
def FPGAHandler.Fetches {α : Type*} (h : FPGAHandler α) (job : InputJob α) (partId : Nat) : Prop :=
  ∃ va, (h.readBuffers job.jobType)[partId]? = some (some va) ∧ h.content va = job.partData partId

/-- The allocation gives a buffer with an I/O address other than 0. -/
def Response.Succeeds (r : Response) : Prop := r.allocated = true ∧ ∃ pa, r.ioAddress = some pa ∧ pa ≠ 0#64

/-- The preparation returns, `scanAtATime` fetches the page of every partition, and no partition whose allocation
failed was taken as prepared. -/
def BuffersReady {α : Type*} (job : InputJob α) (responses : Nat → Response)
    (result : Option (FPGAHandler α × List Nat)) : Prop :=
  ∃ s, result = some s ∧ (∀ partId < job.totalPartitions, s.1.Fetches job partId) ∧
    ∀ partId ∈ s.2, (responses partId).Succeeds

/-! ## One partition -/

section Step
variable {α : Type*} {vtpIsAvailable : Bool} {copyToNull : (Nat → α) → Option (Nat → α)}

/-- A buffer comes with the address that was asked for. -/
theorem succeeds_iff (vtpIsAvailable : Bool) (r : Response) (va : Nat) (pa : BitVec 64) :
    r.Succeeds ↔ (allocBuffer vtpIsAvailable r va pa).1 ≠ none ∧ (allocBuffer vtpIsAvailable r va pa).2 ≠ 0#64 := by
  obtain ⟨allocated, ioAddress⟩ := r
  unfold Response.Succeeds allocBuffer
  cases vtpIsAvailable <;> cases allocated <;> cases ioAddress <;> simp

theorem Response.Succeeds.allocBuffer_eq {r : Response} (h : r.Succeeds) (vtpIsAvailable : Bool) (va : Nat)
    (pa : BitVec 64) : (allocBuffer vtpIsAvailable r va pa).1 = some va := by
  obtain ⟨hallocated, ioAddress, hio, -⟩ := h
  unfold allocBuffer
  cases vtpIsAvailable <;> simp [hallocated, hio]

variable {job : InputJob α} {responses : Nat → Response} {s s' : FPGAHandler α × List Nat} {partId : Nat}

/-- All that one round does: the address is asked for, the page is copied, and the buffer is appended unless the
address is 0. -/
theorem preparePartition_eq_some
    (h : preparePartition vtpIsAvailable copyToNull job responses s partId = some s') :
    ∃ buff pa content, allocBuffer vtpIsAvailable (responses partId) s.1.nextBuffer s.1.readBuffPa = (buff, pa) ∧
      memcpy copyToNull s.1.content buff (job.partData partId) = some content ∧
      s'.1.readBuffPa = pa ∧ s'.1.nextBuffer = s.1.nextBuffer + 1 ∧ s'.1.content = content ∧
      (pa = 0#64 ∧ s'.1.readBuffers job.jobType = s.1.readBuffers job.jobType ∧ s'.2 = s.2 ∨
        pa ≠ 0#64 ∧ s'.1.readBuffers job.jobType = s.1.readBuffers job.jobType ++ [buff] ∧ s'.2 = s.2 ++ [partId]) := by
  unfold preparePartition FPGAHandler.prepareReadBuffer at h
  rcases hbuff : allocBuffer vtpIsAvailable (responses partId) s.1.nextBuffer s.1.readBuffPa with ⟨buff, pa⟩
  rw [hbuff] at h
  simp only [Option.map_map, Option.map_eq_some_iff] at h
  obtain ⟨content, hcontent, rfl⟩ := h
  refine ⟨buff, pa, content, rfl, hcontent, ?_⟩
  by_cases hpa : pa = 0#64
  · simp [hpa]
  · simp [hpa, FPGAHandler.pushReadBuffer]

variable (vtpIsAvailable copyToNull) in
/-- An allocation that succeeds: the partition's page is in a buffer of its own, and this buffer is appended. -/
theorem preparePartition_of_succeeds (job : InputJob α) (s : FPGAHandler α × List Nat)
    (h : (responses partId).Succeeds) :
    ∃ s', preparePartition vtpIsAvailable copyToNull job responses s partId = some s' ∧
      s'.1.nextBuffer = s.1.nextBuffer + 1 ∧
      s'.1.content = Function.update s.1.content s.1.nextBuffer (job.partData partId) ∧
      s'.1.readBuffers job.jobType = s.1.readBuffers job.jobType ++ [some s.1.nextBuffer] ∧
      s'.2 = s.2 ++ [partId] := by
  have hpa := ((succeeds_iff vtpIsAvailable _ s.1.nextBuffer s.1.readBuffPa).mp h).2
  have hva := h.allocBuffer_eq vtpIsAvailable s.1.nextBuffer s.1.readBuffPa
  unfold preparePartition FPGAHandler.prepareReadBuffer
  rcases hbuff : allocBuffer vtpIsAvailable (responses partId) s.1.nextBuffer s.1.readBuffPa with ⟨buff, pa⟩
  rw [hbuff] at hpa hva
  subst hva
  refine ⟨_, rfl, ?_⟩
  simp [hpa, FPGAHandler.pushReadBuffer]

/-- A failed allocation leaves the I/O address of the one before, and is taken for a good buffer. -/
theorem preparePartition_stale (job : InputJob α) {content : Nat → α} (hfail : (responses partId).allocated = false)
    (hpa : s.1.readBuffPa ≠ 0#64) (hcopy : copyToNull s.1.content = some content) :
    ∃ s', preparePartition vtpIsAvailable copyToNull job responses s partId = some s' ∧
      s'.1.readBuffers job.jobType = s.1.readBuffers job.jobType ++ [none] ∧ s'.2 = s.2 ++ [partId] := by
  have hnull : allocBuffer vtpIsAvailable (responses partId) s.1.nextBuffer s.1.readBuffPa =
      (none, s.1.readBuffPa) := by
    unfold allocBuffer
    simp [hfail]
  unfold preparePartition FPGAHandler.prepareReadBuffer
  rw [hnull]
  simp [memcpy, hcopy, hpa, FPGAHandler.pushReadBuffer]

end Step

/-! ## The loop -/

section Loop
variable {α : Type*} {vtpIsAvailable : Bool} {copyToNull : (Nat → α) → Option (Nat → α)} {job : InputJob α}
  {responses : Nat → Response} {h : FPGAHandler α} {s : FPGAHandler α × List Nat}

theorem foldlM_range_succ (n : Nat) :
    (List.range (n + 1)).foldlM (preparePartition vtpIsAvailable copyToNull job responses) (h, []) =
      (List.range n).foldlM (preparePartition vtpIsAvailable copyToNull job responses) (h, []) >>= fun s =>
        preparePartition vtpIsAvailable copyToNull job responses s n := by
  rw [List.range_succ, List.foldlM_append]
  simp

/-- At most one buffer for each partition; where there is one for each, none was skipped, and a buffer that is not
`NULL` is from an allocation that succeeded. -/
structure Counted (job : InputJob α) (responses : Nat → Response) (n : Nat) (s : FPGAHandler α × List Nat) :
    Prop where
  length_le : (s.1.readBuffers job.jobType).length ≤ n
  succeeds : (s.1.readBuffers job.jobType).length = n → ∀ partId < n, ∀ va,
    (s.1.readBuffers job.jobType)[partId]? = some (some va) → (responses partId).Succeeds

theorem Counted.step {n : Nat} {s' : FPGAHandler α × List Nat} (hc : Counted job responses n s)
    (hstep : preparePartition vtpIsAvailable copyToNull job responses s n = some s') :
    Counted job responses (n + 1) s' := by
  obtain ⟨buff, pa, content, hbuff, -, -, -, -, hskip | hpush⟩ := preparePartition_eq_some hstep
  · obtain ⟨-, hbuffers, -⟩ := hskip
    have hle := hc.length_le
    rw [← hbuffers] at hle
    exact ⟨by omega, fun hlen => by omega⟩
  · obtain ⟨hpa, hbuffers, -⟩ := hpush
    obtain ⟨hle, hsucceeds⟩ := hc
    refine ⟨by simpa [hbuffers] using hle, ?_⟩
    intro hlen partId hpart va hva
    have hlen' : (s.1.readBuffers job.jobType).length = n := by simpa [hbuffers] using hlen
    rw [hbuffers] at hva
    rcases Nat.lt_succ_iff_lt_or_eq.mp hpart with hlt | rfl
    · rw [List.getElem?_append_left (by omega)] at hva
      exact hsucceeds hlen' partId hlt va hva
    · rw [List.getElem?_append_right (by omega), hlen'] at hva
      have hnull : buff = some va := by simpa using hva
      rw [succeeds_iff vtpIsAvailable _ s.1.nextBuffer s.1.readBuffPa, hbuff, hnull]
      exact ⟨Option.some_ne_none va, hpa⟩

theorem counted_foldlM (hempty : h.readBuffers job.jobType = []) (n : Nat) :
    ∀ s, (List.range n).foldlM (preparePartition vtpIsAvailable copyToNull job responses) (h, []) = some s →
      Counted job responses n s := by
  induction n with
  | zero =>
    intro s hs
    cases hs
    exact ⟨by simp [hempty], fun _ _ hlt => absurd hlt (Nat.not_lt_zero _)⟩
  | succ n ih =>
    intro s hs
    rw [foldlM_range_succ] at hs
    obtain ⟨s₀, hs₀, hstep⟩ := Option.bind_eq_some_iff.mp hs
    exact (ih s₀ hs₀).step hstep

/-- No allocation failed: the buffers follow each other from `first` on, and each holds its page. -/
structure Filled (job : InputJob α) (first n : Nat) (s : FPGAHandler α × List Nat) : Prop where
  nextBuffer_eq : s.1.nextBuffer = first + n
  readBuffers_eq : s.1.readBuffers job.jobType = (List.range n).map fun partId => some (first + partId)
  content_eq : ∀ partId < n, s.1.content (first + partId) = job.partData partId
  prepared_eq : s.2 = List.range n

variable (vtpIsAvailable copyToNull) in
theorem filled_foldlM (hempty : h.readBuffers job.jobType = []) (n : Nat)
    (hall : ∀ partId < n, (responses partId).Succeeds) :
    ∃ s, (List.range n).foldlM (preparePartition vtpIsAvailable copyToNull job responses) (h, []) = some s ∧
      Filled job h.nextBuffer n s := by
  induction n with
  | zero => exact ⟨_, rfl, rfl, hempty, fun _ hlt => absurd hlt (Nat.not_lt_zero _), rfl⟩
  | succ n ih =>
    obtain ⟨s, hs, hnext, hbuffers, hcontent, hprepared⟩ := ih fun partId hlt => hall partId (by omega)
    obtain ⟨s', hstep, hnext', hcontent', hbuffers', hprepared'⟩ :=
      preparePartition_of_succeeds vtpIsAvailable copyToNull job s (hall n (by omega))
    refine ⟨s', by rw [foldlM_range_succ, hs]; exact hstep, by omega, ?_, ?_, ?_⟩
    · rw [hbuffers', hbuffers, hnext, List.range_succ, List.map_append]
      rfl
    · intro partId hlt
      rw [hcontent', hnext]
      rcases Nat.lt_succ_iff_lt_or_eq.mp hlt with hlt' | rfl
      · rw [Function.update_of_ne (by omega), hcontent partId hlt']
      · rw [Function.update_self]
    · rw [hprepared', hprepared, List.range_succ]

theorem buffersReady_of_filled (hf : Filled job h.nextBuffer job.totalPartitions s)
    (hall : ∀ partId < job.totalPartitions, (responses partId).Succeeds) :
    BuffersReady job responses (some s) := by
  refine ⟨s, rfl, ?_, ?_⟩
  · intro partId hlt
    refine ⟨h.nextBuffer + partId, ?_, hf.content_eq partId hlt⟩
    rw [hf.readBuffers_eq]
    simp [hlt]
  · intro partId hmem
    rw [hf.prepared_eq, List.mem_range] at hmem
    exact hall partId hmem

theorem Counted.succeeds_of_fetches (hc : Counted job responses job.totalPartitions s)
    (hfetch : ∀ partId < job.totalPartitions, s.1.Fetches job partId) :
    ∀ partId < job.totalPartitions, (responses partId).Succeeds := by
  have hlen : (s.1.readBuffers job.jobType).length = job.totalPartitions := by
    refine Nat.le_antisymm hc.length_le (Nat.le_of_not_lt fun hshort => ?_)
    obtain ⟨va, hva, -⟩ := hfetch _ hshort
    rw [List.getElem?_eq_none (Nat.le_refl _)] at hva
    cases hva
  intro partId hlt
  obtain ⟨va, hva, -⟩ := hfetch partId hlt
  exact hc.succeeds hlen partId hlt va hva

end Loop

section Ready
variable {α : Type*} (vtpIsAvailable : Bool) (copyToNull : (Nat → α) → Option (Nat → α)) (job : InputJob α)
  (responses : Nat → Response) (h : FPGAHandler α)

/-- Whatever a copy to `NULL` does, and whatever I/O address is left from earlier jobs: the buffers of a job are ready
exactly when no allocation failed. -/
theorem buffersReady_iff (hempty : h.readBuffers job.jobType = []) :
    BuffersReady job responses (h.prepareInputBuffersForFPGA vtpIsAvailable copyToNull job responses) ↔
      ∀ partId < job.totalPartitions, (responses partId).Succeeds := by
  constructor
  · rintro ⟨s, hs, hfetch, -⟩
    exact (counted_foldlM hempty _ s hs).succeeds_of_fetches hfetch
  · intro hall
    obtain ⟨s, hs, hfilled⟩ := filled_foldlM vtpIsAvailable copyToNull hempty job.totalPartitions hall
    unfold FPGAHandler.prepareInputBuffersForFPGA
    rw [hs]
    exact buffersReady_of_filled hfilled hall

end Ready

theorem buffersReady_three :
    BuffersReady ⟨0, 3, id⟩ (fun _ => ⟨true, some 0x1000⟩)
      (FPGAHandler.prepareInputBuffersForFPGA true (fun _ => none) ⟨0, fun _ => [], 0, id⟩ ⟨0, 3, id⟩
        fun _ => ⟨true, some 0x1000⟩) :=
  (buffersReady_iff true (fun _ => none) ⟨0, 3, id⟩ (fun _ => ⟨true, some 0x1000⟩) ⟨0, fun _ => [], 0, id⟩ rfl).mpr
    fun _ _ => ⟨rfl, 0x1000, rfl, by decide⟩

/-- The buffer of partition 1 has I/O address 0: it is skipped, partition 1 fetches the page of partition 2, and
partition 2 finds nothing. -/
theorem not_buffersReady_skipped :
    let job : InputJob Nat := ⟨0, 3, id⟩
    let responses : Nat → Response := fun partId => ⟨true, some (if partId = 1 then 0 else 0x1000)⟩
    let result := FPGAHandler.prepareInputBuffersForFPGA true (fun _ => none) ⟨0, fun _ => [], 0, fun _ => 0⟩ job
      responses
    (result.map fun s => ((s.1.readBuffers 0)[1]?, s.1.content 2, (s.1.readBuffers 0)[2]?)) =
        some (some (some 2), job.partData 2, none) ∧
      ¬ BuffersReady job responses result := by
  refine ⟨rfl, ?_⟩
  rintro ⟨s, hs, hfetch, -⟩
  cases hs
  obtain ⟨va, hva, -⟩ := hfetch 2 (by decide)
  cases hva

end SdbFpga.Host
