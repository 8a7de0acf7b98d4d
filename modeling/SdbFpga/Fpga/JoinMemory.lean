import SdbFpga.Fpga.HostMemory
import SdbFpga.Fpga.JoinRuns

/-!
# `join_afu` and the host memory

* `joinDevice`, `joinDevice_lawful` : the unit, driven as `joinAtATime` drives it, as a device in front of a memory;
* `JoinApart` : the buffers of a partition are its own;
* `joined_in_memory` : a processed partition of keys whose writes are performed has its join in memory.
-/

namespace SdbFpga.Fpga
open Transition Bits PostedWrites

/-- Line `i` of the page of a partition. -/
def JoinRun.pageLine (p : JoinRun) (i : Nat) : ClAddr := p.base + BitVec.ofNat 42 i

/-- Line `i` of its result buffer. -/
def JoinRun.resultLine (p : JoinRun) (i : Nat) : ClAddr := p.result + BitVec.ofNat 42 i

/-- The partition is one of keys and has received a line: it may write. -/
def JoinRun.Writes (p : JoinRun) : Prop := p.bitmap = false ∧ p.lines ≠ []

instance (p : JoinRun) : Decidable p.Writes := inferInstanceAs (Decidable (p.bitmap = false ∧ p.lines ≠ []))

/-- A line of the page or, where the partition may write, of its result buffer. -/
def JoinRun.Uses (p : JoinRun) (a : ClAddr) : Prop :=
  (∃ i < p.cls, p.pageLine i = a) ∨ p.Writes ∧ ∃ i < p.cls, p.resultLine i = a

instance (p : JoinRun) (a : ClAddr) : Decidable (p.Uses a) :=
  inferInstanceAs (Decidable ((∃ i < p.cls, p.pageLine i = a) ∨ p.Writes ∧ ∃ i < p.cls, p.resultLine i = a))

section Device
variable (dim : Nat) (bitmap : Nat → Bool)

/-- The unit as a device: a response carries the line at the oldest requested address. -/
def joinDevice : Device JoinSys Wires ClAddr ClData where
  toSystem := joinSystem dim bitmap
  posts := fun σ w =>
    if (σ.afu.step w).c1Valid then some (WriteReq.store ⟨(σ.afu.step w).c1Hdr, (σ.afu.step w).c1Data⟩) else none
  answers := fun σ w m => w.readRsp.isSome = true → ∀ p ∈ σ.cur, w.readRsp = p.reads[p.lines.length]?.map m.mem
  Posted := fun σ e => ∃ p ∈ σ.runs, ∃ r ∈ p.writes, r.store = e
  Fetched := fun σ a cl => ∃ p ∈ σ.runs, ∃ i, p.lines[i]? = some cl ∧ p.pageLine i = a
  Uses := fun σ a => ∃ p ∈ σ.runs, p.Uses a

instance (σ : JoinSys) (w : Wires) : Decidable ((joinDevice dim bitmap).permits σ w) :=
  inferInstanceAs (Decidable ((joinSystem dim bitmap).permits σ w))

instance (σ : JoinSys) (w : Wires) (m : Memory ClAddr ClData) : Decidable ((joinDevice dim bitmap).answers σ w m) :=
  inferInstanceAs (Decidable
    (w.readRsp.isSome = true → ∀ p ∈ σ.cur, w.readRsp = p.reads[p.lines.length]?.map m.mem))

instance (σ : JoinSys) (a : ClAddr) : Decidable ((joinDevice dim bitmap).Uses σ a) :=
  inferInstanceAs (Decidable (∃ p ∈ σ.runs, p.Uses a))

end Device

/-! ## The records of a run -/

section Records
variable {dim : Nat} {bitmap : Nat → Bool} {σ : JoinSys} {w : Wires} {p : JoinRun} {r : WriteReq}

/-- Every write is the join of one of the lines received. -/
theorem JoinRun.Sound.mem_writes (h : p.Sound dim bitmap) (hr : r ∈ p.writes) :
    p.Writes ∧ ∃ i < p.cls, r = p.resultWrite bitmap i := by
  obtain ⟨is, hsub, hnil, hw⟩ := h.writes
  have hle := h.lines
  rw [hw] at hr
  obtain ⟨i, hmem, rfl⟩ := List.mem_map.mp hr
  have hlt := List.mem_range.mp (hsub.subset hmem)
  refine ⟨⟨?_, List.ne_nil_of_length_pos (by omega)⟩, i, by omega, rfl⟩
  by_contra hb
  rw [hnil (by simpa using hb)] at hmem
  cases hmem

/-- The records after a cycle: the current one observed, the one just opened, or an old one. -/
theorem JoinSys.mem_runs_step {q : JoinRun} (hq : q ∈ (σ.step w).runs) :
    (∃ p, σ.cur = some p ∧ q = p.observe σ.afu w (σ.afu.step w)) ∨ ((w.wrCsrs 4).en = true ∧
      q = (JoinRun.start σ.csrs (w.wrCsrs 4).data).observe σ.afu w (σ.afu.step w)) ∨ q ∈ σ.runs := by
  cases h4 : (w.wrCsrs 4).en with
  | false =>
    rw [JoinSys.runs_stay h4, List.mem_append, Option.mem_toList] at hq
    rcases hq with hq | hq
    · exact .inr (.inr (List.mem_append_left _ hq))
    · obtain ⟨p, hc, rfl⟩ := Option.map_eq_some_iff.mp hq
      exact .inl ⟨p, hc, rfl⟩
  | true =>
    rw [JoinSys.runs_announce h4, List.mem_append, List.mem_singleton] at hq
    rcases hq with hq | rfl
    · exact .inr (.inr hq)
    · exact .inr (.inl ⟨rfl, rfl⟩)

/-- A record stays, as it is or observed. -/
theorem JoinSys.mem_runs_kept (hp : p ∈ σ.runs) :
    p ∈ (σ.step w).runs ∨ p.observe σ.afu w (σ.afu.step w) ∈ (σ.step w).runs := by
  cases h4 : (w.wrCsrs 4).en with
  | false =>
    rw [JoinSys.runs_stay h4]
    rcases List.mem_append.mp hp with hp | hp
    · exact .inl (List.mem_append_left _ hp)
    · rw [Option.mem_toList] at hp
      exact .inr (List.mem_append_right _ (Option.mem_toList.mpr (Option.mem_map_of_mem _ hp)))
  | true =>
    rw [JoinSys.runs_announce h4]
    exact .inl (List.mem_append_left _ hp)

theorem JoinRun.mem_writes_observe : r ∈ (p.observe σ.afu w (σ.afu.step w)).writes ↔ r ∈ p.writes ∨
    (σ.afu.step w).c1Valid = true ∧ r = ⟨(σ.afu.step w).c1Hdr, (σ.afu.step w).c1Data⟩ := by
  unfold JoinRun.observe
  cases (σ.afu.step w).c1Valid <;> simp

/-- A write request belongs to the partition being processed. -/
theorem JoinInv.posted_mem (hi : JoinInv dim bitmap (σ.step w)) (h1 : (σ.afu.step w).c1Valid = true) :
    ∃ q ∈ (σ.step w).runs, ⟨(σ.afu.step w).c1Hdr, (σ.afu.step w).c1Data⟩ ∈ q.writes := by
  obtain ⟨q, hq, _⟩ := hi.post h1
  refine ⟨q, List.mem_append_right _ (Option.mem_toList.mpr hq), ?_⟩
  obtain ⟨p, _, rfl⟩ := Option.map_eq_some_iff.mp hq
  exact JoinRun.mem_writes_observe.mpr (.inr ⟨h1, rfl⟩)

/-- Nothing arrives in the cycle of an announcement. -/
theorem JoinInv.no_response (hi : JoinInv dim bitmap σ) (hw : JoinProtocol dim bitmap σ w)
    (h4 : (w.wrCsrs 4).en = true) : w.readRsp = none := by
  rcases hi.stage with ⟨_, hc⟩ | ⟨pt, p, k, hc, _⟩
  · exact hc.no_response hw (by decide)
  · have hpt := hc.waiting_of_announce hw h4
    subst hpt
    exact hc.no_response hw (by decide)

/-- After a cycle, a received line is an old one or the one that arrives, for the oldest open request. -/
theorem JoinInv.lines_step (hi : JoinInv dim bitmap σ) (hw : JoinProtocol dim bitmap σ w) {q : JoinRun}
    (hq : q ∈ (σ.step w).runs) {i : Nat} {cl : ClData} (hl : q.lines[i]? = some cl) :
    (∃ p ∈ σ.runs, p.base = q.base ∧ p.lines[i]? = some cl) ∨
      cl ∈ w.readRsp ∧ ∃ p ∈ σ.cur, p.base = q.base ∧ i = p.lines.length := by
  rcases JoinSys.mem_runs_step hq with ⟨p, hc, rfl⟩ | ⟨h4, rfl⟩ | hold
  · have hl' : (p.lines ++ w.readRsp.toList)[i]? = some cl := hl
    rcases Nat.lt_or_ge i p.lines.length with hlt | hge
    · rw [List.getElem?_append_left hlt] at hl'
      exact .inl ⟨p, List.mem_append_right _ (Option.mem_toList.mpr hc), rfl, hl'⟩
    · rw [List.getElem?_append_right hge] at hl'
      have hlt := (List.getElem?_eq_some_iff.mp hl').1
      have hle : w.readRsp.toList.length ≤ 1 := by cases w.readRsp <;> simp
      exact .inr ⟨Option.mem_toList.mp (List.mem_of_getElem? hl'), p, hc, rfl, by omega⟩
  · simp [JoinRun.observe, JoinRun.start, hi.no_response hw h4] at hl
  · exact .inl ⟨q, hold, rfl, hl⟩

/-- The oldest open request asks for the next line of the page. -/
theorem JoinInv.reads_next (hi : JoinInv dim bitmap σ) (hp : σ.cur = some p) {a : ClAddr}
    (ha : p.reads[p.lines.length]? = some a) : a = p.pageLine p.lines.length := by
  obtain ⟨pt, k, _, hcur⟩ := hi.current hp
  rw [hcur.reads, lineAddrs, List.getElem?_map] at ha
  obtain ⟨j, hj, rfl⟩ := Option.map_eq_some_iff.mp ha
  obtain ⟨hlt, rfl⟩ := List.getElem?_eq_some_iff.mp hj
  rw [List.getElem_range]
  rfl

theorem JoinBooted.runs (h : JoinBooted σ) : σ.runs = [] := by
  unfold JoinSys.runs
  rw [h.past, h.cur]
  rfl

end Records

/-- The records of the unit keep up with its steps. -/
theorem joinDevice_lawful {dim : Nat} {bitmap : Nat → Bool} (hdim : dim ≤ 2560) : (joinDevice dim bitmap).Lawful where
  posted_init := by
    rintro σ hb e ⟨p, hp, _⟩
    rw [JoinBooted.runs hb] at hp
    cases hp
  posted_step := by
    intro σ w hr hp e
    constructor
    · rintro ⟨p, hmem, r, hpr, rfl⟩
      have hnew : ∀ q : JoinRun, r ∈ (q.observe σ.afu w (σ.afu.step w)).writes → r ∉ q.writes →
          (joinDevice dim bitmap).posts σ w = some r.store := by
        intro q hq hold
        obtain ⟨h1, rfl⟩ := (JoinRun.mem_writes_observe.mp hq).resolve_left hold
        exact if_pos h1
      rcases JoinSys.mem_runs_step hmem with ⟨q, hc, rfl⟩ | ⟨_, rfl⟩ | hold
      · by_cases hq : r ∈ q.writes
        · exact .inl ⟨q, List.mem_append_right _ (Option.mem_toList.mpr hc), r, hq, rfl⟩
        · exact .inr (hnew q hpr hq)
      · exact .inr (hnew _ hpr (by rintro ⟨⟩))
      · exact .inl ⟨p, hold, r, hpr, rfl⟩
    · rintro (⟨p, hmem, r, hpr, rfl⟩ | hpost)
      · rcases JoinSys.mem_runs_kept (w := w) hmem with hq | hq
        · exact ⟨p, hq, r, hpr, rfl⟩
        · exact ⟨_, hq, r, JoinRun.mem_writes_observe.mpr (.inl hpr), rfl⟩
      · simp only [joinDevice, Option.ite_none_right_eq_some, Option.some.injEq] at hpost
        obtain ⟨h1, rfl⟩ := hpost
        obtain ⟨q, hq, hqr⟩ := ((joinInv_of_reachable hdim hr).step hp hdim).posted_mem h1
        exact ⟨q, hq, _, hqr, rfl⟩
  posted_uses := by
    rintro σ hr e ⟨p, hmem, r, hpr, rfl⟩
    obtain ⟨hl, i, hi, rfl⟩ := ((joinInv_of_reachable hdim hr).sound hmem).mem_writes hpr
    exact ⟨p, hmem, .inr ⟨hl, i, hi, rfl⟩⟩
  fetched_init := by
    rintro σ hb a v ⟨p, hp, _⟩
    rw [JoinBooted.runs hb] at hp
    cases hp
  fetched_step := by
    rintro σ w m hr hp hrsp a cl ⟨q, hq, i, hl, rfl⟩
    have hi := joinInv_of_reachable hdim hr
    have hline : ∀ p : JoinRun, p.base = q.base → p.pageLine i = q.pageLine i := by
      intro p hbase
      unfold JoinRun.pageLine
      rw [hbase]
    rcases hi.lines_step hp hq hl with ⟨p, hmem, hbase, hpl⟩ | ⟨hcl, p, hc, hbase, rfl⟩
    · exact .inl ⟨p, hmem, i, hpl, hline p hbase⟩
    · have hread := hrsp (Option.isSome_iff_exists.mpr ⟨cl, hcl⟩) p hc
      obtain ⟨a, ha, hval⟩ := Option.map_eq_some_iff.mp (hread.symm.trans hcl)
      rw [hi.reads_next hc ha, hline p hbase] at hval
      exact .inr hval
  fetched_uses := by
    rintro σ hr a v ⟨p, hmem, i, hl, rfl⟩
    have hlt := (List.getElem?_eq_some_iff.mp hl).1.trans_le ((joinInv_of_reachable hdim hr).sound hmem).lines
    exact ⟨p, hmem, .inl ⟨i, hlt, rfl⟩⟩

/-! ## Results in memory -/

/-- The unit and the memory. -/
abbrev JoinMemSys := Attached JoinSys ClAddr ClData

/-- The result buffer of partition `n` is its own, and no result buffer covers its page. -/
def JoinApart (σ : JoinSys) (n : Nat) (p : JoinRun) : Prop :=
  ∀ m q, σ.runs[m]? = some q → q.Writes → ∀ j < q.cls, ∀ i < p.cls,
    (m ≠ n → q.resultLine j ≠ p.resultLine i) ∧ q.resultLine j ≠ p.pageLine i

/-- Partition `n`, one of keys, is written and delivered: no line was refused and none is on its way to its result
buffer, which is its own. -/
structure JoinDelivers (σ : JoinMemSys) (n : Nat) (p : JoinRun) : Prop where
  at_n : σ.dev.runs[n]? = some p
  keys : 0 < n
  taken : p.writes.length = 64
  apart : JoinApart σ.dev n p
  done : ∀ i < 64, ∀ e ∈ σ.host.pending, e.1 ≠ p.resultLine i

section Results
variable {dim : Nat} {bitmap : Nat → Bool} {σ : JoinSys} {n i : Nat} {p : JoinRun} {e : ClAddr × ClData}

/-- A write to a result line of the partition is the partition's. -/
theorem JoinApart.own (ha : JoinApart σ n p) (hi : JoinInv dim bitmap σ) (hp : σ.runs[n]? = some p)
    (hcls : p.cls ≤ 128) (hlt : i < p.cls) (he : (joinDevice dim bitmap).Posted σ e) (hat : e.1 = p.resultLine i) :
    e = (p.resultWrite bitmap i).store := by
  obtain ⟨q, hq, r, hqr, rfl⟩ := he
  obtain ⟨hl, j, hj, rfl⟩ := (hi.sound hq).mem_writes hqr
  obtain ⟨m, hm⟩ := List.mem_iff_getElem?.mp hq
  have hmn : m = n := by
    by_contra hne
    exact (ha m q hm hl j hj i hlt).1 hne hat
  subst hmn
  have hqp : q = p := Option.some.inj (hm.symm.trans hp)
  subst hqp
  have hji : j = i := lineOffset_inj q.result (by omega) (by omega) hat
  rw [hji]

/-- No write goes to the page of the partition. -/
theorem JoinApart.page (ha : JoinApart σ n p) (hi : JoinInv dim bitmap σ) (hlt : i < p.cls)
    (he : (joinDevice dim bitmap).Posted σ e) : e.1 ≠ p.pageLine i := by
  obtain ⟨q, hq, r, hqr, rfl⟩ := he
  obtain ⟨hl, j, hj, rfl⟩ := (hi.sound hq).mem_writes hqr
  obtain ⟨m, hm⟩ := List.mem_iff_getElem?.mp hq
  exact (ha m q hm hl j hj i hlt).2

/-- A partition of keys with all of its writes. -/
theorem JoinRun.Sound.all_writes (h : p.Sound dim bitmap) (hkeys : p.bitmap = false) (hw : p.writes.length = 64) :
    p.cls = 64 ∧ p.lines.length = 64 ∧ ∀ i < 64, p.resultWrite bitmap i ∈ p.writes := by
  obtain ⟨is, hsub, _, hwrites⟩ := h.writes
  have hsize := h.size
  have hlines := h.lines
  have hle := hsub.length_le
  rw [hkeys, if_neg (by decide)] at hsize
  rw [hwrites, List.length_map] at hw
  rw [hw, List.length_range] at hle
  have hlen : p.lines.length = 64 := by omega
  have his : is = List.range 64 := by
    rw [hlen] at hsub
    exact hsub.eq_of_length (by rw [hw, List.length_range])
  refine ⟨hsize, hlen, ?_⟩
  intro i hi
  rw [hwrites, his]
  exact List.mem_map_of_mem (List.mem_range.mpr hi)

end Results

/-- A line of its result buffer. -/
theorem JoinDelivers.line {dim : Nat} {bitmap : Nat → Bool} (hdim : dim ≤ 2560) {σ : JoinMemSys} {n : Nat}
    {p : JoinRun} (hdel : JoinDelivers σ n p) (h : Reachable (joinDevice dim bitmap).withMemory σ) {i : Nat}
    (hlt : i < 64) : σ.host.mem (p.resultLine i) = joinLine bitmap (σ.host.mem (p.pageLine i)) := by
  have hi := joinInv_of_reachable hdim (reachable_dev h)
  have hmem := List.mem_of_getElem? hdel.at_n
  have hn := hdel.keys
  have hkeys : p.bitmap = false := (hi.order_getElem hdel.at_n).trans (decide_eq_false (by omega))
  obtain ⟨hcls, hlen, hall⟩ := (hi.sound hmem).all_writes hkeys hdel.taken
  have hil : i < p.lines.length := by omega
  have hpage : σ.host.mem (p.pageLine i) = p.lines[i] :=
    mem_of_fetched (joinDevice_lawful hdim) h ⟨p, hmem, i, List.getElem?_eq_getElem hil, rfl⟩
      fun e he => hdel.apart.page hi (by omega) he
  have hres : σ.host.mem (p.resultLine i) = joinLine bitmap (p.lines.getD i 0) :=
    mem_of_posted (e := (p.resultWrite bitmap i).store) (joinDevice_lawful hdim) h ⟨p, hmem, _, hall i hlt, rfl⟩
      (hdel.done i hlt) fun e he hat => hdel.apart.own hi hdel.at_n (by omega) (by omega) he hat
  rw [hres, hpage, List.getD_eq_getElem _ _ hil]

/-- Whatever the latencies, the back-pressure and the order in which writes are performed: once a partition of keys is
written and delivered, bit `l` of line `i` of its result buffer is the bitmap at key `l` of line `i` of its page. The
bitmap phase writes nothing, and every write goes to the result buffer of a partition of keys. -/
theorem joined_in_memory {dim : Nat} {bitmap : Nat → Bool} (hdim : dim ≤ 2560) {σ : JoinMemSys}
    (h : Reachable (joinDevice dim bitmap).withMemory σ) {n : Nat} {p : JoinRun} (hdel : JoinDelivers σ n p) :
    (∀ i < 64, ∀ l < 512, (σ.host.mem (p.resultLine i)).getLsbD l =
      (decide (l < 32) && bitmap (lane 16 l (σ.host.mem (p.pageLine i))).toNat)) ∧
    ∀ e, σ.host.Issued e → ∃ q ∈ σ.dev.runs, q.bitmap = false ∧ ∃ j < q.cls, e.1 = q.resultLine j := by
  constructor
  · intro i hi l _
    rw [hdel.line hdim h hi, getLsbD_joinLine]
  · intro e he
    have hi := joinInv_of_reachable hdim (reachable_dev h)
    obtain ⟨q, hq, r, hqr, rfl⟩ := ((Device.inv_of_reachable (joinDevice_lawful hdim) h).issued e).mp he
    obtain ⟨hwr, j, hj, rfl⟩ := (hi.sound hq).mem_writes hqr
    exact ⟨q, hq, hwr.1, j, hj, rfl⟩

/-- A bitmap in one line, then a partition of the key lines `keys 0 .. keys 63`; the writes are delivered at the
end. -/
def memoryScript (bits : ClData) (keys : Nat → ClData) : List (AttachedLabel Wires ClAddr ClData) :=
  ([Wires.csr 0 1, Wires.csr 6 1] ++ lineScript 0x40 bits .quiet ++
    [Wires.quiet, Wires.quiet, Wires.csr 0 64, Wires.csr 6 0, Wires.csr 4 0x80, Wires.csr 5 0x4000] ++
    ((List.range 64).map fun i => [Wires.quiet, Wires.quiet, Wires.quiet, Wires.respond (keys i), Wires.quiet,
      Wires.quiet, Wires.quiet]).flatten).map .step ++ List.replicate 64 (.perform 0)

/-- A bitmap of two bits and keys, all from a memory of ones. -/
def joinedScript : List (AttachedLabel Wires ClAddr ClData) := memoryScript 1 fun _ => 1

/-- Where the script ends. -/
def joined : JoinMemSys := (joinDevice 2 (· == 0)).withMemory.run ⟨JoinSys.boot, .new fun _ => 1⟩ joinedScript

theorem reachable_joined : Reachable (joinDevice 2 (· == 0)).withMemory joined :=
  Reachable.run (.init ⟨joinBooted_boot, _, rfl⟩) (by decide +kernel)

/-- A run of a bitmap and a partition of keys, all delivered, whose buffers are those of the script. -/
theorem joinDelivers_of_facts {σ : JoinMemSys} (hpend : σ.host.pending = [])
    (hruns : σ.dev.runs.map (fun p => ((p.bitmap, p.writes.length), p.cls, p.base, p.result)) =
      [((true, 0), 1, 1, 0), ((false, 64), 64, 2, 256)]) : ∃ p, JoinDelivers σ 1 p ∧ p.base = 2 ∧ p.result = 256 := by
  obtain ⟨p₀, p, hlist⟩ := List.length_eq_two.mp ((List.length_map _).symm.trans (congrArg List.length hruns))
  simp only [hlist, List.map_cons, List.map_nil, List.cons.injEq, Prod.mk.injEq, and_true] at hruns
  obtain ⟨⟨⟨hbitmap, _⟩, _⟩, ⟨_, hw⟩, hcls, hbase, hres⟩ := hruns
  have hp : σ.dev.runs[1]? = some p := by
    rw [hlist]
    rfl
  refine ⟨p, ⟨hp, by decide, hw, ?_, ?_⟩, hbase, hres⟩
  · intro m q hm hq j hj i hi
    have hqp : m = 1 ∧ q = p := by
      rw [hlist] at hm
      match m, hm with
      | 0, hm =>
        cases hm
        exact absurd (hbitmap.symm.trans hq.1) (by decide)
      | 1, hm => exact ⟨rfl, (Option.some.inj hm).symm⟩
    obtain ⟨rfl, rfl⟩ := hqp
    refine ⟨fun hne => absurd rfl hne, ?_⟩
    rw [JoinRun.resultLine, JoinRun.pageLine, hbase, hres]
    intro heq
    have hn := congrArg BitVec.toNat heq
    rw [show (256 : ClAddr) = 256#42 from rfl, show (2 : ClAddr) = 2#42 from rfl] at hn
    simp only [BitVec.toNat_add, BitVec.toNat_ofNat] at hn
    omega
  · rw [hpend]
    rintro i _ e ⟨⟩

theorem delivers_joined : ∃ p, JoinDelivers joined 1 p ∧ p.base = 2 := by
  have hpend : joined.host.pending = [] := by decide +kernel
  obtain ⟨p, hdel, hbase, _⟩ := joinDelivers_of_facts hpend (by decide +kernel)
  exact ⟨p, hdel, hbase⟩

/-- Key 1 is not in the bitmap, key 0 in the other lanes is. -/
theorem joined_in_memory_ones : ∃ p, JoinDelivers joined 1 p ∧ ∀ i < 64, ∀ l < 512,
    (joined.host.mem (p.resultLine i)).getLsbD l =
      (decide (l < 32) && (lane 16 l (joined.host.mem (p.pageLine i))).toNat == 0) := by
  obtain ⟨p, hdel, _⟩ := delivers_joined
  exact ⟨p, hdel, (joined_in_memory (by decide) reachable_joined hdel).1⟩

end SdbFpga.Fpga
