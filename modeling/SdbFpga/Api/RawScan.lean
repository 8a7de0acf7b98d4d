import SdbFpga.Lib.Fields

/-!
# `RawScan.h`: the attributes of raw cache lines

* `extractAttributes`, `extractTuples`, `RawTable.processChunk` : the scanner, with what it prints;
* `atts_extractAttributes`, `atts_extractTuples` : a line is scanned on its own, and without byte 63;
* `LinesAligned`, `atts_processChunk_iff` : when a chunk has the attributes of its byte stream;
* `atts_processChunk_written` : the same for a table that was written to the chunk.
-/

namespace SdbFpga.Api
open Lib

abbrev Byte := BitVec 8

/-- `'\n'` -/
def newline : Byte := 0x0A

/-- `'|'` -/
def bar : Byte := 0x7C

/-- What is printed. -/
inductive Printed
  | cl (clId : Nat)
  | tuple (tupleId tupleStart tupleEnd : Nat)
  | stream (bytes : List Byte)
  | att (attId attStart attEnd : Nat) (bytes : List Byte)
  deriving DecidableEq

/-- The attribute byte strings. -/
def atts (printed : List Printed) : List (List Byte) :=
  printed.filterMap fun
    | .att _ _ _ bytes => some bytes
    | _ => none

/-- `&(stream[start])` -/
def ptr (stream : Nat → Byte) (start : Nat) : Nat → Byte := fun byteId => stream (start + byteId)

def writeAttribute (attStream : Nat → Byte) (attLen : Nat) : List Byte := (List.range attLen).map attStream

structure AttributeLoop where
  attStart : Nat := 0
  attId : Nat := 0
  printed : List Printed := []

def AttributeLoop.step (tupleStream : Nat → Byte) (l : AttributeLoop) (byteId : Nat) : AttributeLoop :=
  if tupleStream byteId = bar then
    { attStart := byteId + 1, attId := l.attId + 1,
      printed := l.printed ++
        [.att l.attId l.attStart byteId (writeAttribute (ptr tupleStream l.attStart) (byteId - l.attStart))] }
  else l

def extractAttributes (tupleStream : Nat → Byte) (length : Nat) : List Printed :=
  -- the tuple itself is printed first, the byte at its end included
  .stream (writeAttribute tupleStream (length + 1)) ::
    ((List.range length).foldl (AttributeLoop.step tupleStream) {}).printed

structure TupleLoop where
  tupleId : Nat := 0
  tupleStart : Nat := 0
  printed : List Printed := []

def TupleLoop.step (inputCl : Nat → Byte) (l : TupleLoop) (byteId : Nat) : TupleLoop :=
  if inputCl byteId = newline ∨ byteId = 63 then
    { tupleId := l.tupleId + 1, tupleStart := byteId + 1,
      printed := l.printed ++ [.tuple l.tupleId l.tupleStart byteId] ++
        extractAttributes (ptr inputCl l.tupleStart) (byteId - l.tupleStart) }
  else l

def extractTuples (inputCl : Nat → Byte) : List Printed :=
  ((List.range 64).foldl (TupleLoop.step inputCl) {}).printed

/-- `RawTable`, with the chunks that are mapped. -/
structure RawTable where
  rawBuffers : List (Nat → Byte)
  nextChunk : Nat
  mappedChunk : Nat → Byte

def RawTable.mapNextChunk (t : RawTable) : Option RawTable :=
  t.rawBuffers[t.nextChunk]?.map fun chunk => { t with mappedChunk := chunk, nextChunk := t.nextChunk + 1 }

def RawTable.readNextCL (t : RawTable) (clId : Nat) : Nat → Byte := ptr t.mappedChunk (clId * 64)

def RawTable.processChunk (t : RawTable) (totalCls : Nat) : List Printed :=
  (List.range totalCls).flatMap fun clId => .cl clId :: extractTuples (t.readNextCL clId)

/-- The byte stream of the first `totalCls` lines. -/
def RawTable.stream (t : RawTable) (totalCls : Nat) : List Byte := writeAttribute t.mappedChunk (totalCls * 64)

/-- No line ends with `'|'`, and a line whose first separator is a `'|'` is the first one or follows a `'\n'`. -/
def LinesAligned (t : RawTable) (totalCls : Nat) : Prop :=
  ∀ clId < totalCls, t.readNextCL clId 63 ≠ bar ∧
    ((∃ i < 63, t.readNextCL clId i = bar ∧ ∀ k < i, t.readNextCL clId k ≠ newline) →
      clId = 0 ∨ t.readNextCL (clId - 1) 63 = newline)

/-! ## Bytes -/

@[simp] theorem atts_append (p q : List Printed) : atts (p ++ q) = atts p ++ atts q := List.filterMap_append

@[simp] theorem writeAttribute_zero (stream : Nat → Byte) : writeAttribute stream 0 = [] := rfl

theorem writeAttribute_succ (stream : Nat → Byte) (n : Nat) :
    writeAttribute stream (n + 1) = writeAttribute stream n ++ [stream n] := by
  simp [writeAttribute, List.range_succ]

/-- The bytes from `start` on, one more. -/
theorem writeAttribute_ptr_succ (stream : Nat → Byte) {start n : Nat} (h : start ≤ n) :
    writeAttribute (ptr stream start) (n + 1 - start) =
      writeAttribute (ptr stream start) (n - start) ++ [stream n] := by
  have hlen : n + 1 - start = n - start + 1 := by omega
  have hbyte : ptr stream start (n - start) = stream n := by simp [ptr, Nat.add_sub_cancel' h]
  rw [hlen, writeAttribute_succ, hbyte]

/-! ## One tuple -/

/-- What was printed of the first `n` bytes, and the attribute that is open there. -/
structure AttributesOf (tupleStream : Nat → Byte) (n : Nat) (l : AttributeLoop) : Prop where
  start_le : l.attStart ≤ n
  atts_eq : atts l.printed = scan newline bar [] (writeAttribute tupleStream n)
  pending_eq : pending newline bar [] (writeAttribute tupleStream n) =
    writeAttribute (ptr tupleStream l.attStart) (n - l.attStart)

theorem AttributesOf.step {tupleStream : Nat → Byte} {n : Nat} {l : AttributeLoop} (h : AttributesOf tupleStream n l)
    (hline : tupleStream n ≠ newline) : AttributesOf tupleStream (n + 1) (l.step tupleStream n) := by
  obtain ⟨hstart, hatts, hpending⟩ := h
  unfold AttributeLoop.step
  split_ifs with hbar
  · refine ⟨Nat.le_refl _, ?_, ?_⟩
    · rw [writeAttribute_succ, scan_append, atts_append, hatts, hpending]
      simp [atts, scan, hbar]
    · rw [writeAttribute_succ, pending_concat]
      simp [hbar]
  · refine ⟨by omega, ?_, ?_⟩
    · rw [writeAttribute_succ, scan_append, hatts]
      simp [scan, hbar, hline]
    · rw [writeAttribute_succ, pending_concat, hpending, writeAttribute_ptr_succ _ hstart]
      simp [hbar, hline]

theorem attributesOf_foldl (tupleStream : Nat → Byte) (n : Nat) (hline : ∀ i < n, tupleStream i ≠ newline) :
    AttributesOf tupleStream n ((List.range n).foldl (AttributeLoop.step tupleStream) {}) := by
  induction n with
  | zero => exact ⟨Nat.le_refl _, rfl, rfl⟩
  | succ n ih =>
    rw [List.range_succ, List.foldl_append]
    exact (ih fun i hi => hline i (by omega)).step (hline n (by omega))

theorem atts_extractAttributes (tupleStream : Nat → Byte) (length : Nat)
    (hline : ∀ i < length, tupleStream i ≠ newline) :
    atts (extractAttributes tupleStream length) = scan newline bar [] (writeAttribute tupleStream length) :=
  (attributesOf_foldl tupleStream length hline).atts_eq

/-! ## One line -/

/-- What was printed of the first `n` bytes of a line, and the tuple that is open there. -/
structure TuplesOf (inputCl : Nat → Byte) (n : Nat) (l : TupleLoop) : Prop where
  start_le : l.tupleStart ≤ n
  no_line : ∀ i, l.tupleStart ≤ i → i < n → inputCl i ≠ newline
  scan_eq : scan newline bar [] (writeAttribute inputCl n) =
    atts l.printed ++ scan newline bar [] (writeAttribute (ptr inputCl l.tupleStart) (n - l.tupleStart))
  pending_eq : pending newline bar [] (writeAttribute inputCl n) =
    pending newline bar [] (writeAttribute (ptr inputCl l.tupleStart) (n - l.tupleStart))

/-- The tuple that is open holds no newline, so its attributes are extracted as they are scanned. -/
theorem TuplesOf.atts_tuple {inputCl : Nat → Byte} {n : Nat} {l : TupleLoop} (h : TuplesOf inputCl n l) :
    atts (l.printed ++ [.tuple l.tupleId l.tupleStart n] ++
      extractAttributes (ptr inputCl l.tupleStart) (n - l.tupleStart)) =
        scan newline bar [] (writeAttribute inputCl n) := by
  have htuple := atts_extractAttributes (ptr inputCl l.tupleStart) (n - l.tupleStart) fun i hi =>
    h.no_line _ (by omega) (by omega)
  rw [h.scan_eq, atts_append, atts_append, htuple]
  simp [atts]

theorem TuplesOf.step {inputCl : Nat → Byte} {n : Nat} {l : TupleLoop} (h : TuplesOf inputCl n l) (hn : n < 63) :
    TuplesOf inputCl (n + 1) (l.step inputCl n) := by
  have hprinted := h.atts_tuple
  obtain ⟨hstart, hno, hscan, hpending⟩ := h
  unfold TupleLoop.step
  split_ifs with hend
  · have hline : inputCl n = newline := hend.resolve_right (by omega)
    refine ⟨Nat.le_refl _, fun i hge hlt => absurd hge (Nat.not_le.mpr hlt), ?_, ?_⟩
    · rw [writeAttribute_succ, scan_append, hprinted]
      simp [scan, hline, newline, bar]
    · rw [writeAttribute_succ, pending_concat]
      simp [pending, hline]
  · have hline : inputCl n ≠ newline := fun h => hend (.inl h)
    refine ⟨by omega, ?_, ?_, ?_⟩
    · intro i hge hlt
      rcases Nat.lt_succ_iff_lt_or_eq.mp hlt with hi | rfl
      · exact hno i hge hi
      · exact hline
    · rw [writeAttribute_succ, writeAttribute_ptr_succ _ hstart, scan_append, scan_append, hscan, hpending,
        List.append_assoc]
    · rw [writeAttribute_succ, writeAttribute_ptr_succ _ hstart, pending_concat, pending_concat, hpending]

theorem tuplesOf_foldl (inputCl : Nat → Byte) (n : Nat) (hn : n ≤ 63) :
    TuplesOf inputCl n ((List.range n).foldl (TupleLoop.step inputCl) {}) := by
  induction n with
  | zero => exact ⟨Nat.le_refl _, fun _ _ hi => by omega, rfl, rfl⟩
  | succ n ih =>
    rw [List.range_succ, List.foldl_append]
    exact (ih (by omega)).step (by omega)

/-- A tuple ends at byte 63, whatever this byte is. -/
theorem atts_extractTuples (inputCl : Nat → Byte) :
    atts (extractTuples inputCl) = scan newline bar [] (writeAttribute inputCl 63) := by
  have hline := tuplesOf_foldl inputCl 63 (Nat.le_refl _)
  unfold extractTuples
  rw [List.range_succ, List.foldl_append, List.foldl_cons, List.foldl_nil, TupleLoop.step, if_pos (.inr rfl)]
  exact hline.atts_tuple

/-! ## The chunk -/

section Chunk
variable (t : RawTable)

theorem stream_eq_joined (n : Nat) :
    t.stream n = joined (fun clId => writeAttribute (t.readNextCL clId) 63) (fun clId => t.readNextCL clId 63) n := by
  induction n with
  | zero => rfl
  | succ n ih =>
    have hline : writeAttribute t.mappedChunk ((n + 1) * 64) =
        writeAttribute t.mappedChunk (n * 64) ++ writeAttribute (t.readNextCL n) 64 := by
      simp only [writeAttribute, Nat.add_mul, Nat.one_mul, List.range_add, List.map_append, List.map_map]
      rfl
    rw [joined_succ, ← ih, List.append_assoc, ← writeAttribute_succ]
    exact hline

theorem atts_processChunk (n : Nat) :
    atts (t.processChunk n) = pieces newline bar (fun clId => writeAttribute (t.readNextCL clId) 63) n := by
  induction n with
  | zero => rfl
  | succ n ih =>
    rw [pieces_succ, ← ih, ← atts_extractTuples]
    simp [RawTable.processChunk, List.range_succ, atts]

theorem opens_writeAttribute (inputCl : Nat → Byte) (n : Nat) :
    Opens newline bar (writeAttribute inputCl n) ↔
      ∃ i < n, inputCl i = bar ∧ ∀ k < i, inputCl k ≠ newline := by
  rw [opens_iff]
  constructor
  · rintro ⟨i, hi, hbefore⟩
    obtain ⟨hlt, hbar⟩ := List.getElem?_eq_some_iff.mp hi
    simp only [writeAttribute, List.length_map, List.length_range] at hlt
    refine ⟨i, hlt, by simpa [writeAttribute] using hbar, ?_⟩
    intro k hk
    have hk' := hbefore k hk
    simpa [writeAttribute, Nat.lt_trans hk hlt] using hk'
  · rintro ⟨i, hlt, hbar, hbefore⟩
    refine ⟨i, by simp [writeAttribute, hlt, hbar], ?_⟩
    intro k hk
    simpa [writeAttribute, Nat.lt_trans hk hlt] using hbefore k hk

theorem pieces_eq_stream_iff (n : Nat) :
    pieces newline bar (fun clId => writeAttribute (t.readNextCL clId) 63) n = fields newline bar (t.stream n) ↔
      LinesAligned t n := by
  rw [stream_eq_joined, pieces_eq_iff _ _ (by decide)]
  simp only [opens_writeAttribute]
  exact Iff.rfl

/-- The chunk has the attributes of its stream, none lost, cut or shortened, exactly when its lines are aligned. -/
theorem atts_processChunk_iff (totalCls : Nat) :
    atts (t.processChunk totalCls) = fields newline bar (t.stream totalCls) ↔ LinesAligned t totalCls := by
  rw [atts_processChunk]
  exact pieces_eq_stream_iff t totalCls

/-- For a chunk that holds a whole table these are the attributes that were written. -/
theorem atts_processChunk_written (totalCls : Nat) {records : List (List (List Byte))}
    (hstream : t.stream totalCls = written newline bar records)
    (hfields : ∀ record ∈ records, ∀ field ∈ record, newline ∉ field ∧ bar ∉ field) :
    atts (t.processChunk totalCls) = records.flatten ↔ LinesAligned t totalCls := by
  rw [← fields_written (by decide) records hfields, ← hstream, atts_processChunk]
  exact pieces_eq_stream_iff t totalCls

end Chunk

/-- A tuple with one attribute of 126 bytes: it is in two lines, and its first 64 bytes are lost. -/
theorem atts_processChunk_cut :
    let records : List (List (List Byte)) := [[List.replicate 126 0x61]]
    let t : RawTable := ⟨[], 0, fun i => (written newline bar records).getD i 0⟩
    t.stream 2 = written newline bar records ∧
      (∀ record ∈ records, ∀ field ∈ record, newline ∉ field ∧ bar ∉ field) ∧
      fields newline bar (t.stream 2) = [List.replicate 126 0x61] ∧
      atts (t.processChunk 2) = [List.replicate 62 0x61] ∧
      atts (t.processChunk 2) ≠ fields newline bar (t.stream 2) := by
  decide +kernel

end SdbFpga.Api
