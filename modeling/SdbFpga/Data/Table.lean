import Mathlib.Logic.Function.Basic
import SdbFpga.Data.Decoding
import SdbFpga.Data.Metadata

/-!
# `Table` and the generator: a column from its file to its pages

The generator compresses the `base.dat` in a column's directory and writes `compressed.dat` and `meta.dat` beside it;
`createColumn` reads the three files back, from paths that it composes in another way.

* `Files` : the lines of every file; `generate` : `main` of the generator;
* `Table.initializeTable`, `createColumn`, `getColumn`;
* `lines_generate` : what the generator leaves alone;
* `storedBits` : the width of a column by its number of distinct values;
* `Stored` : a loaded column; `createColumn_generate`, `lookup_createColumn` : the column a table gets from a generated
  directory;
* `exists_createColumn` : the whole way from the files of a table.
-/

namespace SdbFpga.Data
open Bits Text

/-! ## Files -/

/-- The files by their paths, each as its lines. -/
abbrev Files := Line → Option (List Line)

/-- What a loop over `getline` reads: nothing where there is no such file. -/
def Files.lines (files : Files) (path : Line) : List Line := (files path).getD []

/-- An `ofstream` replaces the file. -/
def Files.write (files : Files) (path : Line) (content : List Line) : Files :=
  Function.update files path (some content)

theorem lines_write_of_ne {files : Files} {path path' : Line} (h : path' ≠ path) (content : List Line) :
    (files.write path content).lines path' = files.lines path' := by
  rw [Files.lines, Files.write, Function.update_of_ne h]
  rfl

theorem lines_write_self (files : Files) (path : Line) (content : List Line) :
    (files.write path content).lines path = content := by
  rw [Files.lines, Files.write, Function.update_self]
  rfl

/-- `data_type == "INT"`. -/
def baseType (dataType : Line) : DataType := if dataType = "INT".toList then .int else .string

/-- `main` of the generator; there is no width to write for fewer than two distinct values. -/
def generate (files : Files) (colPath dataType : Line) : Option Files :=
  let r := (Compressor.new (baseType dataType)).parseColumn (files (colPath ++ "/base.dat".toList))
  if r.2 then
    r.1.writeMetaData.map fun m =>
      (files.write (colPath ++ "/compressed.dat".toList)
        (r.1.writeCompressedValues (files.lines (colPath ++ "/base.dat".toList)))).write
          (colPath ++ "/meta.dat".toList) m.2
  else some files

/-! ## Tables -/

/-- `Table`; `columns` lists the entries of the hash map. -/
structure Table where
  tableName : Line
  tablePath : Line
  columns : List (Int × Column)
  numOfElements : Int

/-- The constructor. -/
def Table.new (tableName : Line) : Table where
  tableName := tableName
  tablePath := []
  columns := []
  numOfElements := 0

/-- `initializeTable`: the number of rows is in the table's own `meta.dat`. -/
def Table.initializeTable (t : Table) (files : Files) (basePath : Line) : Table :=
  let tablePath := basePath ++ t.tableName ++ "/".toList
  { t with
    tablePath := tablePath
    numOfElements := atoi ((files.lines (tablePath ++ "meta.dat".toList)).getD 0 []) }

/-- The directory of the fact table. -/
def lineorderPath (basePath : Line) : Line := basePath ++ "lineorder".toList ++ "/".toList

/-- `createColumn`. -/
def Table.createColumn (t : Table) (files : Files) (columnFile : Line) (columnName : Int)
    (order : List (Line × BitVec 32) → List (Line × BitVec 32)) (fresh : Nat → Nat → Word) : Option Table :=
  let colPath := t.tablePath ++ columnFile ++ "/".toList
  ((Column.new t.numOfElements).initializeColumn (files.lines (colPath ++ "meta.dat".toList))
      (files.lines (colPath ++ "base.dat".toList)) (files.lines (colPath ++ "compressed.dat".toList)) order).map
    fun column =>
      { t with
        columns := enter t.columns (columnName, (column.initializePageAlignedPartitions fresh).compressColumn
          (files.lines (colPath ++ "compressed.dat".toList))) }

/-- `getColumn`; `at` throws for a column that was not created. -/
def Table.getColumn (t : Table) (colId : Int) : Option Column := t.columns.lookup colId

/-! ## What the generator writes -/

section Generate
variable {files files' : Files} {colPath dataType : Line} {base : List Line}
  (hbase : files (colPath ++ "/base.dat".toList) = some base) (hgen : generate files colPath dataType = some files')
include hbase hgen

/-- The compressor ran on the file. -/
theorem generate_spec : ∃ comp comp' metaFile,
    (Compressor.new (baseType dataType)).parseColumn (some base) = (comp, true) ∧
      comp.writeMetaData = some (comp', metaFile) ∧
      files' = (files.write (colPath ++ "/compressed.dat".toList) (comp.writeCompressedValues base)).write
        (colPath ++ "/meta.dat".toList) metaFile := by
  obtain ⟨comp, hparse⟩ := exists_parseColumn (baseType dataType) base
  have hlines : files.lines (colPath ++ "/base.dat".toList) = base := by
    rw [Files.lines, hbase]
    rfl
  unfold generate at hgen
  simp only [hbase, hparse, if_true, hlines] at hgen
  obtain ⟨⟨comp', metaFile⟩, hmeta, rfl⟩ := Option.map_eq_some_iff.mp hgen
  exact ⟨comp, comp', metaFile, hparse, hmeta, rfl⟩

/-- The three files afterwards. -/
theorem generated_lines : ∃ comp comp' metaFile,
    (Compressor.new (baseType dataType)).parseColumn (some base) = (comp, true) ∧
      comp.writeMetaData = some (comp', metaFile) ∧
      files'.lines (colPath ++ "/base.dat".toList) = base ∧
      files'.lines (colPath ++ "/compressed.dat".toList) = comp.writeCompressedValues base ∧
      files'.lines (colPath ++ "/meta.dat".toList) = metaFile := by
  obtain ⟨comp, comp', metaFile, hparse, hmeta, rfl⟩ := generate_spec hbase hgen
  have hne : ∀ {name name' : Line}, name ≠ name' → colPath ++ name ≠ colPath ++ name' :=
    fun hname h => hname (List.append_cancel_left h)
  have hlines : files.lines (colPath ++ "/base.dat".toList) = base := by
    rw [Files.lines, hbase]
    rfl
  refine ⟨comp, comp', metaFile, hparse, hmeta, ?_, ?_, lines_write_self _ _ _⟩
  · rw [lines_write_of_ne (hne (by decide)), lines_write_of_ne (hne (by decide)), hlines]
  · rw [lines_write_of_ne (hne (by decide)), lines_write_self]

/-- Every other file is as before. -/
theorem lines_generate {path : Line} (hcompressed : path ≠ colPath ++ "/compressed.dat".toList)
    (hmeta : path ≠ colPath ++ "/meta.dat".toList) : files'.lines path = files.lines path := by
  obtain ⟨_, _, _, _, _, rfl⟩ := generate_spec hbase hgen
  rw [lines_write_of_ne hmeta, lines_write_of_ne hcompressed]

end Generate

/-! ## The width that is stored -/

/-- The width in `meta.dat`, plus one. -/
def storedBits (distinctValues : Nat) : Nat :=
  if distinctValues ≤ 129 then 8 else if distinctValues ≤ 32769 then 16 else 32

/-- The exponent of `writeMetaData` is the number of binary digits. -/
theorem width_le_iff (round e : Nat) :
    (if 2 ^ Nat.clog 2 round = round then Nat.clog 2 round + 1 else Nat.clog 2 round) ≤ e ↔ round < 2 ^ e := by
  have hclog : Nat.clog 2 round ≤ e ↔ round ≤ 2 ^ e := Nat.clog_le_iff_le_pow (by decide)
  by_cases hpow : 2 ^ Nat.clog 2 round = round
  · rw [if_pos hpow]
    conv_rhs => rw [← hpow]
    rw [Nat.pow_lt_pow_iff_right (by decide)]
    exact Iff.rfl
  · have hne : round ≠ 2 ^ e := by
      rintro rfl
      exact hpow (by rw [Nat.clog_pow _ _ (by decide)])
    rw [if_neg hpow, hclog]
    omega

theorem bucket_two_pow (e : Nat) : bucket (2 ^ e - 1) + 1 = if e ≤ 3 then 8 else if e ≤ 4 then 16 else 32 := by
  have hsmall : ∀ e ≤ 4, bucket (2 ^ e - 1) + 1 = if e ≤ 3 then 8 else if e ≤ 4 then 16 else 32 := by decide
  rcases Nat.lt_or_ge 4 e with hlt | hle
  · have hpow : 2 ^ 5 ≤ 2 ^ e := Nat.pow_le_pow_right (by decide) hlt
    have hcast : (2 : Int) ^ e = (2 ^ e : Nat) := by push_cast; rfl
    rw [if_neg (by omega), if_neg (by omega), hcast, bucket, if_neg (by omega), if_neg (by omega)]
    rfl
  · exact hsmall e hle

/-- The exponent for `k` keys counted is at most `e` up to `2 ^ (2 ^ e - 1)` keys. -/
theorem exponent_le_iff {k e : Nat} :
    (if (2 : Int) ^ Nat.clog 2 (Nat.clog 2 k) = Nat.clog 2 k then (Nat.clog 2 (Nat.clog 2 k) : Int) + 1
      else Nat.clog 2 (Nat.clog 2 k)).toNat ≤ e ↔ k ≤ 2 ^ (2 ^ e - 1) := by
  have hpos := Nat.two_pow_pos e
  have hround : Nat.clog 2 k < 2 ^ e ↔ k ≤ 2 ^ (2 ^ e - 1) := by
    rw [← Nat.clog_le_iff_le_pow (by decide)]
    omega
  have hcond : (2 : Int) ^ Nat.clog 2 (Nat.clog 2 k) = Nat.clog 2 k ↔
      2 ^ Nat.clog 2 (Nat.clog 2 k) = Nat.clog 2 k := by
    norm_cast
  rw [← hround, ← width_le_iff]
  by_cases hpow : 2 ^ Nat.clog 2 (Nat.clog 2 k) = Nat.clog 2 k
  · rw [if_pos hpow, if_pos (hcond.mpr hpow)]
    exact Iff.rfl
  · rw [if_neg hpow, if_neg (hpow ∘ hcond.mp)]
    exact Iff.rfl

theorem rawBitSize_stored {n : Nat} (h2 : 2 ≤ n) :
    ∃ bitSize, rawBitSize (n - 1 : Int) = some bitSize ∧ bucket bitSize + 1 = storedBits n := by
  obtain ⟨k, rfl⟩ : ∃ k : Nat, n = k + 1 := ⟨n - 1, by omega⟩
  have hk : ((k + 1 : Nat) : Int) - 1 = k := by omega
  rw [hk]
  unfold rawBitSize
  by_cases hone : (k : Int) = 1
  · rw [if_pos hone, storedBits, if_pos (by omega)]
    exact ⟨1, rfl, rfl⟩
  · have hpos : 1 ≤ Nat.clog 2 k := Nat.clog_pos (by decide) (by omega)
    rw [if_neg hone, ceilLog2, if_pos (by omega), Option.bind_some, ceilLog2, if_pos (by simp; omega), Option.map_some]
    refine ⟨_, rfl, ?_⟩
    simp only [Int.toNat_natCast]
    have hthree := exponent_le_iff (k := k) (e := 3)
    have hfour := exponent_le_iff (k := k) (e := 4)
    rw [bucket_two_pow, storedBits]
    simp only [hthree, hfour]
    have h8 : k + 1 ≤ 129 ↔ k ≤ 2 ^ (2 ^ 3 - 1) := by omega
    have h16 : k + 1 ≤ 32769 ↔ k ≤ 2 ^ (2 ^ 4 - 1) := by omega
    simp only [h8, h16]
    push_cast
    rfl

/-- A column with two values is generated. -/
theorem exists_generate {files : Files} {colPath dataType : Line} {base : List Line}
    (hbase : files (colPath ++ "/base.dat".toList) = some base) (h2 : 2 ≤ (baseType dataType).distinctValues base) :
    ∃ files', generate files colPath dataType = some files' := by
  obtain ⟨comp, hparse⟩ := exists_parseColumn (baseType dataType) base
  obtain ⟨_, _, hkeys⟩ := parseColumn_spec (by omega) hparse
  obtain ⟨bitSize, hraw, _⟩ := rawBitSize_stored h2
  unfold generate
  simp only [hbase, hparse, if_true, Compressor.writeMetaData, hkeys, hraw, Option.map_some]
  exact ⟨_, rfl⟩

/-! ## The column of a table -/

/-- The codes in `compressed.dat`. -/
def DataType.storedCodes (d : DataType) (base : List Line) : List Nat := base.map fun l => (d.code base l).toNat

/-- A column without pages that was loaded from what the compressor wrote for `base`. -/
structure Stored (d : DataType) (base : List Line) (c : Column) : Prop where
  loaded : Loaded d base ((d.storedCodes base).map decimal) c
  colSize : c.colSize = (d.storedCodes base).length
  numOfBits : c.numOfBits = storedBits (d.distinctValues base)
  partitions : c.partitions = []

theorem baseType_ne_double (dataType : Line) : baseType dataType ≠ .double := by
  unfold baseType
  split <;> decide

/-- A code fits the width of its column. -/
theorem lt_two_pow_storedBits {d : DataType} {base : List Line} (hd : d ≠ .double) {x : Nat}
    (hx : x ∈ d.storedCodes base) : x < 2 ^ storedBits (d.distinctValues base) := by
  obtain ⟨l, hl, rfl⟩ := List.mem_map.mp hx
  have hrank := rank_lt_distinctValues hd hl
  have hle : (d.code base l).toNat ≤ d.rank base l := by
    rw [DataType.code, BitVec.toNat_ofNat]
    exact Nat.mod_le _ _
  have hlt := (d.code base l).isLt
  unfold storedBits
  split
  · omega
  · split
    · omega
    · exact hlt

section Create
variable {files files' : Files} {t : Table} {columnFile dataType : Line} {base : List Line}
  (hbase : files (t.tablePath ++ columnFile ++ "/base.dat".toList) = some base)
  (hgen : generate files (t.tablePath ++ columnFile) dataType = some files')
  (h2 : 2 ≤ (baseType dataType).distinctValues base) (hrows : t.numOfElements = base.length)
  {columnName : Int} (hnew : t.columns.lookup columnName = none)
include hbase hgen h2 hrows hnew

/-- A column created from a generated directory: its width is the one for its number of values, its dictionary and its
pages are those of the codes. -/
theorem createColumn_generate (order : List (Line × BitVec 32) → List (Line × BitVec 32))
    (fresh : Nat → Nat → Word) : ∃ t' c, t.createColumn files' columnFile columnName order fresh = some t' ∧
      Stored (baseType dataType) base c ∧
      t'.getColumn columnName = some ((c.initializePageAlignedPartitions fresh).compressColumn
        (((baseType dataType).storedCodes base).map decimal)) := by
  obtain ⟨comp, comp', metaFile, hparse, hmeta, hbaseLines, hcompressed, hmetaLines⟩ := generated_lines hbase hgen
  have hd := baseType_ne_double dataType
  obtain ⟨_, _, hkeys⟩ := parseColumn_spec (by omega) hparse
  obtain ⟨bitSize, hraw, hbucket⟩ := rawBitSize_stored h2
  rw [← hkeys] at hraw
  have hwritten := hmeta
  rw [writeMetaData_eq, hraw, Option.map_some, Option.some.injEq, Prod.mk.injEq] at hwritten
  -- the paths, as the table composes them
  have hpath : ∀ name : Line, t.tablePath ++ columnFile ++ "/".toList ++ name =
      t.tablePath ++ columnFile ++ ("/".toList ++ name) := fun name => List.append_assoc _ _ _
  have hmetaPath : "/".toList ++ "meta.dat".toList = "/meta.dat".toList := by decide
  have hbasePath : "/".toList ++ "base.dat".toList = "/base.dat".toList := by decide
  have hcompressedPath : "/".toList ++ "compressed.dat".toList = "/compressed.dat".toList := by decide
  obtain ⟨c, hinit⟩ := exists_initializeColumn hmeta (Column.new t.numOfElements) base
    (comp.writeCompressedValues base) order
  have hloaded : Loaded (baseType dataType) base (comp.writeCompressedValues base) c :=
    ⟨⟨comp, hparse, rfl⟩, t.numOfElements, metaFile, order, hinit⟩
  have hfile : comp.writeCompressedValues base = ((baseType dataType).storedCodes base).map decimal := by
    rw [hloaded.file_eq hd, DataType.storedCodes, List.map_map]
    rfl
  have hline : afterColon (metaFile.getD 1 []) = some (showInt (bucket bitSize)) := by
    rw [← hwritten.2]
    exact afterColon_append (by decide)
  obtain ⟨hbits, hsize, hparts⟩ := initializeColumn_numOfBits hinit hline
  have hnum : c.numOfBits = storedBits ((baseType dataType).distinctValues base) := by
    rw [hbits, ← hbucket]
    rcases bucket_cases bitSize with h | h | h <;> rw [h] <;> decide
  have hcreate : t.createColumn files' columnFile columnName order fresh = some { t with
      columns := enter t.columns (columnName, (c.initializePageAlignedPartitions fresh).compressColumn
        (comp.writeCompressedValues base)) } := by
    unfold Table.createColumn
    simp only [hpath, hmetaPath, hbasePath, hcompressedPath]
    rw [hmetaLines, hbaseLines, hcompressed, hinit]
    rfl
  have hsize' : c.colSize = ((baseType dataType).storedCodes base).length := by
    rw [hsize, DataType.storedCodes, List.length_map]
    exact hrows
  refine ⟨_, c, hcreate, ⟨hfile ▸ hloaded, hsize', hnum, hparts⟩, ?_⟩
  rw [← hfile]
  show (enter t.columns _).lookup columnName = _
  rw [lookup_enter, List.lookup_append, hnew]
  simp

omit h2 hrows in
/-- And its decoding table, for every order in which the dictionary is iterated. -/
theorem lookup_createColumn {order : List (Line × BitVec 32) → List (Line × BitVec 32)} (horder : ∀ l, (order l).Perm l)
    {fresh : Nat → Nat → Word} {t' : Table} {column : Column}
    (hcreate : t.createColumn files' columnFile columnName order fresh = some t')
    (hget : t'.getColumn columnName = some column) {v : Line} (hv : v ∈ base) :
    ∃ l ∈ base, (baseType dataType).code base l = (baseType dataType).code base v ∧
      column.decodingTable.lookup ((baseType dataType).code base v) = some l := by
  obtain ⟨comp, _, metaFile, hparse, _, hbaseLines, hcompressed, _⟩ := generated_lines hbase hgen
  have hbasePath : t.tablePath ++ columnFile ++ "/".toList ++ "base.dat".toList =
      t.tablePath ++ columnFile ++ "/base.dat".toList := List.append_assoc _ _ _
  have hcompressedPath : t.tablePath ++ columnFile ++ "/".toList ++ "compressed.dat".toList =
      t.tablePath ++ columnFile ++ "/compressed.dat".toList := List.append_assoc _ _ _
  unfold Table.createColumn at hcreate
  simp only [hbasePath, hcompressedPath, hbaseLines, hcompressed] at hcreate
  obtain ⟨c, hinit, rfl⟩ := Option.map_eq_some_iff.mp hcreate
  have hcolumn : column = (c.initializePageAlignedPartitions fresh).compressColumn (comp.writeCompressedValues base) := by
    have hlookup : (enter t.columns (columnName, (c.initializePageAlignedPartitions fresh).compressColumn
        (comp.writeCompressedValues base))).lookup columnName = some column := hget
    rw [lookup_enter, List.lookup_append, hnew] at hlookup
    simpa using hlookup.symm
  rw [hcolumn]
  exact lookup_decodingTable (baseType_ne_double dataType) hparse rfl horder hinit hv

end Create

section Path
variable {files : Files} {basePath tableName columnFile dataType : Line} {base : List Line}
  (hrows : (files.lines (basePath ++ tableName ++ "/".toList ++ "meta.dat".toList)).getD 0 [] = decimal base.length)
  (hbase : files (basePath ++ tableName ++ "/".toList ++ columnFile ++ "/base.dat".toList) = some base)
  (h2 : 2 ≤ (baseType dataType).distinctValues base) (hlen : base.length < 2 ^ 31)
include hrows hbase h2 hlen

/-- From the files of a table that counts its rows: the directory of a column is generated and the column created. -/
theorem exists_createColumn (columnName : Int) (order : List (Line × BitVec 32) → List (Line × BitVec 32))
    (fresh : Nat → Nat → Word) : ∃ files' t c,
      generate files (basePath ++ tableName ++ "/".toList ++ columnFile) dataType = some files' ∧
      ((Table.new tableName).initializeTable files' basePath).createColumn files' columnFile columnName order fresh =
        some t ∧
      Stored (baseType dataType) base c ∧
      t.getColumn columnName = some ((c.initializePageAlignedPartitions fresh).compressColumn
        (((baseType dataType).storedCodes base).map decimal)) := by
  obtain ⟨files', hgen⟩ := exists_generate hbase h2
  have hne : ∀ name : Line, "meta.dat".toList ≠ columnFile ++ '/' :: name := by
    intro name h
    have hslash : '/' ∈ "meta.dat".toList := h ▸ List.mem_append_right _ List.mem_cons_self
    exact absurd hslash (by decide)
  have hkept : files'.lines (basePath ++ tableName ++ "/".toList ++ "meta.dat".toList) =
      files.lines (basePath ++ tableName ++ "/".toList ++ "meta.dat".toList) := by
    apply lines_generate hbase hgen <;> rw [List.append_assoc (basePath ++ tableName ++ "/".toList)]
    · exact fun h => hne _ (List.append_cancel_left h)
    · exact fun h => hne _ (List.append_cancel_left h)
  have helements : ((Table.new tableName).initializeTable files' basePath).numOfElements = base.length := by
    show atoi ((files'.lines (basePath ++ tableName ++ "/".toList ++ "meta.dat".toList)).getD 0 []) = _
    rw [hkept, hrows, atoi_decimal _ hlen]
  have hnew : ((Table.new tableName).initializeTable files' basePath).columns.lookup columnName = none := rfl
  obtain ⟨t, c, hcreate, hstored, hget⟩ := createColumn_generate hbase hgen h2 helements hnew order fresh
  exact ⟨files', t, c, hgen, hcreate, hstored, hget⟩

end Path

end SdbFpga.Data
