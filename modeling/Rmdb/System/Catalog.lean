import Rmdb.Lib.TextStream
import Std.Data.ExtTreeMap.Lemmas

/-! The catalog of a database, as it is held in memory and as it is written to the metadata file. -/
namespace Rmdb.Catalog

open TextStream

inductive ColType where
  | int
  | float
  | string
  | double
deriving DecidableEq, Repr

structure ColMeta where
  tabName : String
  name : String
  type : ColType
  len : Int32
  offset : Int32
  index : Bool
deriving DecidableEq

structure IndexMeta where
  tabName : String
  colTotLen : Int32
  colNum : Int32
  cols : List ColMeta
  unique : Bool
deriving DecidableEq

structure TabMeta where
  name : String
  cols : List ColMeta
  indexes : List IndexMeta
  rowCount : Int32
deriving DecidableEq

structure DbMeta where
  name : String
  tabs : Std.ExtTreeMap String TabMeta
  nextTimestamp : Int64

def DbMeta.empty : DbMeta := ⟨"", ∅, 0⟩

/-! The writers. -/

def ColType.toInt : ColType → ℤ
  | .int => 0
  | .float => 1
  | .string => 2
  | .double => 3

def ColMeta.words (col : ColMeta) : List (List Char) :=
  [col.tabName.toList, col.name.toList, showInt col.type.toInt, showInt col.len.toInt, showInt col.offset.toInt,
    showBool col.index]

def ColMeta.write (col : ColMeta) : List Char := [' '].intercalate col.words

def IndexMeta.header (index : IndexMeta) : List (List Char) :=
  [index.tabName.toList, showInt index.colTotLen.toInt, showInt index.colNum.toInt, showBool index.unique]

def IndexMeta.write (index : IndexMeta) : List Char :=
  [' '].intercalate index.header ++ index.cols.flatMap fun col => '\n' :: col.write

def TabMeta.write (tab : TabMeta) : List Char :=
  tab.name.toList ++ ['\n'] ++ (showNat tab.cols.length ++ ['\n']) ++
    tab.cols.flatMap (fun col => col.write ++ ['\n']) ++
    (showNat tab.indexes.length ++ ['\n']) ++
    tab.indexes.flatMap (fun index => index.write ++ ['\n']) ++
    (showInt tab.rowCount.toInt ++ ['\n'])

/-- The tables follow in the order of their keys. -/
def DbMeta.write (db : DbMeta) : List Char :=
  [' '].intercalate [db.name.toList, showNat db.tabs.size, showInt db.nextTimestamp.toInt] ++ ['\n'] ++
    db.tabs.toList.flatMap fun entry => entry.2.write

/-! The readers. -/

def ColType.ofInt : ℤ → Option ColType
  | 0 => some .int
  | 1 => some .float
  | 2 => some .string
  | 3 => some .double
  | _ => none

def readColType : IStream ColType := do
  let v ← readInt 32
  ColType.ofInt v

def readColMeta : IStream ColMeta := do
  let tabName ← readString
  let name ← readString
  let type ← readColType
  let len ← readInt32
  let offset ← readInt32
  let index ← readBool
  return { tabName, name, type, len, offset, index }

def readIndexMeta : IStream IndexMeta := do
  let tabName ← readString
  let colTotLen ← readInt32
  let colNum ← readInt32
  let unique ← readBool
  let cols ← readMany readColMeta colNum.toInt.toNat
  return { tabName, colTotLen, colNum, cols, unique }

def readTabMeta : IStream TabMeta := do
  let name ← readString
  let n ← readSize
  let cols ← readMany readColMeta n
  let n ← readSize
  let indexes ← readMany readIndexMeta n
  let rowCount ← readInt32
  return { name, cols, indexes, rowCount }

def readTabs : ℕ → Std.ExtTreeMap String TabMeta → IStream (Std.ExtTreeMap String TabMeta)
  | 0, tabs => return tabs
  | n + 1, tabs => do
    let tab ← readTabMeta
    readTabs n (tabs.insert tab.name tab)

/-- The number of tables is read as an `int`. -/
def readDbMeta (db : DbMeta) : IStream DbMeta := do
  let name ← readString
  let tabNum ← readInt 32
  let nextTimestamp ← readInt64
  let tabs ← readTabs tabNum.toNat db.tabs
  return { name, tabs, nextTimestamp }

/-! What was written is read back. -/

structure ColMeta.Named (col : ColMeta) : Prop where
  tabName : Word col.tabName.toList
  name : Word col.name.toList

structure IndexMeta.WellFormed (index : IndexMeta) : Prop where
  tabName : Word index.tabName.toList
  cols : ∀ col ∈ index.cols, col.Named
  colNum : index.colNum.toInt = index.cols.length

/-- The size of a vector is a `size_t`. -/
structure TabMeta.WellFormed (tab : TabMeta) : Prop where
  name : Word tab.name.toList
  cols : ∀ col ∈ tab.cols, col.Named
  colsSize : tab.cols.length < 2 ^ 64
  indexes : ∀ index ∈ tab.indexes, index.WellFormed
  indexesSize : tab.indexes.length < 2 ^ 64

structure DbMeta.WellFormed (db : DbMeta) : Prop where
  name : Word db.name.toList
  key : ∀ entry ∈ db.tabs.toList, entry.1 = entry.2.name
  tabs : ∀ entry ∈ db.tabs.toList, entry.2.WellFormed

def IndexMeta.words (index : IndexMeta) : List (List Char) := index.header ++ index.cols.flatMap ColMeta.words

def TabMeta.words (tab : TabMeta) : List (List Char) :=
  tab.name.toList :: showNat tab.cols.length :: (tab.cols.flatMap ColMeta.words ++
    showNat tab.indexes.length :: (tab.indexes.flatMap IndexMeta.words ++ [showInt tab.rowCount.toInt]))

def DbMeta.words (db : DbMeta) : List (List Char) :=
  db.name.toList :: showNat db.tabs.size :: showInt db.nextTimestamp.toInt ::
    db.tabs.toList.flatMap fun entry => entry.2.words

theorem ColMeta.Named.text {col : ColMeta} (h : col.Named) : Text col.write col.words := by
  apply Text.intercalate
  · intro w hw
    simp only [ColMeta.words, List.mem_cons, List.not_mem_nil, or_false] at hw
    rcases hw with rfl | rfl | rfl | rfl | rfl | rfl
    · exact h.tabName
    · exact h.name
    · exact word_showInt
    · exact word_showInt
    · exact word_showInt
    · exact word_showBool
  · rfl

theorem IndexMeta.WellFormed.text {index : IndexMeta} (h : index.WellFormed) : Text index.write index.words := by
  have hheader : Text ([' '].intercalate index.header) index.header := by
    apply Text.intercalate
    · intro w hw
      simp only [IndexMeta.header, List.mem_cons, List.not_mem_nil, or_false] at hw
      rcases hw with rfl | rfl | rfl | rfl
      · exact h.tabName
      · exact word_showInt
      · exact word_showInt
      · exact word_showBool
    · rfl
  exact hheader.append_flatMap rfl fun col hcol => (h.cols col hcol).text

theorem TabMeta.WellFormed.line {tab : TabMeta} (h : tab.WellFormed) : Line tab.write tab.words := by
  have hname : Line (tab.name.toList ++ ['\n']) [tab.name.toList] := (Text.single h.name).line rfl
  have hcols : Line (tab.cols.flatMap fun col => col.write ++ ['\n']) (tab.cols.flatMap ColMeta.words) :=
    Line.flatMap fun col hcol => (h.cols col hcol).text.line rfl
  have hindexes : Line (tab.indexes.flatMap fun index => index.write ++ ['\n'])
      (tab.indexes.flatMap IndexMeta.words) :=
    Line.flatMap fun index hindex => (h.indexes index hindex).text.line rfl
  have hsize : ∀ n, Line (showNat n ++ ['\n']) [showNat n] := fun n => (Text.single word_showNat).line rfl
  have hrows : Line (showInt tab.rowCount.toInt ++ ['\n']) [showInt tab.rowCount.toInt] :=
    (Text.single word_showInt).line rfl
  have hline := ((((hname.append (hsize tab.cols.length)).append hcols).append
    (hsize tab.indexes.length)).append hindexes).append hrows
  simpa [TabMeta.words, TabMeta.write] using hline

theorem DbMeta.WellFormed.text {db : DbMeta} (h : db.WellFormed) : Text db.write db.words := by
  have hheader : Text ([' '].intercalate [db.name.toList, showNat db.tabs.size, showInt db.nextTimestamp.toInt])
      [db.name.toList, showNat db.tabs.size, showInt db.nextTimestamp.toInt] := by
    apply Text.intercalate
    · intro w hw
      simp only [List.mem_cons, List.not_mem_nil, or_false] at hw
      rcases hw with rfl | rfl | rfl
      · exact h.name
      · exact word_showNat
      · exact word_showInt
    · rfl
  have htabs : Line (db.tabs.toList.flatMap fun entry => entry.2.write)
      (db.tabs.toList.flatMap fun entry => entry.2.words) :=
    Line.flatMap fun entry hentry => (h.tabs entry hentry).line
  exact ((hheader.line rfl).append htabs).text

theorem reads_colType (type : ColType) : Reads readColType [showInt type.toInt] type := by
  have hint : Reads (readInt 32) [showInt type.toInt] type.toInt := by
    apply Reads.int 32
    · cases type <;> decide
    · cases type <;> decide
  apply hint.bind
  cases type with
  | int => exact .pure _
  | float => exact .pure _
  | string => exact .pure _
  | double => exact .pure _

theorem ColMeta.Named.reads {col : ColMeta} (h : col.Named) : Reads readColMeta col.words col :=
  (Reads.string h.tabName).bind <| (Reads.string h.name).bind <| (reads_colType col.type).bind <|
    (Reads.int32 col.len).bind <| (Reads.int32 col.offset).bind <| (Reads.bool col.index).bind (.pure col)

theorem IndexMeta.WellFormed.reads {index : IndexMeta} (h : index.WellFormed) :
    Reads readIndexMeta index.words index := by
  have hlen : index.colNum.toInt.toNat = index.cols.length := by rw [h.colNum, Int.toNat_natCast]
  have hcols : Reads (readMany readColMeta index.colNum.toInt.toNat) (index.cols.flatMap ColMeta.words)
      index.cols := by
    rw [hlen]
    exact .many fun col hcol => (h.cols col hcol).reads
  have hrest : Reads (do let cols ← readMany readColMeta index.colNum.toInt.toNat; return { index with cols })
      (index.cols.flatMap ColMeta.words ++ []) index := hcols.bind (.pure index)
  rw [List.append_nil] at hrest
  exact (Reads.string h.tabName).bind <| (Reads.int32 index.colTotLen).bind <|
    (Reads.int32 index.colNum).bind <| (Reads.bool index.unique).bind hrest

theorem TabMeta.WellFormed.reads {tab : TabMeta} (h : tab.WellFormed) : Reads readTabMeta tab.words tab :=
  (Reads.string h.name).bind <| (Reads.size h.colsSize).bind <|
    (Reads.many fun col hcol => (h.cols col hcol).reads).bind <| (Reads.size h.indexesSize).bind <|
    (Reads.many fun index hindex => (h.indexes index hindex).reads).bind <|
    (Reads.int32 tab.rowCount).bind (.pure tab)

theorem reads_tabs (tabs : List TabMeta) (h : ∀ tab ∈ tabs, tab.WellFormed)
    (m : Std.ExtTreeMap String TabMeta) :
    Reads (readTabs tabs.length m) (tabs.flatMap TabMeta.words)
      (tabs.foldl (fun m tab => m.insert tab.name tab) m) := by
  induction tabs generalizing m with
  | nil => exact .pure m
  | cons tab tabs ih =>
    have hrest := ih (fun other hother => h other (List.mem_cons_of_mem tab hother)) (m.insert tab.name tab)
    exact (h tab List.mem_cons_self).reads.bind hrest

/-- A map is the map of its own entries. -/
theorem ofList_toList {α : Type} (m : Std.ExtTreeMap String α) : Std.ExtTreeMap.ofList m.toList = m := by
  apply Std.ExtTreeMap.ext_getElem?
  intro k
  cases hk : m[k]? with
  | none =>
    apply Std.ExtTreeMap.getElem?_ofList_of_contains_eq_false
    rw [Std.ExtTreeMap.map_fst_toList_eq_keys, Std.ExtTreeMap.contains_keys,
      Std.ExtTreeMap.contains_eq_isSome_getElem?, hk]
    rfl
  | some v =>
    have hmem : (k, v) ∈ m.toList := Std.ExtTreeMap.mem_toList_iff_getElem?_eq_some.mpr hk
    exact Std.ExtTreeMap.getElem?_ofList_of_mem (Std.compare_self) m.distinct_keys_toList hmem

theorem DbMeta.WellFormed.foldl_tabs {db : DbMeta} (h : db.WellFormed) :
    (db.tabs.toList.map (·.2)).foldl (fun m tab => m.insert tab.name tab) ∅ = db.tabs := by
  calc (db.tabs.toList.map (·.2)).foldl (fun m tab => m.insert tab.name tab) ∅
    _ = db.tabs.toList.foldl (fun m entry => m.insert entry.1 entry.2) ∅ := by
      rw [List.foldl_map]
      apply List.foldl_ext
      intro m entry hentry
      rw [h.key entry hentry]
    _ = .ofList db.tabs.toList := Std.ExtTreeMap.ofList_eq_foldl.symm
    _ = db.tabs := ofList_toList db.tabs

theorem DbMeta.WellFormed.reads_tabs {db : DbMeta} (h : db.WellFormed) :
    Reads (readTabs db.tabs.size ∅) (db.tabs.toList.flatMap fun entry => entry.2.words) db.tabs := by
  have htabs := Catalog.reads_tabs (db.tabs.toList.map (·.2)) (fun tab htab => by
    obtain ⟨entry, hentry, rfl⟩ := List.mem_map.mp htab
    exact h.tabs entry hentry) ∅
  rwa [h.foldl_tabs, List.length_map, Std.ExtTreeMap.length_toList, List.flatMap_map] at htabs

theorem DbMeta.WellFormed.reads {db : DbMeta} (h : db.WellFormed) (hsize : db.tabs.size < 2 ^ 31) :
    Reads (readDbMeta .empty) db.words db := by
  have hlow : -2 ^ (32 - 1) ≤ (db.tabs.size : ℤ) := by omega
  have hhigh : (db.tabs.size : ℤ) < 2 ^ (32 - 1) := by omega
  have hcount := Reads.int 32 hlow hhigh
  rw [showInt_natCast] at hcount
  have hrest : Reads (do let tabs ← readTabs db.tabs.size ∅; return { db with tabs })
      ((db.tabs.toList.flatMap fun entry => entry.2.words) ++ []) db := h.reads_tabs.bind (.pure db)
  rw [List.append_nil] at hrest
  apply (Reads.string h.name).bind
  apply hcount.bind
  exact (Reads.int64 db.nextTimestamp).bind hrest

theorem DbMeta.WellFormed.fails {db : DbMeta} (h : db.WellFormed) (hsize : 2 ^ 31 ≤ db.tabs.size) :
    Fails (readDbMeta .empty) db.words := by
  have hhigh : (2 : ℤ) ^ (32 - 1) ≤ db.tabs.size := by omega
  have hcount := Reads.int_fails 32 hhigh
  rw [showInt_natCast] at hcount
  apply (Reads.string h.name).bind_fails
  exact hcount.bind

/-- What `operator>>` makes of the text that `operator<<` writes. -/
def DbMeta.ReadBack (db : DbMeta) : Prop := ∃ rest, readDbMeta .empty db.write = some (db, rest)

theorem DbMeta.WellFormed.words_append_nil {db : DbMeta} (h : db.WellFormed) : Text db.write (db.words ++ []) := by
  rw [List.append_nil]
  exact h.text

theorem DbMeta.WellFormed.not_readBack {db : DbMeta} (h : db.WellFormed) (hsize : 2 ^ 31 ≤ db.tabs.size) :
    ¬db.ReadBack := by
  rintro ⟨rest, hread⟩
  rw [h.fails hsize _ _ h.words_append_nil] at hread
  exact absurd hread.symm (Option.some_ne_none _)

/-- A catalog comes back as it was written unless its tables are too many for an `int`. -/
theorem DbMeta.WellFormed.readBack_iff {db : DbMeta} (h : db.WellFormed) : db.ReadBack ↔ db.tabs.size < 2 ^ 31 := by
  constructor
  · intro hread
    by_contra hsize
    exact h.not_readBack (not_lt.mp hsize) hread
  · intro hsize
    obtain ⟨rest, hread, -⟩ := h.reads hsize _ _ h.words_append_nil
    exact ⟨rest, hread⟩

def numberedTable (i : ℕ) : TabMeta :=
  let id : ColMeta := ⟨toString i, "id", .int, 4, 0, true⟩
  ⟨toString i, [id], [⟨toString i, 4, 1, [id], true⟩], 0⟩

/-- Tables that are called by the first numbers, with a column and an index each. -/
def numberedTables (n : ℕ) : DbMeta :=
  ⟨"db", .ofList ((List.range n).map fun i => (toString i, numberedTable i)), 0⟩

theorem word_toString (i : ℕ) : Word (toString i).toList := word_showNat

theorem wellFormed_numberedTable (i : ℕ) : (numberedTable i).WellFormed := by
  have hid : ColMeta.Named ⟨toString i, "id", .int, 4, 0, true⟩ :=
    ⟨word_toString i, (⟨by decide, by simp [isSpace]⟩ : Word "id".toList)⟩
  have hcols : ∀ col ∈ (numberedTable i).cols, col.Named := by
    intro col hcol
    exact List.mem_singleton.mp hcol ▸ hid
  refine ⟨word_toString i, hcols, by simp [numberedTable], ?_, by simp [numberedTable]⟩
  intro index hindex
  have hindex : index = ⟨toString i, 4, 1, _, true⟩ := List.mem_singleton.mp hindex
  subst hindex
  exact ⟨word_toString i, hcols, rfl⟩

theorem mem_of_mem_ofList {α : Type} {l : List (String × α)} {entry : String × α}
    (hkeys : l.Pairwise fun a b => ¬compare a.1 b.1 = .eq)
    (h : entry ∈ (Std.ExtTreeMap.ofList l).toList) : entry ∈ l := by
  obtain ⟨k, v⟩ := entry
  have hk : (Std.ExtTreeMap.ofList l)[k]? = some v := Std.ExtTreeMap.mem_toList_iff_getElem?_eq_some.mp h
  have hmem : k ∈ Std.ExtTreeMap.ofList l := by
    rw [Std.ExtTreeMap.mem_iff_isSome_getElem?, hk]
    rfl
  rw [Std.ExtTreeMap.mem_ofList, List.contains_iff_mem] at hmem
  obtain ⟨⟨k', v'⟩, hentry, hkey⟩ := List.mem_map.mp hmem
  have hkey : k' = k := hkey
  subst hkey
  have := Std.ExtTreeMap.getElem?_ofList_of_mem Std.compare_self hkeys hentry
  rw [hk] at this
  exact Option.some.inj this ▸ hentry

theorem pairwise_numbered (n : ℕ) :
    ((List.range n).map fun i => (toString i, numberedTable i)).Pairwise fun a b => ¬compare a.1 b.1 = .eq := by
  rw [List.pairwise_map]
  apply List.nodup_range.imp
  intro i j hne heq
  have htext : (toString i).toList = (toString j).toList := congrArg String.toList (Std.compare_eq_iff_eq.mp heq)
  have : Nat.ofDigitChars 10 (showNat i) 0 = Nat.ofDigitChars 10 (showNat j) 0 := by
    exact congrArg (Nat.ofDigitChars 10 · 0) htext
  rw [ofDigitChars_showNat, ofDigitChars_showNat] at this
  exact hne this

theorem wellFormed_numberedTables (n : ℕ) : (numberedTables n).WellFormed := by
  have hentry : ∀ entry ∈ (numberedTables n).tabs.toList, ∃ i, (toString i, numberedTable i) = entry := by
    intro entry hentry
    obtain ⟨i, -, hi⟩ := List.mem_map.mp (mem_of_mem_ofList (pairwise_numbered n) hentry)
    exact ⟨i, hi⟩
  have hname : Word "db".toList := ⟨by decide, by simp [isSpace]⟩
  refine ⟨hname, ?_, ?_⟩
  · intro entry h
    obtain ⟨i, rfl⟩ := hentry entry h
    rfl
  · intro entry h
    obtain ⟨i, rfl⟩ := hentry entry h
    exact wellFormed_numberedTable i

theorem size_numberedTables (n : ℕ) : (numberedTables n).tabs.size = n := by
  have := Std.ExtTreeMap.size_ofList (pairwise_numbered n)
  simpa [numberedTables] using this

theorem readBack_numberedTables : (numberedTables 3).ReadBack := by
  have hsize : (numberedTables 3).tabs.size < 2 ^ 31 := by
    rw [size_numberedTables]
    decide
  exact (wellFormed_numberedTables 3).readBack_iff.mpr hsize

theorem not_readBack_numberedTables :
    (numberedTables (2 ^ 31)).WellFormed ∧ ¬(numberedTables (2 ^ 31)).ReadBack := by
  refine ⟨wellFormed_numberedTables _, (wellFormed_numberedTables _).not_readBack ?_⟩
  rw [size_numberedTables]

end Rmdb.Catalog
