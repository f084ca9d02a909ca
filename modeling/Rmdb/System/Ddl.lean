import Rmdb.System.Catalog
import Rmdb.Storage.DiskManager
import Rmdb.Record.Heap
import Rmdb.Index.Node
import Rmdb.Lib.Runs

/-! Tables and indexes come and go: the catalog, the open files and what they are called. -/
namespace Rmdb.Catalog

open Program

structure ColDef where
  name : String
  type : ColType
  len : Int32
deriving DecidableEq

inductive SmError where
  | tableNotFound (tab : String)
  | tableExists (tab : String)
  | invalidValueCount
  | columnNotFound (col : String)
  | invalidRecordSize (size : ℤ)
  | invalidColLength (len : ℤ)
  | indexExists (tab : String) (cols : List String)
  | indexNotFound (tab : String) (cols : List String)
  | uniqueIndexViolation
  | disk (e : DiskError)
  | readPage
  | crash
deriving DecidableEq

/-- The handles are known by the names of their files. -/
structure SmManager where
  db : DbMeta
  fhs : String → Option ℤ
  ihs : String → Option ℤ
  disk : DiskManager

abbrev SmM := ExceptT SmError (StateM SmManager)

def check (p : Prop) [Decidable p] (e : SmError) : SmM Unit := if p then return else throw e

/-! Files. -/

def onDisk {α : Type} (x : DiskManager.DiskM α) : SmM α := do
  let s ← get
  set { s with disk := (runFrom x s.disk).2 }
  MonadExcept.ofExcept ((runFrom x s.disk).1.mapError .disk)

/-- The longest name that the file system takes. -/
def nameMax : ℕ := 255

/-- `open` fails for a name that is too long. -/
def createFile (path : String) : SmM Unit := do
  let s ← get
  check (s.disk.isFile path ∨ path.utf8ByteSize ≤ nameMax) (.disk .unixError)
  onDisk (DiskManager.createFile path)

/-- The handle reads the header of its file, which fails for the descriptor of a file that was open
already. -/
def openHandle (path : String) (fd : ℤ) : SmM ℤ := do
  let fd ← onDisk (DiskManager.openFile path fd)
  check (0 ≤ fd) .readPage
  return fd

def rmCreateFile (path : String) (recordSize : ℤ) (fd : ℤ) : SmM Unit := do
  check (1 ≤ recordSize ∧ recordSize ≤ rmMaxRecordSize) (.invalidRecordSize recordSize)
  createFile path
  let fd ← onDisk (DiskManager.openFile path fd)
  check (0 ≤ fd) (.disk .fileNotFound)
  onDisk (DiskManager.closeFile fd)

def getIndexName (tab : String) (indexCols : List String) : String :=
  indexCols.foldl (fun name col => name ++ "_" ++ col) tab ++ ".idx"

def IndexMeta.colNames (index : IndexMeta) : List String := index.cols.map (·.name)

def totLen (cols : List ColMeta) : Int32 := (cols.map (·.len)).sum

def ixCreateIndex (tab : String) (cols : List ColMeta) (fd : ℤ) : SmM Unit := do
  createFile (getIndexName tab (cols.map (·.name)))
  let fd ← onDisk (DiskManager.openFile (getIndexName tab (cols.map (·.name))) fd)
  check ((totLen cols).toInt ≤ ixMaxColLen) (.invalidColLength (totLen cols).toInt)
  onDisk (DiskManager.closeFile fd)

def ixDestroyIndex (tab : String) (cols : List ColMeta) : SmM Unit := do
  let s ← get
  if s.disk.isFile (getIndexName tab (cols.map (·.name))) then
    onDisk (DiskManager.destroyFile (getIndexName tab (cols.map (·.name))))
  else return

/-! Tables. -/

def TabMeta.isCol (tab : TabMeta) (colName : String) : Bool := tab.cols.any (·.name = colName)

def IndexMeta.isOn (index : IndexMeta) (colNames : List String) : Bool :=
  index.colNum.toInt = colNames.length ∧ ∀ p ∈ index.cols.zip colNames, p.1.name = p.2

def TabMeta.isIndex (tab : TabMeta) (colNames : List String) : Bool := tab.indexes.any (·.isOn colNames)

/-- The iterator that `get_col` returns, to set the flag of its column. -/
def setIndexFlag (flag : Bool) (colName : String) : List ColMeta → Except SmError (List ColMeta)
  | [] => throw (.columnNotFound colName)
  | col :: cols =>
    if col.name = colName then return { col with index := flag } :: cols
    else return col :: (← setIndexFlag flag colName cols)

def TabMeta.getCol (tab : TabMeta) (colName : String) : Except SmError ColMeta :=
  match tab.cols.find? (·.name = colName) with
  | some col => return col
  | none => throw (.columnNotFound colName)

def getTable (tab : String) : SmM TabMeta := do
  let s ← get
  match s.db.tabs[tab]? with
  | some tabMeta => return tabMeta
  | none => throw (.tableNotFound tab)

def setTabs (f : Std.ExtTreeMap String TabMeta → Std.ExtTreeMap String TabMeta) : SmM Unit :=
  modify fun s => { s with db := { s.db with tabs := f s.db.tabs } }

/-- The name of a column that comes again. -/
def repeatedName : List String → List String → Option String
  | _, [] => none
  | seen, name :: names => if name ∈ seen then some name else repeatedName (name :: seen) names

def colMetas (tab : String) : Int32 → List ColDef → List ColMeta
  | _, [] => []
  | offset, col :: cols => ⟨tab, col.name, col.type, col.len, offset, false⟩ :: colMetas tab (offset + col.len) cols

def newTable (tab : String) (colDefs : List ColDef) : TabMeta := ⟨tab, colMetas tab 0 colDefs, [], 0⟩

/-- The record file is created and opened under descriptors from the operating system. -/
def openTable (tab : String) (colDefs : List ColDef) (recordSize fd fd' : ℤ) : SmM Unit := do
  rmCreateFile tab recordSize fd
  setTabs (·.insert tab (newTable tab colDefs))
  let fd ← openHandle tab fd'
  modify fun s => { s with fhs := Function.update s.fhs tab ((s.fhs tab).or (some fd)) }

def createTable (tab : String) (colDefs : List ColDef) (mvcc : Bool) (fd fd' : ℤ) : SmM Unit := do
  check (tab ≠ "") (.tableNotFound "Table name cannot be empty")
  let s ← get
  check (s.db.tabs[tab]? = none) (.tableExists tab)
  check (colDefs ≠ []) .invalidValueCount
  let repeated := repeatedName [] (colDefs.map (·.name))
  check (repeated = none) (.columnNotFound (repeated.getD ""))
  let recordSize : ℤ := (colDefs.map ColDef.len).sum.toInt + if mvcc then tupleMetaSize else 0
  tryCatch (openTable tab colDefs recordSize fd fd') fun e => do
    setTabs (·.erase tab)
    modify fun s => { s with fhs := Function.update s.fhs tab none }
    throw e

def closeIndexHandle (indexName : String) : SmM Unit := do
  let s ← get
  match s.ihs indexName with
  | none => return
  | some fd =>
    onDisk (DiskManager.closeFile fd)
    modify fun s => { s with ihs := Function.update s.ihs indexName none }

def closeFileHandle (tab : String) : SmM Unit := do
  let s ← get
  match s.fhs tab with
  | none => return
  | some fd =>
    onDisk (DiskManager.closeFile fd)
    modify fun s => { s with fhs := Function.update s.fhs tab none }

def dropTable (tab : String) : SmM Unit := do
  let tabMeta ← getTable tab
  tabMeta.indexes.forM fun index => do
    closeIndexHandle (getIndexName tab index.colNames)
    ixDestroyIndex tab index.cols
  closeFileHandle tab
  onDisk (DiskManager.destroyFile tab)
  setTabs (·.erase tab)

/-- `filled` is what the insertion of the rows into the index throws, if anything. -/
def fillIndex (tab : String) (tabMeta : TabMeta) (cols : List ColMeta) (filled : Option SmError) : SmM Unit := do
  let s ← get
  check (s.fhs tab ≠ none) .crash
  match filled with
  | none => return
  | some .uniqueIndexViolation =>
    modify fun s => { s with ihs := Function.update s.ihs (getIndexName tab (cols.map (·.name))) none }
    ixDestroyIndex tab cols
    setTabs (·.insert tab { tabMeta with indexes := tabMeta.indexes.dropLast })
    throw .uniqueIndexViolation
  | some e => throw e

/-- `create_index` up to the first row. -/
def registerIndex (tab : String) (colNames : List String) (unique : Bool) (fd fd' : ℤ) :
    SmM (TabMeta × List ColMeta) := do
  let tabMeta ← getTable tab
  check (¬tabMeta.isIndex colNames) (.indexExists tab colNames)
  colNames.forM fun colName => check (tabMeta.isCol colName) (.columnNotFound colName)
  let cols ← MonadExcept.ofExcept (colNames.mapM tabMeta.getCol)
  let s ← get
  check (s.ihs (getIndexName tab colNames) = none) (.indexExists tab colNames)
  ixCreateIndex tab cols fd
  let index : IndexMeta := ⟨tab, totLen cols, .ofNat cols.length, cols, unique⟩
  let fd ← openHandle (getIndexName tab index.colNames) fd'
  modify fun s => { s with ihs := Function.update s.ihs (getIndexName tab colNames) (some fd) }
  let tabCols ← MonadExcept.ofExcept (colNames.foldlM (fun cols name => setIndexFlag true name cols) tabMeta.cols)
  let tabMeta := { tabMeta with cols := tabCols, indexes := tabMeta.indexes ++ [index] }
  setTabs (·.insert tab tabMeta)
  return (tabMeta, cols)

def createIndex (tab : String) (colNames : List String) (unique : Bool) (fd fd' : ℤ) (filled : Option SmError) :
    SmM Unit := do
  let registered ← registerIndex tab colNames unique fd fd'
  fillIndex tab registered.1 registered.2 filled

/-- The flag of a column that no index has any more. -/
def unsetIndexFlag (indexes : List IndexMeta) (cols : List ColMeta) (colName : String) :
    Except SmError (List ColMeta) :=
  if ∃ index ∈ indexes, colName ∈ index.colNames then return cols else setIndexFlag false colName cols

def dropIndex (tab : String) (colNames : List String) : SmM Unit := do
  let tabMeta ← getTable tab
  match tabMeta.indexes.find? (·.isOn colNames) with
  | none => throw (.indexNotFound tab colNames)
  | some index =>
    closeIndexHandle (getIndexName tab colNames)
    ixDestroyIndex tab index.cols
    let indexes := tabMeta.indexes.eraseP (·.isOn colNames)
    let cols ← MonadExcept.ofExcept (colNames.foldlM (unsetIndexFlag indexes) tabMeta.cols)
    setTabs (·.insert tab { tabMeta with cols, indexes })

/-! What the calls that return have done. -/

variable {s s' : SmManager} {tab : String} {colDefs : List ColDef} {colNames : List String} {mvcc unique : Bool}
  {fd fd' : ℤ} {filled : Option SmError} {path : String} {cols cols' : List ColMeta} {flag : Bool} {name : String}

theorem check_ok {p : Prop} [Decidable p] {e : SmError} (h : runFrom (check p e) s = (.ok (), s')) : p ∧ s' = s := by
  unfold check at h
  split_ifs at h with hp
  · exact ⟨hp, (congrArg Prod.snd h).symm⟩
  · exact absurd (congrArg Prod.fst h) nofun

theorem checks_ok {α : Type} {l : List α} {p : α → Prop} [DecidablePred p] {e : α → SmError}
    (h : runFrom (l.forM fun a => check (p a) (e a)) s = (.ok (), s')) : s' = s := by
  induction l with
  | nil =>
    cases h
    rfl
  | cons a l ih =>
    obtain ⟨_, _, hfirst, hrest⟩ := runFrom_bind_eq_ok.mp h
    obtain ⟨-, rfl⟩ := check_ok hfirst
    exact ih hrest

theorem ofExcept_ok {α : Type} {x : Except SmError α} {a : α}
    (h : runFrom (MonadExcept.ofExcept x : SmM α) s = (.ok a, s')) : x = .ok a ∧ s' = s := by
  rw [runFrom_ofExcept] at h
  exact ⟨congrArg Prod.fst h, (congrArg Prod.snd h).symm⟩

theorem runFrom_onDisk {α : Type} (x : DiskManager.DiskM α) : runFrom (onDisk x) s =
    ((runFrom x s.disk).1.mapError .disk, { s with disk := (runFrom x s.disk).2 }) := by
  change runFrom (MonadExcept.ofExcept _) { s with disk := (runFrom x s.disk).2 } = _
  rw [runFrom_ofExcept]

theorem onDisk_ok {α : Type} {x : DiskManager.DiskM α} {a : α} (h : runFrom (onDisk x) s = (.ok a, s')) :
    (runFrom x s.disk).1 = .ok a ∧ s' = { s with disk := (runFrom x s.disk).2 } := by
  rw [runFrom_onDisk] at h
  refine ⟨?_, (congrArg Prod.snd h).symm⟩
  have hx := congrArg Prod.fst h
  cases hr : (runFrom x s.disk).1 with
  | error e => simp [hr, Except.mapError] at hx
  | ok b => simpa [hr, Except.mapError] using hx

/-- The file is new, and its name not too long. -/
theorem createFile_ok (h : runFrom (createFile path) s = (.ok (), s')) :
    s.disk.isFile path = false ∧ path.utf8ByteSize ≤ nameMax ∧ ∃ disk, s' = { s with disk } := by
  obtain ⟨_, _, ⟨⟩, hfile⟩ := runFrom_bind_eq_ok.mp h
  obtain ⟨_, _, hcheck, hcreate⟩ := runFrom_bind_eq_ok.mp hfile
  obtain ⟨hname, hsame⟩ := check_ok hcheck
  rw [hsame] at hcreate
  obtain ⟨hresult, rfl⟩ := onDisk_ok hcreate
  have hnew : s.disk.isFile path = false := by
    by_contra hexists
    rw [Bool.not_eq_false] at hexists
    simp [DiskManager.createFile, runFrom_bind, hexists] at hresult
  exact ⟨hnew, hname.resolve_left (by simp [hnew]), _, rfl⟩

theorem openHandle_ok (h : runFrom (openHandle path fd) s = (.ok fd', s')) : ∃ disk, s' = { s with disk } := by
  obtain ⟨_, _, hopen, hfd⟩ := runFrom_bind_eq_ok.mp h
  obtain ⟨-, rfl⟩ := onDisk_ok hopen
  obtain ⟨_, _, hcheck, ⟨⟩⟩ := runFrom_bind_eq_ok.mp hfd
  obtain ⟨-, rfl⟩ := check_ok hcheck
  exact ⟨_, rfl⟩

/-- The handle's file is open under its descriptor. -/
theorem openHandle_opened (h : runFrom (openHandle path fd) s = (.ok fd', s')) :
    s'.disk.path2fd path = some fd' ∧ s'.disk.isFile path := by
  obtain ⟨opened, _, hopen, hfd⟩ := runFrom_bind_eq_ok.mp h
  obtain ⟨hresult, rfl⟩ := onDisk_ok hopen
  obtain ⟨_, _, hcheck, ⟨⟩⟩ := runFrom_bind_eq_ok.mp hfd
  obtain ⟨hnonneg, rfl⟩ := check_ok hcheck
  simp only [DiskManager.openFile, runFrom_bind, runFrom_get] at hresult ⊢
  cases hdir : s.disk.dir path with
  | none => simp [hdir] at hresult
  | some inode =>
    cases hfree : s.disk.path2fd path with
    | some other =>
      simp only [hdir, hfree, runFrom_bind, runFrom_get, runFrom_pure, Except.ok.injEq] at hresult
      omega
    | none =>
      simp only [hdir, hfree, runFrom_bind, runFrom_get, runFrom_modify, runFrom_pure, Except.ok.injEq] at hresult ⊢
      simp [DiskManager.isFile, hdir, hresult]

theorem rmCreateFile_ok {recordSize : ℤ} (h : runFrom (rmCreateFile path recordSize fd) s = (.ok (), s')) :
    ∃ disk, s' = { s with disk } := by
  obtain ⟨_, _, hsize, h₁⟩ := runFrom_bind_eq_ok.mp h
  obtain ⟨-, rfl⟩ := check_ok hsize
  obtain ⟨_, _, hcreate, h₂⟩ := runFrom_bind_eq_ok.mp h₁
  obtain ⟨-, -, disk, rfl⟩ := createFile_ok hcreate
  obtain ⟨_, _, hopen, h₃⟩ := runFrom_bind_eq_ok.mp h₂
  obtain ⟨-, rfl⟩ := onDisk_ok hopen
  obtain ⟨_, _, hfd, hclose⟩ := runFrom_bind_eq_ok.mp h₃
  obtain ⟨-, rfl⟩ := check_ok hfd
  obtain ⟨-, rfl⟩ := onDisk_ok hclose
  exact ⟨_, rfl⟩

theorem ixCreateIndex_ok (h : runFrom (ixCreateIndex tab cols fd) s = (.ok (), s')) :
    s.disk.isFile (getIndexName tab (cols.map (·.name))) = false ∧
      (getIndexName tab (cols.map (·.name))).utf8ByteSize ≤ nameMax ∧ ∃ disk, s' = { s with disk } := by
  obtain ⟨_, _, hcreate, h₁⟩ := runFrom_bind_eq_ok.mp h
  obtain ⟨hnew, hname, disk, rfl⟩ := createFile_ok hcreate
  obtain ⟨_, _, hopen, h₂⟩ := runFrom_bind_eq_ok.mp h₁
  obtain ⟨-, rfl⟩ := onDisk_ok hopen
  obtain ⟨_, _, hlen, hclose⟩ := runFrom_bind_eq_ok.mp h₂
  obtain ⟨-, rfl⟩ := check_ok hlen
  obtain ⟨-, rfl⟩ := onDisk_ok hclose
  exact ⟨hnew, hname, _, rfl⟩

theorem ixDestroyIndex_ok (h : runFrom (ixDestroyIndex tab cols) s = (.ok (), s')) :
    ∃ disk, s' = { s with disk } := by
  obtain ⟨_, _, ⟨⟩, hdestroy⟩ := runFrom_bind_eq_ok.mp h
  split_ifs at hdestroy
  · obtain ⟨-, rfl⟩ := onDisk_ok hdestroy
    exact ⟨_, rfl⟩
  · cases hdestroy
    exact ⟨_, rfl⟩

theorem getTable_ok {tabMeta : TabMeta} (h : runFrom (getTable tab) s = (.ok tabMeta, s')) :
    s.db.tabs[tab]? = some tabMeta ∧ s' = s := by
  obtain ⟨_, _, ⟨⟩, hmatch⟩ := runFrom_bind_eq_ok.mp h
  split at hmatch
  · next found htab =>
    cases hmatch
    exact ⟨htab, rfl⟩
  · exact absurd (congrArg Prod.fst hmatch) nofun

theorem closeIndexHandle_ok (h : runFrom (closeIndexHandle name) s = (.ok (), s')) :
    ∃ disk, s' = { s with ihs := Function.update s.ihs name none, disk } := by
  obtain ⟨_, _, ⟨⟩, hmatch⟩ := runFrom_bind_eq_ok.mp h
  split at hmatch
  · next hnone =>
    cases hmatch
    refine ⟨s.disk, ?_⟩
    rw [Function.update_eq_self_iff.mpr hnone.symm]
  · obtain ⟨_, _, hclose, ⟨⟩⟩ := runFrom_bind_eq_ok.mp hmatch
    obtain ⟨-, rfl⟩ := onDisk_ok hclose
    exact ⟨_, rfl⟩

theorem closeFileHandle_ok (h : runFrom (closeFileHandle tab) s = (.ok (), s')) :
    ∃ disk, s' = { s with fhs := Function.update s.fhs tab none, disk } := by
  obtain ⟨_, _, ⟨⟩, hmatch⟩ := runFrom_bind_eq_ok.mp h
  split at hmatch
  · next hnone =>
    cases hmatch
    refine ⟨s.disk, ?_⟩
    rw [Function.update_eq_self_iff.mpr hnone.symm]
  · obtain ⟨_, _, hclose, ⟨⟩⟩ := runFrom_bind_eq_ok.mp hmatch
    obtain ⟨-, rfl⟩ := onDisk_ok hclose
    exact ⟨_, rfl⟩

theorem repeatedName_eq_none {seen names : List String} :
    repeatedName seen names = none ↔ names.Nodup ∧ ∀ name ∈ names, name ∉ seen := by
  induction names generalizing seen with
  | nil => simp [repeatedName]
  | cons name names ih =>
    rw [repeatedName]
    split_ifs with hseen
    · refine iff_of_false nofun fun h => h.2 name List.mem_cons_self hseen
    · rw [ih, List.nodup_cons]
      constructor
      · intro ⟨hnodup, hfresh⟩
        refine ⟨⟨fun hmem => hfresh name hmem List.mem_cons_self, hnodup⟩, ?_⟩
        intro other hother
        cases List.mem_cons.mp hother with
        | inl heq => exact heq ▸ hseen
        | inr hmem => exact fun h => hfresh other hmem (List.mem_cons_of_mem _ h)
      · intro ⟨⟨hname, hnodup⟩, hfresh⟩
        refine ⟨hnodup, ?_⟩
        intro other hother h
        cases List.mem_cons.mp h with
        | inl heq => exact hname (heq ▸ hother)
        | inr hmem => exact hfresh other (List.mem_cons_of_mem _ hother) hmem

theorem openTable_ok {recordSize : ℤ} (h : runFrom (openTable tab colDefs recordSize fd fd') s = (.ok (), s')) :
    ∃ fd disk, s' = { s with
      db := { s.db with tabs := s.db.tabs.insert tab (newTable tab colDefs) }
      fhs := Function.update s.fhs tab ((s.fhs tab).or (some fd)), disk } := by
  obtain ⟨_, _, hcreate, h₁⟩ := runFrom_bind_eq_ok.mp h
  obtain ⟨disk, rfl⟩ := rmCreateFile_ok hcreate
  obtain ⟨_, _, ⟨⟩, h₂⟩ := runFrom_bind_eq_ok.mp h₁
  obtain ⟨fd, _, hopen, ⟨⟩⟩ := runFrom_bind_eq_ok.mp h₂
  obtain ⟨disk, rfl⟩ := openHandle_ok hopen
  exact ⟨fd, disk, rfl⟩

theorem createTable_ok (h : runFrom (createTable tab colDefs mvcc fd fd') s = (.ok (), s')) :
    s.db.tabs[tab]? = none ∧ (colDefs.map (·.name)).Nodup ∧ ∃ fd disk, s' = { s with
      db := { s.db with tabs := s.db.tabs.insert tab (newTable tab colDefs) }
      fhs := Function.update s.fhs tab ((s.fhs tab).or (some fd)), disk } := by
  obtain ⟨_, _, hname, h₁⟩ := runFrom_bind_eq_ok.mp h
  obtain ⟨-, rfl⟩ := check_ok hname
  obtain ⟨_, _, ⟨⟩, h₂⟩ := runFrom_bind_eq_ok.mp h₁
  obtain ⟨_, _, hnew, h₃⟩ := runFrom_bind_eq_ok.mp h₂
  obtain ⟨hisNew, rfl⟩ := check_ok hnew
  obtain ⟨_, _, hdefs, h₄⟩ := runFrom_bind_eq_ok.mp h₃
  obtain ⟨-, rfl⟩ := check_ok hdefs
  obtain ⟨_, _, hrepeated, htry⟩ := runFrom_bind_eq_ok.mp h₄
  obtain ⟨hnames, rfl⟩ := check_ok hrepeated
  refine ⟨hisNew, (repeatedName_eq_none.mp hnames).1, ?_⟩
  dsimp only at htry
  rw [runFrom_tryCatch] at htry
  split at htry
  · next hopen =>
    cases htry
    exact openTable_ok hopen
  · exact absurd (congrArg Prod.fst htry) nofun

/-- The handles of the indexes of a table are closed one after the other. -/
theorem dropIndexes_ok {indexes : List IndexMeta}
    (h : runFrom (indexes.forM fun index => do
      closeIndexHandle (getIndexName tab index.colNames)
      ixDestroyIndex tab index.cols) s = (.ok (), s')) :
    ∃ disk, s' = { s with
      ihs := fun name => if ∃ index ∈ indexes, getIndexName tab index.colNames = name then none else s.ihs name
      disk } := by
  induction indexes generalizing s with
  | nil =>
    cases h
    exact ⟨s'.disk, by simp⟩
  | cons index indexes ih =>
    obtain ⟨_, _, hfirst, hrest⟩ := runFrom_bind_eq_ok.mp h
    obtain ⟨_, _, hclose, hdestroy⟩ := runFrom_bind_eq_ok.mp hfirst
    obtain ⟨disk, rfl⟩ := closeIndexHandle_ok hclose
    obtain ⟨disk, rfl⟩ := ixDestroyIndex_ok hdestroy
    obtain ⟨disk, rfl⟩ := ih hrest
    refine ⟨disk, ?_⟩
    congr 1
    funext name
    by_cases heq : getIndexName tab index.colNames = name
    · subst heq
      simp
    · simp [heq, Function.update_of_ne (Ne.symm heq)]

theorem dropTable_ok (h : runFrom (dropTable tab) s = (.ok (), s')) :
    ∃ tabMeta disk, s.db.tabs[tab]? = some tabMeta ∧ s' = {
      db := { s.db with tabs := s.db.tabs.erase tab }
      fhs := Function.update s.fhs tab none
      ihs := fun name =>
        if ∃ index ∈ tabMeta.indexes, getIndexName tab index.colNames = name then none else s.ihs name
      disk } := by
  obtain ⟨tabMeta, _, hget, h₁⟩ := runFrom_bind_eq_ok.mp h
  obtain ⟨htab, rfl⟩ := getTable_ok hget
  obtain ⟨_, _, hindexes, h₂⟩ := runFrom_bind_eq_ok.mp h₁
  obtain ⟨disk, rfl⟩ := dropIndexes_ok hindexes
  obtain ⟨_, _, hclose, h₃⟩ := runFrom_bind_eq_ok.mp h₂
  obtain ⟨disk, rfl⟩ := closeFileHandle_ok hclose
  obtain ⟨_, _, hdestroy, ⟨⟩⟩ := runFrom_bind_eq_ok.mp h₃
  obtain ⟨-, rfl⟩ := onDisk_ok hdestroy
  exact ⟨tabMeta, _, htab, rfl⟩

theorem fillIndex_ok {tabMeta : TabMeta} (h : runFrom (fillIndex tab tabMeta cols filled) s = (.ok (), s')) :
    s' = s := by
  obtain ⟨_, _, ⟨⟩, h₁⟩ := runFrom_bind_eq_ok.mp h
  obtain ⟨_, _, hhandle, h₂⟩ := runFrom_bind_eq_ok.mp h₁
  obtain ⟨-, rfl⟩ := check_ok hhandle
  split at h₂
  · cases h₂
    rfl
  · obtain ⟨_, _, ⟨⟩, h₃⟩ := runFrom_bind_eq_ok.mp h₂
    obtain ⟨_, _, _, h₄⟩ := runFrom_bind_eq_ok.mp h₃
    obtain ⟨_, _, ⟨⟩, h₅⟩ := runFrom_bind_eq_ok.mp h₄
    exact absurd (congrArg Prod.fst h₅) nofun
  · exact absurd (congrArg Prod.fst h₂) nofun

theorem getCol_ok {tabMeta : TabMeta} {col : ColMeta} (h : tabMeta.getCol name = .ok col) :
    col ∈ tabMeta.cols ∧ col.name = name := by
  unfold TabMeta.getCol at h
  split at h
  · next found hfind =>
    cases h
    exact ⟨List.mem_of_find?_eq_some hfind, by simpa using List.find?_some hfind⟩
  · cases h

theorem getCols_ok {tabMeta : TabMeta} (h : colNames.mapM tabMeta.getCol = .ok cols) :
    cols.map (·.name) = colNames ∧ ∀ col ∈ cols, col ∈ tabMeta.cols := by
  refine ⟨?_, fun col hcol => ?_⟩
  · induction colNames generalizing cols with
    | nil =>
      cases h
      rfl
    | cons colName colNames ih =>
      rw [List.mapM_cons] at h
      obtain ⟨col, hcol, h₁⟩ := bind_eq_ok.mp h
      obtain ⟨rest, hrest, h₂⟩ := bind_eq_ok.mp h₁
      cases h₂
      rw [List.map_cons, (getCol_ok hcol).2, ih hrest]
  · obtain ⟨name, -, hname⟩ := of_mem_mapM h hcol
    exact (getCol_ok hname).1

theorem registerIndex_ok {registered : TabMeta × List ColMeta}
    (h : runFrom (registerIndex tab colNames unique fd fd') s = (.ok registered, s')) :
    ∃ tabMeta cols tabCols fd disk, s.db.tabs[tab]? = some tabMeta ∧ tabMeta.isIndex colNames = false ∧
      colNames.mapM tabMeta.getCol = .ok cols ∧ s.ihs (getIndexName tab colNames) = none ∧
      s.disk.isFile (getIndexName tab colNames) = false ∧ (getIndexName tab colNames).utf8ByteSize ≤ nameMax ∧
      colNames.foldlM (fun cols name => setIndexFlag true name cols) tabMeta.cols = .ok tabCols ∧
      disk.path2fd (getIndexName tab colNames) = some fd ∧ disk.isFile (getIndexName tab colNames) ∧
      registered = ({ tabMeta with
        cols := tabCols
        indexes := tabMeta.indexes ++ [⟨tab, totLen cols, .ofNat cols.length, cols, unique⟩] }, cols) ∧
      s' = { s with
        db := { s.db with tabs := s.db.tabs.insert tab registered.1 }
        ihs := Function.update s.ihs (getIndexName tab colNames) (some fd)
        disk } := by
  obtain ⟨tabMeta, _, hget, h₁⟩ := runFrom_bind_eq_ok.mp h
  obtain ⟨htab, rfl⟩ := getTable_ok hget
  obtain ⟨_, _, hindex, h₂⟩ := runFrom_bind_eq_ok.mp h₁
  obtain ⟨hisNew, rfl⟩ := check_ok hindex
  obtain ⟨_, _, hchecks, h₃⟩ := runFrom_bind_eq_ok.mp h₂
  obtain rfl := checks_ok hchecks
  obtain ⟨cols, _, hcols, h₄⟩ := runFrom_bind_eq_ok.mp h₃
  obtain ⟨hmapM, rfl⟩ := ofExcept_ok hcols
  obtain ⟨_, _, ⟨⟩, h₅⟩ := runFrom_bind_eq_ok.mp h₄
  obtain ⟨_, _, hhandle, h₆⟩ := runFrom_bind_eq_ok.mp h₅
  obtain ⟨hfree, rfl⟩ := check_ok hhandle
  obtain ⟨_, _, hcreate, h₇⟩ := runFrom_bind_eq_ok.mp h₆
  obtain ⟨hnew, hname, created, rfl⟩ := ixCreateIndex_ok hcreate
  obtain ⟨fd, _, hopen, h₈⟩ := runFrom_bind_eq_ok.mp h₇
  obtain ⟨hopened, hfile⟩ := openHandle_opened hopen
  obtain ⟨disk, rfl⟩ := openHandle_ok hopen
  obtain ⟨_, _, ⟨⟩, h₉⟩ := runFrom_bind_eq_ok.mp h₈
  obtain ⟨tabCols, _, hflags, h₁₀⟩ := runFrom_bind_eq_ok.mp h₉
  obtain ⟨hfoldlM, rfl⟩ := ofExcept_ok hflags
  obtain ⟨_, _, ⟨⟩, ⟨⟩⟩ := runFrom_bind_eq_ok.mp h₁₀
  have hnames : cols.map (·.name) = colNames := (getCols_ok hmapM).1
  rw [hnames] at hnew hname
  simp only [IndexMeta.colNames, hnames] at hopened hfile
  exact ⟨tabMeta, cols, tabCols, fd, disk, htab, by simpa using hisNew, hmapM, hfree, hnew, hname, hfoldlM, hopened,
    hfile, rfl, rfl⟩

theorem createIndex_ok (h : runFrom (createIndex tab colNames unique fd fd' filled) s = (.ok (), s')) :
    ∃ tabMeta cols tabCols fd disk, s.db.tabs[tab]? = some tabMeta ∧ tabMeta.isIndex colNames = false ∧
      colNames.mapM tabMeta.getCol = .ok cols ∧ s.ihs (getIndexName tab colNames) = none ∧
      (getIndexName tab colNames).utf8ByteSize ≤ nameMax ∧
      colNames.foldlM (fun cols name => setIndexFlag true name cols) tabMeta.cols = .ok tabCols ∧
      s' = { s with
        db := { s.db with tabs := s.db.tabs.insert tab { tabMeta with
          cols := tabCols
          indexes := tabMeta.indexes ++ [⟨tab, totLen cols, .ofNat cols.length, cols, unique⟩] } }
        ihs := Function.update s.ihs (getIndexName tab colNames) (some fd)
        disk } := by
  obtain ⟨registered, _, hregister, hfill⟩ := runFrom_bind_eq_ok.mp h
  obtain rfl := fillIndex_ok hfill
  obtain ⟨tabMeta, cols, tabCols, fd, disk, htab, hisNew, hmapM, hfree, -, hname, hflags, -, -, rfl, rfl⟩ :=
    registerIndex_ok hregister
  exact ⟨tabMeta, cols, tabCols, fd, disk, htab, hisNew, hmapM, hfree, hname, hflags, rfl⟩

theorem dropIndex_ok (h : runFrom (dropIndex tab colNames) s = (.ok (), s')) :
    ∃ tabMeta index cols disk, s.db.tabs[tab]? = some tabMeta ∧
      tabMeta.indexes.find? (·.isOn colNames) = some index ∧
      colNames.foldlM (unsetIndexFlag (tabMeta.indexes.eraseP (·.isOn colNames))) tabMeta.cols = .ok cols ∧
      s' = { s with
        db := { s.db with tabs := s.db.tabs.insert tab { tabMeta with
          cols, indexes := tabMeta.indexes.eraseP (·.isOn colNames) } }
        ihs := Function.update s.ihs (getIndexName tab colNames) none
        disk } := by
  obtain ⟨tabMeta, _, hget, h₁⟩ := runFrom_bind_eq_ok.mp h
  obtain ⟨htab, rfl⟩ := getTable_ok hget
  split at h₁
  · exact absurd (congrArg Prod.fst h₁) nofun
  · next index hfind =>
    obtain ⟨_, _, hclose, h₂⟩ := runFrom_bind_eq_ok.mp h₁
    obtain ⟨disk, rfl⟩ := closeIndexHandle_ok hclose
    obtain ⟨_, _, hdestroy, h₃⟩ := runFrom_bind_eq_ok.mp h₂
    obtain ⟨disk, rfl⟩ := ixDestroyIndex_ok hdestroy
    obtain ⟨cols, _, hcols, ⟨⟩⟩ := runFrom_bind_eq_ok.mp h₃
    obtain ⟨hflags, rfl⟩ := ofExcept_ok hcols
    exact ⟨tabMeta, index, cols, disk, htab, hfind, hflags, rfl⟩

end Rmdb.Catalog
