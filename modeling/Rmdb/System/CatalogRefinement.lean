import Rmdb.System.CatalogInvariant
import Rmdb.System.SmManager

/-! The two views of the catalog stay together: the one that is written to the disk, with its files and descriptors, and the one
that the statements run on. -/
namespace Rmdb.Catalog

open Program

/-! ### What the statements see of the catalog -/

/-- The grammar has no name for the fourth type. -/
def ColType.plain : ColType → Rmdb.ColType
  | .int => .int
  | .float | .double => .float
  | .string => .string

/-- A column without its table and its flag. -/
def ColMeta.plain (col : ColMeta) : Rmdb.ColMeta := ⟨col.name, col.type.plain, col.len.toInt.toNat, col.offset.toInt.toNat⟩

def IndexMeta.plain (index : IndexMeta) : Rmdb.IndexMeta := ⟨index.unique, index.cols.map ColMeta.plain⟩

def ColDef.plain (colDef : ColDef) : Rmdb.ColDef := ⟨colDef.name, colDef.type.plain, colDef.len.toInt.toNat⟩

structure TabMeta.Matches (tabMeta : TabMeta) (tabMeta' : Rmdb.TabMeta) : Prop where
  cols : tabMeta'.cols = tabMeta.cols.map ColMeta.plain
  indexes : tabMeta'.indexes = tabMeta.indexes.map IndexMeta.plain

/-- The same tables with the same columns and indexes, and handles for the same files. -/
structure Matches (s : SmManager) (db : Database) : Prop where
  tabs : ∀ tab, Option.Rel TabMeta.Matches s.db.tabs[tab]? (db.tabs tab)
  fhs : ∀ tab, (s.fhs tab).isSome = (db.store.fhs tab).isSome
  ihs : ∀ name, (s.ihs name).isSome = (db.ihs name).isSome

/-! ### Calls -/

/-- A call with the descriptors that the operating system gives it. -/
inductive Call where
  | createTable (tab : String) (colDefs : List ColDef) (fd fd' : ℤ)
  | dropTable (tab : String)
  | createIndex (tab : String) (colNames : List String) (unique : Bool) (fd fd' : ℤ)

/-- All rows go into a new index. -/
def Call.onFiles : Call → SmM Unit
  | .createTable tab colDefs fd fd' => Catalog.createTable tab colDefs true fd fd'
  | .dropTable tab => Catalog.dropTable tab
  | .createIndex tab colNames unique fd fd' => Catalog.createIndex tab colNames unique fd fd' none

def Call.onRows : Call → DbM Unit
  | .createTable tab colDefs _ _ => Rmdb.createTable tab (colDefs.map ColDef.plain)
  | .dropTable tab => Rmdb.dropTable tab
  | .createIndex tab colNames unique _ _ => Rmdb.createIndex tab colNames unique

/-- No column has a negative length. -/
def Call.Fits : Call → Prop
  | .createTable _ colDefs _ _ => ∀ colDef ∈ colDefs, 0 ≤ colDef.len.toInt
  | _ => True

/-! ### One call -/

section
variable {s s' : SmManager} {db db' : Database} {tab : String} {colDefs : List ColDef} {colNames : List String}
  {unique : Bool} {fd fd' : ℤ}

/-- The offsets are the same as long as they fit. -/
theorem map_plain_colMetas (tab : String) {offset : Int32} (hoffset : 0 ≤ offset.toInt)
    (hlens : ∀ colDef ∈ colDefs, 0 ≤ colDef.len.toInt)
    (hsum : offset.toInt.toNat + ((colDefs.map ColDef.plain).map (·.len)).sum < 2147483648) :
    (colMetas tab offset colDefs).map ColMeta.plain =
      Rmdb.colMetas offset.toInt.toNat (colDefs.map ColDef.plain) := by
  induction colDefs generalizing offset with
  | nil => rfl
  | cons colDef colDefs ih =>
    obtain ⟨hlen, hlens⟩ := List.forall_mem_cons.mp hlens
    rw [List.map_cons, List.map_cons, List.sum_cons] at hsum
    have hplain : colDef.plain.len = colDef.len.toInt.toNat := rfl
    have hnext : (offset + colDef.len).toInt = offset.toInt + colDef.len.toInt := by
      rw [Int32.toInt_add]
      apply Int.bmod_eq_of_le
      · omega
      · omega
    rw [colMetas, List.map_cons, List.map_cons, Rmdb.colMetas, ih (by omega) hlens (by rw [hnext]; omega), hnext,
      Int.toNat_add hoffset hlen]
    rfl

theorem createTable_returned {defs : List Rmdb.ColDef} (h : runFrom (Rmdb.createTable tab defs) db = (.ok (), db')) :
    ∃ hne : defs ≠ [], (defs.map (·.len)).sum + tupleMetaSize ≤ rmMaxRecordSize ∧ db' = { db with
      tabs := Function.update db.tabs tab (some ⟨Rmdb.colMetas 0 defs, [], colMetas_ne_nil hne⟩)
      store := db.store.setTable tab (some (.create ((defs.map (·.len)).sum + tupleMetaSize))) } := by
  simp only [Rmdb.createTable, runFrom_bind, runFrom_get] at h
  split at h
  · cases h
  · split at h
    · cases h
    · split at h
      · next hne =>
        split at h
        · cases h
        · split at h
          · cases h
          · next hsize => exact ⟨hne, Nat.le_of_not_lt hsize, (congrArg Prod.snd h).symm⟩
      · cases h

theorem createTable_matches (h : Matches s db) (hlens : ∀ colDef ∈ colDefs, 0 ≤ colDef.len.toInt)
    (hs : runFrom (createTable tab colDefs true fd fd') s = (.ok (), s'))
    (hdb : runFrom (Rmdb.createTable tab (colDefs.map ColDef.plain)) db = (.ok (), db')) : Matches s' db' := by
  obtain ⟨-, -, fd, disk, rfl⟩ := createTable_ok hs
  obtain ⟨hne, hsize, rfl⟩ := createTable_returned hdb
  have hsum : ((colDefs.map ColDef.plain).map (·.len)).sum < 2147483648 := by
    have hmax : rmMaxRecordSize = 512 := rfl
    omega
  have hzero : (0 : Int32).toInt = 0 := rfl
  have hcols : (colMetas tab 0 colDefs).map ColMeta.plain = Rmdb.colMetas 0 (colDefs.map ColDef.plain) :=
    map_plain_colMetas tab (le_of_eq hzero.symm) hlens (by rw [hzero]; omega)
  constructor
  case tabs =>
    intro tab'
    dsimp only
    rw [SmManager.getElem?_insert, Function.update_apply]
    split
    · exact .some ⟨hcols.symm, rfl⟩
    · exact h.tabs tab'
  case fhs =>
    intro tab'
    change (Function.update s.fhs tab _ tab').isSome = (Function.update db.store.fhs tab _ tab').isSome
    rw [Function.update_apply, Function.update_apply]
    split
    · cases s.fhs tab <;> rfl
    · exact h.fhs tab'
  case ihs => exact h.ihs

/-- The names of the files of the indexes are the same. -/
theorem getIndexName_plain (tab : String) (index : IndexMeta) :
    Rmdb.getIndexName tab index.plain = getIndexName tab index.colNames := by
  unfold Rmdb.getIndexName getIndexName IndexMeta.plain IndexMeta.colNames
  rw [List.foldl_map, List.foldl_map]
  rfl

/-- Every index that is dropped had a handle, and has none any more. -/
theorem dropIndexHandles_returned {indexes : List Rmdb.IndexMeta}
    (h : runFrom (indexes.forM fun index => dropIndexHandle (Rmdb.getIndexName tab index)) db = (.ok (), db')) :
    ∃ ihs, db' = { db with ihs } ∧ ∀ name, ihs name =
      if ∃ index ∈ indexes, Rmdb.getIndexName tab index = name then none else db.ihs name := by
  induction indexes generalizing db with
  | nil =>
    cases h
    exact ⟨db'.ihs, rfl, by simp⟩
  | cons index indexes ih =>
    obtain ⟨_, db₁, hfirst, hrest⟩ := runFrom_bind_eq_ok.mp h
    obtain ⟨_, _, ⟨⟩, hdrop⟩ := runFrom_bind_eq_ok.mp hfirst
    split at hdrop
    · cases hdrop
    · obtain rfl := (congrArg Prod.snd hdrop).symm
      obtain ⟨ihs, rfl, hihs⟩ := ih hrest
      refine ⟨ihs, rfl, fun name => ?_⟩
      rw [hihs]
      by_cases heq : Rmdb.getIndexName tab index = name
      · subst heq
        simp
      · simp [heq, Function.update_of_ne (Ne.symm heq)]

theorem dropTable_returned (h : runFrom (Rmdb.dropTable tab) db = (.ok (), db')) :
    ∃ tabMeta ihs, db.tabs tab = some tabMeta ∧ (∀ name, ihs name =
      if ∃ index ∈ tabMeta.indexes, Rmdb.getIndexName tab index = name then none else db.ihs name) ∧
      db' = { store := db.store.setTable tab none, tabs := Function.update db.tabs tab none, ihs } := by
  obtain ⟨tabMeta, _, hget, h₁⟩ := runFrom_bind_eq_ok.mp h
  obtain ⟨_, _, ⟨⟩, hmatch⟩ := runFrom_bind_eq_ok.mp hget
  split at hmatch
  · next htab =>
    cases hmatch
    obtain ⟨_, _, hindexes, hmodify⟩ := runFrom_bind_eq_ok.mp h₁
    obtain ⟨ihs, rfl, hihs⟩ := dropIndexHandles_returned hindexes
    exact ⟨_, ihs, htab, hihs, (congrArg Prod.snd hmodify).symm⟩
  · cases hmatch

theorem dropTable_matches (h : Matches s db) (hs : runFrom (dropTable tab) s = (.ok (), s'))
    (hdb : runFrom (Rmdb.dropTable tab) db = (.ok (), db')) : Matches s' db' := by
  obtain ⟨tabMeta, disk, htab, rfl⟩ := dropTable_ok hs
  obtain ⟨tabMeta', ihs, htab', hihs, rfl⟩ := dropTable_returned hdb
  have hmatch := h.tabs tab
  rw [htab, htab'] at hmatch
  cases hmatch with
  | some hmatch =>
    have hnames : ∀ name, (∃ index ∈ tabMeta.indexes, getIndexName tab index.colNames = name) ↔
        ∃ index ∈ tabMeta'.indexes, Rmdb.getIndexName tab index = name := by
      intro name
      rw [hmatch.indexes]
      simp only [List.mem_map, exists_exists_and_eq_and, getIndexName_plain]
    constructor
    case tabs =>
      intro tab'
      dsimp only
      rw [SmManager.getElem?_erase, Function.update_apply]
      split
      · exact .none
      · exact h.tabs tab'
    case fhs =>
      intro tab'
      change (Function.update s.fhs tab _ tab').isSome = (Function.update db.store.fhs tab _ tab').isSome
      rw [Function.update_apply, Function.update_apply]
      split
      · rfl
      · exact h.fhs tab'
    case ihs =>
      intro name
      dsimp only
      rw [hihs]
      simp only [hnames]
      split
      · rfl
      · exact h.ihs name

/-- The flags of the columns are not seen. -/
theorem map_plain_setIndexFlag {flag : Bool} {name : String} {cols cols' : List ColMeta}
    (h : setIndexFlag flag name cols = .ok cols') : cols'.map ColMeta.plain = cols.map ColMeta.plain := by
  induction cols generalizing cols' with
  | nil => cases h
  | cons col cols ih =>
    rw [setIndexFlag] at h
    split at h
    · cases h
      rfl
    · obtain ⟨rest, hrest, h⟩ := bind_eq_ok.mp h
      cases h
      rw [List.map_cons, List.map_cons, ih hrest]

theorem map_plain_setIndexFlags {cols cols' : List ColMeta}
    (h : colNames.foldlM (fun cols name => setIndexFlag true name cols) cols = .ok cols') :
    cols'.map ColMeta.plain = cols.map ColMeta.plain := by
  induction colNames generalizing cols with
  | nil =>
    cases h
    rfl
  | cons name colNames ih =>
    obtain ⟨next, hnext, hrest⟩ := bind_eq_ok.mp h
    rw [ih hrest, map_plain_setIndexFlag hnext]

/-- The columns of a new index are found by their names. -/
theorem map_plain_getCols {tabMeta : TabMeta} {cols : List ColMeta} (h : colNames.mapM tabMeta.getCol = .ok cols) :
    cols.map ColMeta.plain =
      colNames.filterMap fun name => (tabMeta.cols.map ColMeta.plain).find? (·.name = name) := by
  induction colNames generalizing cols with
  | nil =>
    cases h
    rfl
  | cons name colNames ih =>
    rw [List.mapM_cons] at h
    obtain ⟨col, hcol, h₁⟩ := bind_eq_ok.mp h
    obtain ⟨rest, hrest, h₂⟩ := bind_eq_ok.mp h₁
    cases h₂
    have hfind : (tabMeta.cols.map ColMeta.plain).find? (·.name = name) = some col.plain := by
      unfold TabMeta.getCol at hcol
      split at hcol
      · next hfound =>
        cases hcol
        rw [List.find?_map]
        exact congrArg (Option.map ColMeta.plain) hfound
      · cases hcol
    rw [List.map_cons, ih hrest, List.filterMap_cons, hfind]

/-- The entries go into the tree of one handle. -/
theorem fillIndex_returned {name : String} {index : Rmdb.IndexMeta} {fh : RmFileHandle}
    (h : runFrom (Rmdb.fillIndex name index fh) db = (.ok (), db')) :
    ∃ ihs, db' = { db with ihs } ∧ ∀ name, (ihs name).isSome = (db.ihs name).isSome := by
  unfold Rmdb.fillIndex at h
  generalize fh.scanRids = rids at h
  induction rids generalizing db with
  | nil =>
    cases h
    exact ⟨db'.ihs, rfl, fun _ => rfl⟩
  | cons rid rids ih =>
    obtain ⟨_, db₁, hfirst, hrest⟩ := runFrom_bind_eq_ok.mp h
    obtain ⟨tree, _, hhandle, h₁⟩ := runFrom_bind_eq_ok.mp hfirst
    obtain ⟨_, _, ⟨⟩, hmatch⟩ := runFrom_bind_eq_ok.mp hhandle
    split at hmatch
    · next hold =>
      cases hmatch
      obtain ⟨entry, _, hinsert, h₂⟩ := runFrom_bind_eq_ok.mp h₁
      rw [DbM.ofIx, runFrom_ofExcept] at hinsert
      obtain rfl := congrArg Prod.snd hinsert
      obtain rfl := (congrArg Prod.snd h₂).symm
      obtain ⟨ihs, rfl, hihs⟩ := ih hrest
      refine ⟨ihs, rfl, fun other => ?_⟩
      rw [hihs]
      change (Function.update db.ihs name _ other).isSome = _
      rw [Function.update_apply]
      split
      · next heq =>
        rw [heq, hold]
        rfl
      · rfl
    · cases hmatch

theorem newIndexMeta_returned {tabMeta : Rmdb.TabMeta} {index : Rmdb.IndexMeta}
    (h : newIndexMeta tabMeta colNames unique = .ok index) :
    index = ⟨unique, colNames.filterMap fun name => tabMeta.cols.find? (·.name = name)⟩ := by
  unfold newIndexMeta at h
  split at h
  · cases h
  · split at h
    · exact (Except.ok.inj h).symm
    · cases h

theorem createIndex_returned (h : runFrom (Rmdb.createIndex tab colNames unique) db = (.ok (), db')) :
    ∃ tabMeta index ihs, db.tabs tab = some tabMeta ∧
      index = ⟨unique, colNames.filterMap fun name => tabMeta.cols.find? (·.name = name)⟩ ∧
      (∀ name, (ihs name).isSome = (decide (name = Rmdb.getIndexName tab index) || (db.ihs name).isSome)) ∧
      db' = { db with
        tabs := Function.update db.tabs tab (some { tabMeta with indexes := tabMeta.indexes ++ [index] })
        ihs } := by
  obtain ⟨tabMeta, _, hget, h₁⟩ := runFrom_bind_eq_ok.mp h
  obtain ⟨_, _, ⟨⟩, hmatch⟩ := runFrom_bind_eq_ok.mp hget
  split at hmatch
  · next htab =>
    cases hmatch
    obtain ⟨index, _, hindex, h₂⟩ := runFrom_bind_eq_ok.mp h₁
    rw [runFrom_ofExcept] at hindex
    obtain rfl := congrArg Prod.snd hindex
    have hmeta := newIndexMeta_returned (congrArg Prod.fst hindex)
    obtain ⟨_, _, hhandle, h₃⟩ := runFrom_bind_eq_ok.mp h₂
    obtain ⟨_, _, ⟨⟩, hcreate⟩ := runFrom_bind_eq_ok.mp hhandle
    split at hcreate
    · cases hcreate
    · obtain ⟨tree, _, htree, hset⟩ := runFrom_bind_eq_ok.mp hcreate
      rw [DbM.ofIx, runFrom_ofExcept] at htree
      obtain rfl := congrArg Prod.snd htree
      obtain rfl := (congrArg Prod.snd hset).symm
      obtain ⟨_, _, ⟨⟩, h₄⟩ := runFrom_bind_eq_ok.mp h₃
      obtain ⟨fh, _, hfh, h₅⟩ := runFrom_bind_eq_ok.mp h₄
      obtain ⟨_, _, ⟨⟩, hfile⟩ := runFrom_bind_eq_ok.mp hfh
      split at hfile
      · cases hfile
        rw [runFrom_tryCatch] at h₅
        split at h₅
        · next hfill =>
          obtain ⟨ihs, hdb', hihs⟩ := fillIndex_returned hfill
          refine ⟨tabMeta, index, ihs, htab, hmeta, fun name => ?_, ?_⟩
          · rw [hihs]
            change (Function.update db.ihs _ _ name).isSome = _
            rw [Function.update_apply]
            split
            · next heq => rw [decide_eq_true heq, Bool.true_or, Option.isSome_some]
            · next hne => rw [decide_eq_false hne, Bool.false_or]
          · cases h₅
            exact hdb'
        · exact absurd (congrArg Prod.fst h₅) (refuseIndex_ne_ok _ _ _)
      · cases hfile
  · cases hmatch

theorem createIndex_matches (h : Matches s db)
    (hs : runFrom (createIndex tab colNames unique fd fd' none) s = (.ok (), s'))
    (hdb : runFrom (Rmdb.createIndex tab colNames unique) db = (.ok (), db')) : Matches s' db' := by
  obtain ⟨tabMeta, cols, tabCols, fd, disk, htab, -, hcols, -, -, hflags, rfl⟩ := createIndex_ok hs
  obtain ⟨tabMeta', index, ihs, htab', hindex, hihs, rfl⟩ := createIndex_returned hdb
  have hmatch := h.tabs tab
  rw [htab, htab'] at hmatch
  cases hmatch with
  | some hmatch =>
    have hplain : index = IndexMeta.plain ⟨tab, totLen cols, .ofNat cols.length, cols, unique⟩ := by
      rw [hindex, hmatch.cols, ← map_plain_getCols hcols]
      rfl
    have hname : Rmdb.getIndexName tab index = getIndexName tab colNames := by
      rw [hplain, getIndexName_plain, IndexMeta.colNames, (getCols_ok hcols).1]
    constructor
    case tabs =>
      intro tab'
      dsimp only
      rw [SmManager.getElem?_insert, Function.update_apply]
      split
      · refine .some ⟨?_, ?_⟩
        · rw [hmatch.cols, map_plain_setIndexFlags hflags]
        · rw [hmatch.indexes, List.map_append, List.map_singleton, hplain]
      · exact h.tabs tab'
    case fhs => exact h.fhs
    case ihs =>
      intro name
      dsimp only
      rw [hihs, hname, ← h.ihs name, Function.update_apply]
      split
      · next heq => rw [decide_eq_true heq, Bool.true_or, Option.isSome_some]
      · next hne => rw [decide_eq_false hne, Bool.false_or]

/-! ### Runs -/

/-- A call that returns in both views leaves them together. -/
theorem Matches.call {call : Call} (h : Matches s db) (hfits : call.Fits)
    (hs : runFrom call.onFiles s = (.ok (), s')) (hdb : runFrom call.onRows db = (.ok (), db')) : Matches s' db' := by
  cases call with
  | createTable tab colDefs fd fd' => exact createTable_matches h hfits hs hdb
  | dropTable tab => exact dropTable_matches h hs hdb
  | createIndex tab colNames unique fd fd' => exact createIndex_matches h hs hdb

/-- The two views stay together over any number of calls that return in both. -/
theorem Matches.run {calls : List Call} (h : Matches s db) (hfits : ∀ call ∈ calls, call.Fits)
    (hs : runFrom (calls.forM Call.onFiles) s = (.ok (), s')) (hdb : runFrom (calls.forM Call.onRows) db = (.ok (), db')) :
    Matches s' db' := by
  induction calls generalizing s db with
  | nil =>
    cases hs
    cases hdb
    exact h
  | cons call calls ih =>
    obtain ⟨hcall, hcalls⟩ := List.forall_mem_cons.mp hfits
    obtain ⟨_, _, hs₁, hs⟩ := runFrom_bind_eq_ok.mp hs
    obtain ⟨_, _, hdb₁, hdb⟩ := runFrom_bind_eq_ok.mp hdb
    exact ih (h.call hcall hs₁ hdb₁) hcalls hs hdb

end
end Rmdb.Catalog
