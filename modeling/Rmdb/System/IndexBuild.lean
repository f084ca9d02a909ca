import Rmdb.Index.KeyMap
import Rmdb.Index.LeafEntries
import Rmdb.Index.Slots
import Rmdb.System.SerialUpdate

/-! CREATE INDEX on a table that transactions have written to. It inserts a key for each slot in use, as the slot
stands, where a transaction sees of some slots nothing and of others an older version. -/
namespace Rmdb

open Program SlotArray Database

/-! ### A run of insertions on a unique index -/

namespace IxIndexHandle

variable {K : Type} [Inhabited K] {cmp : K → K → Ordering} {ih ih' ih'' : IxIndexHandle K} {e : K × Rid}
  {entries l : List (K × Rid)} {btreeOrder colTotLen : ℕ}

/-- An insertion finds no equal key in the tree, and it returns. -/
def Accepts (cmp : K → K → Ordering) (e : K × Rid) (ih : IxIndexHandle K) : Prop :=
  ih.getValue cmp e.1 = .ok none ∧ (ih.insertEntry cmp e.1 e.2).toBool = true

instance : Decidable (Accepts cmp e ih) := inferInstanceAs (Decidable (_ ∧ _))

theorem store_eq_some : store cmp e ih = some ih' ↔ ∃ p, ih.insertEntry cmp e.1 e.2 = .ok (p, ih') := by
  unfold store
  cases ih.insertEntry cmp e.1 e.2 with
  | error err => simp [Except.toOption]
  | ok r =>
    cases r with
    | mk p ih₁ => simp [Except.toOption]

theorem insertEntries_cons_ok : ih.insertEntries cmp (e :: entries) = .ok ih'' ↔
    ∃ ih', store cmp e ih = some ih' ∧ ih'.insertEntries cmp entries = .ok ih'' := by
  unfold insertEntries store
  rw [List.foldlM_cons]
  cases ih.insertEntry cmp e.1 e.2 with
  | error err => simp [Except.toOption, Functor.map, Except.map, bind, Except.bind]
  | ok r => simp [Except.toOption, Functor.map, Except.map, bind, Except.bind]

theorem getValue_of_insertEntry {key : K} {value : Rid} {r : ℤ × IxIndexHandle K} (hunique : ih.unique = true)
    (hrun : ih.insertEntry cmp key value = .ok r) : ih.getValue cmp key = .ok none := by
  obtain ⟨leaf, -, hfind, hlookup, -, -⟩ := insertEntry_ok hunique hrun
  exact bind_eq_ok.mpr ⟨leaf, hfind, hlookup⟩

/-- A run returns just when each call is accepted by the tree that it comes to. -/
theorem Chained.insertEntries_ok_iff {pages : List ℤ} (h : Chained ih pages)
    (hsymm : ∀ a b, cmp a b = .eq → cmp b a = .eq) (entries : List (K × Rid)) :
    (∃ ih', ih.insertEntries cmp entries = .ok ih') ↔ Runs.AllMeet (store cmp) (Accepts cmp) entries ih := by
  induction entries generalizing ih pages with
  | nil => exact iff_of_true ⟨ih, rfl⟩ trivial
  | cons e entries hrec =>
    have hnext : ∀ ih₁, store cmp e ih = some ih₁ → ∃ pages₁, Chained ih₁ pages₁ := by
      intro ih₁ hstep
      obtain ⟨p, hrun⟩ := store_eq_some.mp hstep
      obtain ⟨pages₁, h₁, -⟩ := h.insertEntry hsymm hrun
      exact ⟨pages₁, h₁⟩
    constructor
    · intro ⟨ih'', hrun⟩
      obtain ⟨ih₁, hstep, hrest⟩ := insertEntries_cons_ok.mp hrun
      obtain ⟨p, hinsert⟩ := store_eq_some.mp hstep
      refine ⟨⟨getValue_of_insertEntry h.unique hinsert, by rw [hinsert]; rfl⟩, fun ih₂ hstep₂ => ?_⟩
      rw [hstep] at hstep₂
      cases hstep₂
      obtain ⟨pages₁, h₁⟩ := hnext ih₁ hstep
      exact (hrec h₁).mp ⟨ih'', hrest⟩
    · intro ⟨haccepts, hmeet⟩
      have hok := haccepts.2
      cases hinsert : ih.insertEntry cmp e.1 e.2 with
      | error err =>
        rw [hinsert] at hok
        cases hok
      | ok r =>
        have hstep : store cmp e ih = some r.2 := store_eq_some.mpr ⟨r.1, hinsert⟩
        obtain ⟨pages₁, h₁⟩ := hnext r.2 hstep
        obtain ⟨ih'', hrest⟩ := (hrec h₁).mpr (hmeet r.2 hstep)
        exact ⟨ih'', insertEntries_cons_ok.mpr ⟨r.2, hstep, hrest⟩⟩

/-- As long as the root leaf has room, no equal key escapes. -/
theorem Represents.distinct_of_insertEntries [Std.TransCmp cmp] (h : Represents cmp btreeOrder colTotLen true ih l)
    (hlen : (entries ++ l).length ≤ btreeOrder) (hrun : ih.insertEntries cmp entries = .ok ih') :
    Distinct cmp (entries ++ l) := by
  induction entries generalizing ih l with
  | nil => exact h.distinct
  | cons e entries hrec =>
    obtain ⟨ih₁, hstep, hrest⟩ := insertEntries_cons_ok.mp hrun
    obtain ⟨p, hinsert⟩ := store_eq_some.mp hstep
    have hunique : ih.unique = true := by
      obtain ⟨n, keys, rids, rfl, -⟩ := h
      rfl
    have hnone := getValue_of_insertEntry hunique hinsert
    rw [h.getValue, Except.ok.injEq] at hnone
    simp only [List.cons_append, List.length_cons, List.length_append] at hlen
    obtain ⟨ih₂, hinsert₂, h₂⟩ := h.insertEntry (v := e.2) hnone (by omega)
    rw [hinsert, Except.ok.injEq, Prod.mk.injEq] at hinsert₂
    obtain ⟨-, rfl⟩ := hinsert₂
    have hd := hrec h₂ (by simp; omega) hrest
    exact hd.perm List.perm_middle

end IxIndexHandle
/-! ### The rows of a table -/

/-- The index of CREATE INDEX on the columns with these names. -/
def TabMeta.newIndex (tabMeta : TabMeta) (colNames : List String) : IndexMeta :=
  ⟨true, colNames.filterMap fun name => tabMeta.cols.find? (·.name = name)⟩

namespace RmFileHandle

/-- The key that a transaction sees in a slot. -/
def visibleKey (fh : RmFileHandle) (tm : TransactionManager) (startTs : ℤ) (index : IndexMeta) (rid : Rid) :
    Option Bytes :=
  match fh.getRecordMvcc tm startTs rid with
  | .ok (some view) => some (index.key view.data)
  | _ => none

def visibleEntries (fh : RmFileHandle) (tm : TransactionManager) (startTs : ℤ) (index : IndexMeta) :
    List (Bytes × Rid) :=
  fh.scanRids.filterMap fun rid => (fh.visibleKey tm startTs index rid).map fun key => (key, rid)

/-- The keys of the slots in use, as they stand. -/
def slotEntries (fh : RmFileHandle) (index : IndexMeta) : List (Bytes × Rid) :=
  fh.scanRids.map fun rid => (index.key (fh.record rid).row.bytes, rid)

/-- A transaction sees a row in every slot in use, with the key that stands there. -/
def SlotsShown (fh : RmFileHandle) (tm : TransactionManager) (startTs : ℤ) (index : IndexMeta) : Prop :=
  ∀ rid ∈ fh.scanRids, fh.visibleKey tm startTs index rid = some (index.key (fh.record rid).row.bytes)

instance (fh : RmFileHandle) (tm : TransactionManager) (startTs : ℤ) (index : IndexMeta) :
    Decidable (fh.SlotsShown tm startTs index) := inferInstanceAs (Decidable (∀ rid ∈ fh.scanRids, _))

variable {fh : RmFileHandle} {tm : TransactionManager} {startTs : ℤ} {index : IndexMeta}

theorem slotEntries_eq_of_slotsShown (h : fh.SlotsShown tm startTs index) :
    fh.slotEntries index = fh.visibleEntries tm startTs index := by
  unfold slotEntries visibleEntries
  rw [← List.filterMap_eq_map]
  refine List.filterMap_congr fun rid hrid => ?_
  rw [h rid hrid]
  rfl

/-- A slot that shows nothing, or another key, is an entry too much. -/
theorem slotsShown_of_perm (h : (fh.slotEntries index).Perm (fh.visibleEntries tm startTs index)) :
    fh.SlotsShown tm startTs index := by
  intro rid hrid
  have hmem := h.mem_iff.mp (List.mem_map_of_mem hrid)
  obtain ⟨rid', -, hkey⟩ := List.mem_filterMap.mp hmem
  obtain ⟨key, hvisible, heq⟩ := Option.map_eq_some_iff.mp hkey
  rw [Prod.mk.injEq] at heq
  rw [← heq.1, ← heq.2]
  exact hvisible

end RmFileHandle

/-- In a serial history, where no aborted transaction has left its stamp in a slot, the slots that show nothing are
those of deleted rows. -/
theorem serial_slotsShown_iff {db₀ db : Database} {n txnId : ℤ} {txn : Transaction} {tab : String} {fh : RmFileHandle}
    {index : IndexMeta} (hstart : db₀.Started n)
    (hfresh : ∀ tab rid rec_, db₀.store.slot tab rid = some rec_ → rec_.tupleMeta.ts = 0)
    (hreach : db₀.Reaches Serial db) (htxn : db.activeTxn txnId = some txn) (hfh : db.store.fhs tab = some fh)
    (hstamps : ∀ rid ∈ fh.scanRids, (fh.record rid).tupleMeta.ts = 0 ∨
      db.store.txnMgr.isTransactionAborted (fh.record rid).tupleMeta.ts = false) :
    fh.SlotsShown db.store.txnMgr txn.startTs index ↔
      ∀ rid ∈ fh.scanRids, (fh.record rid).tupleMeta.isDeleted = false := by
  have hserialized := serialized_reaches (fun _ _ h => h) (hstart.serialized hfresh) hreach
  refine forall₂_congr fun rid hrid => ?_
  have hread := hserialized.read_scan (runs_of_activeTxn htxn) (activeTxn_mem htxn).2.2 hfh hrid (hstamps rid hrid)
  unfold RmFileHandle.visibleKey
  rw [hread]
  cases (fh.record rid).tupleMeta.isDeleted with
  | false => simp [RecordView.data]
  | true => simp

/-! ### The statement -/

open IxIndexHandle DbM

section
variable (db : Database) (tab : String) (tabMeta : TabMeta) (colNames : List String) (fh : RmFileHandle) (txn : Transaction)

/-- CREATE INDEX succeeds just when the keys that the transaction sees differ, and the index then has an entry for
each row that it sees, and no other. -/
structure IndexesVisible : Prop where
  succeeds : (runFrom (createIndex tab colNames true) db).1 = .ok () ↔
    Distinct (tabMeta.newIndex colNames).compare
      (fh.visibleEntries db.store.txnMgr txn.startTs (tabMeta.newIndex colNames))
  entries : (runFrom (createIndex tab colNames true) db).1 = .ok () → ∃ ih stored,
    (runFrom (createIndex tab colNames true) db).2.ihs (getIndexName tab (tabMeta.newIndex colNames)) = some ih ∧
      ih.leafEntries = .ok stored ∧
      stored.Perm (fh.visibleEntries db.store.txnMgr txn.startTs (tabMeta.newIndex colNames))

/-- The checks before the first row goes in. -/
structure Registrable : Prop where
  new : ∀ index ∈ tabMeta.indexes, index.cols.map (·.name) ≠ colNames
  columns : ∀ name ∈ colNames, ∃ col ∈ tabMeta.cols, col.name = name
  handle : db.ihs (getIndexName tab (tabMeta.newIndex colNames)) = none
  length : (tabMeta.newIndex colNames).colTotLen ≤ ixMaxColLen

/-- The tree of a new index. -/
def IndexMeta.newTree (index : IndexMeta) : IxIndexHandle Bytes :=
  freshIndex (btreeOrderOf index.colTotLen) index.colTotLen true

/-- The tree accepts the entries, one after the other. -/
def IndexMeta.TreeAccepts (index : IndexMeta) (entries : List (Bytes × Rid)) : Prop :=
  Runs.AllMeet (store index.compare) (Accepts index.compare) entries index.newTree

instance (index : IndexMeta) (entries : List (Bytes × Rid)) : Decidable (index.TreeAccepts entries) :=
  inferInstanceAs (Decidable (Runs.AllMeet ..))

end

variable {db : Database} {tab : String} {tabMeta : TabMeta} {colNames : List String} {fh : RmFileHandle}
  {txn : Transaction} {index : IndexMeta} {entries : List (Bytes × Rid)}

theorem IndexMeta.compare_eq_symm (index : IndexMeta) (a b : Bytes) (h : index.compare a b = .eq) :
    index.compare b a = .eq := ixCompare_eq_symm h

theorem IndexMeta.treeAccepts_iff :
    index.TreeAccepts entries ↔ ∃ ih, index.newTree.insertEntries index.compare entries = .ok ih :=
  ((chained_freshIndex (btreeOrderOf index.colTotLen) index.colTotLen).insertEntries_ok_iff index.compare_eq_symm
    entries).symm

/-- On a table whose rows fit in one leaf, and whose keys have no NaN, the tree accepts different keys. -/
theorem IndexMeta.treeAccepts_iff_distinct
    (hnan : ∀ e ∈ entries, NaNFree (index.cols.map fun col => (col.type, col.len)) e.1)
    (hlen : entries.length ≤ btreeOrderOf index.colTotLen) :
    index.TreeAccepts entries ↔ Distinct index.compare entries := by
  obtain ⟨cols, hcols⟩ : ∃ cols : IxCols, cols = index.cols.map fun col => (col.type, col.len) := ⟨_, rfl⟩
  have hcmp : index.compare = ixCompare cols := by rw [hcols]; rfl
  rw [← hcols] at hnan
  -- the entries with keys that carry their condition
  obtain ⟨l, hl⟩ : ∃ l : List (IxKey cols × Rid), l.map (fun e => (e.1.bytes, e.2)) = entries := by
    refine ⟨entries.attach.map fun e => (⟨e.1.1, hnan e.1 e.2⟩, e.1.2), ?_⟩
    rw [List.map_map]
    exact List.attach_map_subtype_val entries
  have hlen' : (l ++ []).length ≤ btreeOrderOf index.colTotLen := by
    rw [← hl, List.length_map] at hlen
    rwa [List.append_nil]
  obtain ⟨fresh, hfresh⟩ : ∃ fresh : IxIndexHandle (IxKey cols),
      fresh = freshIndex (btreeOrderOf index.colTotLen) index.colTotLen true := ⟨_, rfl⟩
  have hempty : Represents IxKey.cmp (btreeOrderOf index.colTotLen) index.colTotLen true fresh [] :=
    hfresh ▸ represents_fresh IxKey.cmp ..
  have hrun : index.newTree.insertEntries index.compare entries =
      IxIndexHandle.map IxKey.bytes <$> fresh.insertEntries IxKey.cmp l := by
    rw [hfresh, IndexMeta.newTree, map_freshIndex (f := IxKey.bytes) rfl, hcmp, ← hl]
    exact map_insertEntries (f := IxKey.bytes) rfl l
  have hdistinct : Distinct index.compare entries ↔ Distinct IxKey.cmp l := by
    rw [hcmp, ← hl]
    exact List.pairwise_map
  rw [IndexMeta.treeAccepts_iff, hrun, hdistinct]
  constructor
  · intro ⟨ih, hih⟩
    cases hkeys : fresh.insertEntries IxKey.cmp l with
    | error e =>
      rw [hkeys] at hih
      cases hih
    | ok ih₁ =>
      have hd := hempty.distinct_of_insertEntries hlen' hkeys
      rwa [List.append_nil] at hd
  · intro hd
    obtain ⟨ih, hih, -⟩ := hempty.insertEntries l (by rwa [List.append_nil]) hlen'
    rw [hih]
    exact ⟨_, rfl⟩

/-! ### The run of the statement -/

theorem newIndexMeta_ok_iff : newIndexMeta tabMeta colNames true = .ok index ↔
    ((∀ index ∈ tabMeta.indexes, index.cols.map (·.name) ≠ colNames) ∧
      ∀ name ∈ colNames, ∃ col ∈ tabMeta.cols, col.name = name) ∧ tabMeta.newIndex colNames = index := by
  unfold newIndexMeta
  split
  · next hany =>
    obtain ⟨old, hold, hnames⟩ := List.any_eq_true.mp hany
    exact iff_of_false nofun fun h => h.1.1 old hold (of_decide_eq_true hnames)
  · next hnew =>
    split
    · next hcols =>
      have hnames : ∀ index ∈ tabMeta.indexes, index.cols.map (·.name) ≠ colNames := by
        intro old hold heq
        exact hnew (List.any_eq_true.mpr ⟨old, hold, decide_eq_true heq⟩)
      constructor
      · intro h
        exact ⟨⟨hnames, hcols⟩, Except.ok.inj h⟩
      · intro h
        exact congrArg Except.ok h.2
    · next hcols => exact iff_of_false nofun fun h => hcols h.1.2

/-- Every length that an index may have makes nodes for three keys. -/
theorem createIndex_of_length {colTotLen : ℕ} (h : colTotLen ≤ ixMaxColLen) :
    IxIndexHandle.createIndex colTotLen true =
      .ok (freshIndex (btreeOrderOf colTotLen) colTotLen true : IxIndexHandle Bytes) := by
  have horder : 2 < btreeOrderOf colTotLen := by
    have hle : (pageSize - ixPageHdrSize) / (ixMaxColLen + ridSize) ≤ (pageSize - ixPageHdrSize) / (colTotLen + ridSize) :=
      Nat.div_le_div_left (by omega) (by simp [ridSize])
    have hmax : 3 < (pageSize - ixPageHdrSize) / (ixMaxColLen + ridSize) := by decide
    unfold btreeOrderOf
    omega
  unfold IxIndexHandle.createIndex assertThat
  rw [if_neg (Nat.not_lt.mpr h), if_pos horder]
  rfl

section
variable {name : String} {ih ih' : IxIndexHandle Bytes} {e : IxError} {rids : List Rid}

private theorem runFrom_ofIx {α : Type} (x : Except IxError α) :
    runFrom (ofIx x) db = (x.mapError IxError.toDbError, db) := runFrom_ofExcept _

private theorem runFrom_createIndexHandle : runFrom (createIndexHandle name index) db =
    if (db.ihs name).isSome then (.error (.rmdb .indexExists), db)
    else match IxIndexHandle.createIndex index.colTotLen index.unique with
      | .ok ih => (.ok (), { db with ihs := Function.update db.ihs name (some ih) })
      | .error e => (.error e.toDbError, db) := by
  simp only [createIndexHandle, runFrom_bind, runFrom_get]
  split
  · rfl
  · simp only [runFrom_bind, runFrom_ofIx]
    cases (IxIndexHandle.createIndex index.colTotLen index.unique : Except IxError (IxIndexHandle Bytes)) with
    | error e => rfl
    | ok ih => rfl

/-- One row of `fillIndex`. -/
private def indexRow (name : String) (index : IndexMeta) (fh : RmFileHandle) (rid : Rid) : DbM Unit := do
  let ih ← indexHandle name
  let (_, ih) ← ofIx (ih.insertEntry index.compare (index.key (fh.record rid).row.bytes) rid)
  setIndexHandle name ih

private theorem runFrom_indexRow (hih : db.ihs name = some ih) (rid : Rid) :
    runFrom (indexRow name index fh rid) db =
      match ih.insertEntry index.compare (index.key (fh.record rid).row.bytes) rid with
      | .ok r => (.ok (), { db with ihs := Function.update db.ihs name (some r.2) })
      | .error e => (.error e.toDbError, db) := by
  simp only [indexRow, indexHandle, runFrom_bind, runFrom_get, hih, runFrom_pure, runFrom_ofIx]
  cases ih.insertEntry index.compare (index.key (fh.record rid).row.bytes) rid with
  | error e => rfl
  | ok r => rfl

/-- The rows go into the tree of the handle, and the first insertion that fails ends it. -/
private theorem indexRows_run (hih : db.ihs name = some ih) :
    (∀ ih', ih.insertEntries index.compare (rids.map fun rid => (index.key (fh.record rid).row.bytes, rid)) = .ok ih' →
      runFrom (rids.forM (indexRow name index fh)) db = (.ok (), { db with ihs := Function.update db.ihs name (some ih') })) ∧
      ((runFrom (rids.forM (indexRow name index fh)) db).1 = .ok () →
        ∃ ih', ih.insertEntries index.compare (rids.map fun rid => (index.key (fh.record rid).row.bytes, rid)) = .ok ih') := by
  induction rids generalizing db ih with
  | nil =>
    refine ⟨fun ih' hrun => ?_, fun _ => ⟨ih, rfl⟩⟩
    cases hrun
    rw [← hih, Function.update_eq_self]
    rfl
  | cons rid rids hrec =>
    rw [runFrom_forM_cons, runFrom_indexRow hih, List.map_cons]
    cases hinsert : ih.insertEntry index.compare (index.key (fh.record rid).row.bytes) rid with
    | error e =>
      refine ⟨fun ih' hrun => ?_, fun hok => ?_⟩
      · obtain ⟨ih₁, hstep, -⟩ := insertEntries_cons_ok.mp hrun
        obtain ⟨p, hcall⟩ := store_eq_some.mp hstep
        rw [hinsert] at hcall
        cases hcall
      · cases hok
    | ok r =>
      have hstep : store index.compare (index.key (fh.record rid).row.bytes, rid) ih = some r.2 :=
        store_eq_some.mpr ⟨r.1, hinsert⟩
      have hself : ({ db with ihs := Function.update db.ihs name (some r.2) } : Database).ihs name = some r.2 :=
        Function.update_self ..
      obtain ⟨hfilled, hreturned⟩ := hrec hself
      refine ⟨fun ih' hrun => ?_, fun hok => ?_⟩
      · obtain ⟨ih₁, hstep₁, hrest⟩ := insertEntries_cons_ok.mp hrun
        rw [hstep] at hstep₁
        cases hstep₁
        refine (hfilled ih' hrest).trans ?_
        simp only [Function.update_idem]
      · obtain ⟨ih', hrest⟩ := hreturned hok
        exact ⟨ih', insertEntries_cons_ok.mpr ⟨r.2, hstep, hrest⟩⟩

end

/-- What is left after the checks is to fill the tree. -/
private theorem createIndex_eq_fill (h : Registrable db tab tabMeta colNames) (htab : db.tabs tab = some tabMeta)
    (hfh : db.store.fhs tab = some fh) (hindex : tabMeta.newIndex colNames = index) :
    ∃ db₁ : Database, db₁.ihs (getIndexName tab index) = some index.newTree ∧
      runFrom (createIndex tab colNames true) db =
        runFrom (tryCatch (fillIndex (getIndexName tab index) index fh) (refuseIndex (getIndexName tab index))) db₁ := by
  have hmeta : newIndexMeta tabMeta colNames true = .ok index := newIndexMeta_ok_iff.mpr ⟨⟨h.new, h.columns⟩, hindex⟩
  have hhandle := h.handle
  have hcreate := createIndex_of_length h.length
  have hunique : index.unique = true := hindex ▸ rfl
  rw [hindex] at hhandle hcreate
  refine ⟨{ db with
    ihs := Function.update db.ihs (getIndexName tab index) (some index.newTree)
    tabs := Function.update db.tabs tab (some { tabMeta with indexes := tabMeta.indexes ++ [index] }) },
    Function.update_self .., ?_⟩
  simp only [createIndex, runFrom_bind, runFrom_getTable, htab, runFrom_ofExcept, hmeta, runFrom_createIndexHandle,
    hhandle, Option.isSome_none, Bool.false_eq_true, if_false, hunique, hcreate, setIndexes, runFrom_modify,
    runFrom_fileHandle, hfh]
  rfl

private theorem registrable_of_createIndex (htab : db.tabs tab = some tabMeta)
    (hok : (runFrom (createIndex tab colNames true) db).1 = .ok ()) : Registrable db tab tabMeta colNames := by
  simp only [createIndex, runFrom_bind, runFrom_getTable, htab, runFrom_ofExcept] at hok
  cases hmeta : newIndexMeta tabMeta colNames true with
  | error e =>
    rw [hmeta] at hok
    cases hok
  | ok index =>
    obtain ⟨⟨hnew, hcolumns⟩, hindex⟩ := newIndexMeta_ok_iff.mp hmeta
    simp only [hmeta, runFrom_createIndexHandle] at hok
    cases hhandle : db.ihs (getIndexName tab index) with
    | some ih =>
      simp only [hhandle, Option.isSome_some, if_true] at hok
      cases hok
    | none =>
      have hlength : index.colTotLen ≤ ixMaxColLen := by
        by_contra hlong
        have hcreate : (IxIndexHandle.createIndex index.colTotLen index.unique : Except IxError (IxIndexHandle Bytes)) =
            .error .invalidColLength := by
          unfold IxIndexHandle.createIndex
          rw [if_pos (Nat.lt_of_not_le hlong)]
          rfl
        simp only [hhandle, Option.isSome_none, Bool.false_eq_true, if_false, hcreate] at hok
        cases hok
      exact ⟨hnew, hcolumns, hindex.symm ▸ hhandle, hindex.symm ▸ hlength⟩

/-- CREATE INDEX returns just when the checks pass and every row goes into the tree. -/
theorem createIndex_run (htab : db.tabs tab = some tabMeta) (hfh : db.store.fhs tab = some fh)
    (hindex : tabMeta.newIndex colNames = index) :
    (Registrable db tab tabMeta colNames →
        ∀ ih, index.newTree.insertEntries index.compare (fh.slotEntries index) = .ok ih →
          (runFrom (createIndex tab colNames true) db).1 = .ok () ∧
            (runFrom (createIndex tab colNames true) db).2.ihs (getIndexName tab index) = some ih) ∧
      ((runFrom (createIndex tab colNames true) db).1 = .ok () → Registrable db tab tabMeta colNames ∧
        ∃ ih, index.newTree.insertEntries index.compare (fh.slotEntries index) = .ok ih) := by
  constructor
  · intro h ih hrun
    obtain ⟨db₁, hih, heq⟩ := createIndex_eq_fill h htab hfh hindex
    have hfill : runFrom (fillIndex (getIndexName tab index) index fh) db₁ = _ := (indexRows_run hih).1 ih hrun
    rw [heq, runFrom_tryCatch, hfill]
    exact ⟨rfl, Function.update_self ..⟩
  · intro hok
    have h := registrable_of_createIndex htab hok
    obtain ⟨db₁, hih, heq⟩ := createIndex_eq_fill h htab hfh hindex
    refine ⟨h, (indexRows_run hih).2 ?_⟩
    rw [heq, runFrom_tryCatch] at hok
    change (runFrom (fillIndex (getIndexName tab index) index fh) db₁).1 = .ok ()
    cases hfill : runFrom (fillIndex (getIndexName tab index) index fh) db₁ with
    | mk r db₂ =>
      rw [hfill] at hok
      cases r with
      | ok _ => rfl
      | error e => exact absurd hok (refuseIndex_ne_ok _ e db₂)

/-- An index whose tree accepts the slots holds exactly their entries. -/
private theorem createIndex_entries (htab : db.tabs tab = some tabMeta) (hfh : db.store.fhs tab = some fh)
    (hindex : tabMeta.newIndex colNames = index) (hok : (runFrom (createIndex tab colNames true) db).1 = .ok ()) :
    ∃ ih stored, (runFrom (createIndex tab colNames true) db).2.ihs (getIndexName tab index) = some ih ∧
      ih.leafEntries = .ok stored ∧ stored.Perm (fh.slotEntries index) := by
  obtain ⟨hfilled, hreturned⟩ := createIndex_run htab hfh hindex
  obtain ⟨hregistrable, ih, hrun⟩ := hreturned hok
  obtain ⟨stored, hstored, hperm⟩ := leafEntries_of_insertEntries index.compare_eq_symm hrun
  exact ⟨ih, stored, (hfilled hregistrable ih hrun).2, hstored, hperm⟩

private theorem createIndex_ok_iff (htab : db.tabs tab = some tabMeta) (hfh : db.store.fhs tab = some fh)
    (hindex : tabMeta.newIndex colNames = index) : (runFrom (createIndex tab colNames true) db).1 = .ok () ↔
      Registrable db tab tabMeta colNames ∧ index.TreeAccepts (fh.slotEntries index) := by
  obtain ⟨hfilled, hreturned⟩ := createIndex_run htab hfh hindex
  rw [IndexMeta.treeAccepts_iff]
  constructor
  · exact hreturned
  · intro ⟨hregistrable, ih, hrun⟩
    exact (hfilled hregistrable ih hrun).1

/-- For a condition under which the tree accepts the slots, where those the transaction sees differ and where not. -/
private theorem indexesVisible_iff_of {accepts : Prop} (htab : db.tabs tab = some tabMeta)
    (hfh : db.store.fhs tab = some fh) (hindex : tabMeta.newIndex colNames = index)
    (haccepts : index.TreeAccepts (fh.slotEntries index) ↔ accepts) :
    IndexesVisible db tab tabMeta colNames fh txn ↔
      (Distinct index.compare (fh.visibleEntries db.store.txnMgr txn.startTs index) →
        Registrable db tab tabMeta colNames ∧ fh.SlotsShown db.store.txnMgr txn.startTs index ∧ accepts) ∧
      (¬Distinct index.compare (fh.visibleEntries db.store.txnMgr txn.startTs index) →
        Registrable db tab tabMeta colNames → ¬accepts) := by
  have hok := createIndex_ok_iff htab hfh hindex
  have hentries := createIndex_entries htab hfh hindex
  rw [haccepts] at hok
  constructor
  · intro h
    have hsucceeds := h.succeeds
    rw [hindex, hok] at hsucceeds
    refine ⟨fun hd => ?_, fun hd hregistrable hdone => hd (hsucceeds.mp ⟨hregistrable, hdone⟩)⟩
    obtain ⟨hregistrable, hdone⟩ := hsucceeds.mpr hd
    refine ⟨hregistrable, ?_, hdone⟩
    obtain ⟨ih, stored, hih, hstored, hperm⟩ := hentries (hok.mpr ⟨hregistrable, hdone⟩)
    obtain ⟨ih', stored', hih', hstored', hperm'⟩ := h.entries (hok.mpr ⟨hregistrable, hdone⟩)
    rw [hindex] at hih' hperm'
    obtain rfl := Option.some.inj (hih.symm.trans hih')
    obtain rfl := Except.ok.inj (hstored.symm.trans hstored')
    exact RmFileHandle.slotsShown_of_perm (hperm.symm.trans hperm')
  · intro ⟨hdistinct, hequal⟩
    have hsucceeds : (runFrom (createIndex tab colNames true) db).1 = .ok () ↔
        Distinct index.compare (fh.visibleEntries db.store.txnMgr txn.startTs index) := by
      rw [hok]
      constructor
      · intro ⟨hregistrable, hdone⟩
        by_contra hd
        exact hequal hd hregistrable hdone
      · intro hd
        obtain ⟨hregistrable, -, hdone⟩ := hdistinct hd
        exact ⟨hregistrable, hdone⟩
    constructor
    · rw [hindex]
      exact hsucceeds
    · intro hreturned
      obtain ⟨ih, stored, hih, hstored, hperm⟩ := hentries hreturned
      have hshown := (hdistinct (hsucceeds.mp hreturned)).2.1
      rw [RmFileHandle.slotEntries_eq_of_slotsShown hshown] at hperm
      rw [hindex]
      exact ⟨ih, stored, hih, hstored, hperm⟩

/-- Where the rows that the transaction sees have different keys, CREATE INDEX does what it should just when its
checks pass, each slot in use shows its key, and the tree accepts the slots; where they do not, just when one of the
checks or the tree stops it. On a table that fits in one leaf, and whose keys have no NaN, the slots alone decide. -/
theorem indexesVisible_iff (htab : db.tabs tab = some tabMeta) (hfh : db.store.fhs tab = some fh)
    (hindex : tabMeta.newIndex colNames = index) :
    (IndexesVisible db tab tabMeta colNames fh txn ↔
      (Distinct index.compare (fh.visibleEntries db.store.txnMgr txn.startTs index) →
        Registrable db tab tabMeta colNames ∧ fh.SlotsShown db.store.txnMgr txn.startTs index ∧
          index.TreeAccepts (fh.slotEntries index)) ∧
      (¬Distinct index.compare (fh.visibleEntries db.store.txnMgr txn.startTs index) →
        Registrable db tab tabMeta colNames → ¬index.TreeAccepts (fh.slotEntries index))) ∧
    ((∀ e ∈ fh.slotEntries index, NaNFree (index.cols.map fun col => (col.type, col.len)) e.1) →
      fh.scanRids.length ≤ btreeOrderOf index.colTotLen →
      (IndexesVisible db tab tabMeta colNames fh txn ↔
        (Distinct index.compare (fh.visibleEntries db.store.txnMgr txn.startTs index) →
          Registrable db tab tabMeta colNames ∧ fh.SlotsShown db.store.txnMgr txn.startTs index) ∧
        (¬Distinct index.compare (fh.visibleEntries db.store.txnMgr txn.startTs index) →
          Registrable db tab tabMeta colNames → ¬Distinct index.compare (fh.slotEntries index)))) := by
  refine ⟨indexesVisible_iff_of htab hfh hindex Iff.rfl, fun hnan hlen => ?_⟩
  rw [indexesVisible_iff_of htab hfh hindex
    (IndexMeta.treeAccepts_iff_distinct hnan (by rwa [RmFileHandle.slotEntries, List.length_map]))]
  refine and_congr_left fun _ => forall_congr' fun hd => and_congr_right fun _ => ?_
  constructor
  · intro h
    exact h.1
  · intro hshown
    exact ⟨hshown, RmFileHandle.slotEntries_eq_of_slotsShown hshown ▸ hd⟩

/-- Two rows of one transaction. -/
theorem indexesVisible_two : ∃ db txn tabMeta fh, (emptyTables 0 ["t"]).run Serial
      [.begin, .stmt 0 (.insert "t" [.int 1, .int 5]), .stmt 0 (.insert "t" [.int 2, .int 6]), .commit 0, .begin] =
        some db ∧
    db.activeTxn 1 = some txn ∧ db.tabs "t" = some tabMeta ∧ db.store.fhs "t" = some fh ∧
      IndexesVisible db "t" tabMeta ["a"] fh txn := by
  have hany : ((emptyTables 0 ["t"]).run Serial
      [.begin, .stmt 0 (.insert "t" [.int 1, .int 5]), .stmt 0 (.insert "t" [.int 2, .int 6]), .commit 0, .begin]).any
        (fun db => (db.activeTxn 1).any fun txn => (db.tabs "t").any fun tabMeta => (db.store.fhs "t").any fun fh =>
          let index := tabMeta.newIndex ["a"]
          (fh.visibleEntries db.store.txnMgr txn.startTs index).Pairwise (fun a b => index.compare a.1 b.1 ≠ .eq) ∧
            ((∀ index ∈ tabMeta.indexes, index.cols.map (·.name) ≠ ["a"]) ∧
              (∀ name ∈ ["a"], ∃ col ∈ tabMeta.cols, col.name = name) ∧
              (db.ihs (getIndexName "t" index)).isNone = true ∧ index.colTotLen ≤ ixMaxColLen) ∧
            fh.SlotsShown db.store.txnMgr txn.startTs index ∧ index.TreeAccepts (fh.slotEntries index)) = true := by
    decide +kernel
  obtain ⟨db, hrun, hdb⟩ := (Option.any_eq_true _ _).mp hany
  obtain ⟨txn, htxn, hdb⟩ := (Option.any_eq_true _ _).mp hdb
  obtain ⟨tabMeta, htab, hdb⟩ := (Option.any_eq_true _ _).mp hdb
  obtain ⟨fh, hfh, hdb⟩ := (Option.any_eq_true _ _).mp hdb
  obtain ⟨hdistinct, ⟨hnew, hcolumns, hhandle, hlength⟩, hshown, haccepts⟩ := of_decide_eq_true hdb
  have hregistrable : Registrable db "t" tabMeta ["a"] := ⟨hnew, hcolumns, Option.isNone_iff_eq_none.mp hhandle, hlength⟩
  exact ⟨db, txn, tabMeta, fh, hrun, htxn, htab, hfh,
    (indexesVisible_iff htab hfh rfl).1.mpr ⟨fun _ => ⟨hregistrable, hshown, haccepts⟩, fun h => absurd hdistinct h⟩⟩

/-- A row was deleted, and another one with its key came after it. -/
theorem not_indexesVisible : ¬∀ (db₀ db : Database) (n txnId : ℤ) (txn : Transaction) (tab : String) (tabMeta : TabMeta)
    (fh : RmFileHandle) (colNames : List String), db₀.Started n →
    (∀ tab rid rec_, db₀.store.slot tab rid = some rec_ → rec_.tupleMeta.ts = 0) → db₀.Reaches Serial db →
    db.activeTxn txnId = some txn → db.tabs tab = some tabMeta → db.store.fhs tab = some fh →
    Registrable db tab tabMeta colNames → IndexesVisible db tab tabMeta colNames fh txn := by
  intro hclaim
  have hany : ((emptyTables 0 ["t"]).run Serial
      [.begin, .stmt 0 (.insert "t" [.int 1, .int 5]), .commit 0, .begin, .stmt 1 (deleteSeq "t" 1),
        .stmt 1 (.insert "t" [.int 1, .int 6]), .commit 1, .begin]).any
        (fun db => (db.activeTxn 2).any fun txn => (db.tabs "t").any fun tabMeta => (db.store.fhs "t").any fun fh =>
          let index := tabMeta.newIndex ["a"]
          (fh.visibleEntries db.store.txnMgr txn.startTs index).Pairwise (fun a b => index.compare a.1 b.1 ≠ .eq) ∧
            ((∀ index ∈ tabMeta.indexes, index.cols.map (·.name) ≠ ["a"]) ∧
              (∀ name ∈ ["a"], ∃ col ∈ tabMeta.cols, col.name = name) ∧
              (db.ihs (getIndexName "t" index)).isNone = true ∧ index.colTotLen ≤ ixMaxColLen) ∧
            (runFrom (createIndex "t" ["a"] true) db).1.toBool = false) = true := by
    decide +kernel
  obtain ⟨db, hrun, hdb⟩ := (Option.any_eq_true _ _).mp hany
  obtain ⟨txn, htxn, hdb⟩ := (Option.any_eq_true _ _).mp hdb
  obtain ⟨tabMeta, htab, hdb⟩ := (Option.any_eq_true _ _).mp hdb
  obtain ⟨fh, hfh, hdb⟩ := (Option.any_eq_true _ _).mp hdb
  obtain ⟨hdistinct, ⟨hnew, hcolumns, hhandle, hlength⟩, hfails⟩ := of_decide_eq_true hdb
  have h := hclaim _ db 0 2 txn "t" tabMeta fh ["a"] (emptyTables_started (n := 0) le_rfl ["t"])
    (emptyTables_fresh 0 ["t"]) (reaches_of_run hrun) htxn htab hfh
    ⟨hnew, hcolumns, Option.isNone_iff_eq_none.mp hhandle, hlength⟩
  rw [h.succeeds.mpr hdistinct] at hfails
  cases hfails

end Rmdb
