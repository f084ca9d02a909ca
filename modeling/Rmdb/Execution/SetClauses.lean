import Rmdb.Execution.Expressions
import Rmdb.Execution.Outcome
import Rmdb.Execution.UndoImages
import Rmdb.Lib.Sparse
import Rmdb.Lib.Writes

/-! The SET clauses of an UPDATE, which all see the old record. -/
namespace Rmdb

open Program Analyze Writes

/-! ### Columns in the bytes of a row -/

section
variable {col other : ColMeta} {data raw : Bytes}

theorem field_eq_window (h : col.offset + col.len ≤ data.length) :
    col.field data = Sparse.window 0 data col.offset col.len := by
  have hlen : ((data.drop col.offset).take col.len).length = col.len := by
    rw [List.length_take, List.length_drop]
    omega
  rw [← Sparse.take_append_replicate, hlen, Nat.sub_self, List.replicate_zero, List.append_nil]
  rfl

theorem write_eq_overwrite (h : col.offset ≤ data.length) :
    col.write data raw = Sparse.overwrite 0 data col.offset raw := by
  unfold ColMeta.write Sparse.overwrite
  rw [Nat.sub_eq_zero_of_le h, List.replicate_zero, List.append_nil]

theorem length_write (hin : col.offset + raw.length ≤ data.length) : (col.write data raw).length = data.length := by
  unfold ColMeta.write
  rw [List.length_append, List.length_append, List.length_take, List.length_drop]
  omega

theorem field_write_self (hraw : raw.length = col.len) (hin : col.offset + col.len ≤ data.length) :
    col.field (col.write data raw) = raw := by
  rw [← hraw] at hin
  have hlen := length_write hin
  rw [field_eq_window (by omega), write_eq_overwrite (by omega), ← hraw]
  exact Sparse.window_overwrite 0 data col.offset raw

/-- A column beside the one that is written stays. -/
theorem field_write_of_apart (hraw : raw.length = col.len) (hin : col.offset + col.len ≤ data.length)
    (hother : other.offset + other.len ≤ data.length)
    (hapart : other.offset + other.len ≤ col.offset ∨ col.offset + col.len ≤ other.offset) :
    other.field (col.write data raw) = other.field data := by
  rw [← hraw] at hin hapart
  have hlen := length_write hin
  rw [field_eq_window (by omega), field_eq_window hother, write_eq_overwrite (by omega)]
  exact Sparse.window_overwrite_disjoint hapart

end

section
variable {offset : ℕ} {colDefs : List ColDef} {a b col : ColMeta} {data : Bytes}

theorem le_offset_of_mem_colMetas (h : col ∈ colMetas offset colDefs) : offset ≤ col.offset := by
  induction colDefs generalizing offset with
  | nil => cases h
  | cons first colDefs ih =>
    cases List.mem_cons.mp h with
    | inl heq => exact heq ▸ le_rfl
    | inr hrest => exact le_trans (Nat.le_add_right _ _) (ih hrest)

/-- The columns of a table do not overlap. -/
theorem colMetas_apart (ha : a ∈ colMetas offset colDefs) (hb : b ∈ colMetas offset colDefs) (hne : a ≠ b) :
    a.offset + a.len ≤ b.offset ∨ b.offset + b.len ≤ a.offset := by
  induction colDefs generalizing offset with
  | nil => cases ha
  | cons first colDefs ih =>
    cases List.mem_cons.mp ha with
    | inl haeq =>
      cases List.mem_cons.mp hb with
      | inl hbeq => exact absurd (haeq.trans hbeq.symm) hne
      | inr hbrest =>
        left
        rw [haeq]
        exact le_offset_of_mem_colMetas hbrest
    | inr harest =>
      cases List.mem_cons.mp hb with
      | inl hbeq =>
        right
        rw [hbeq]
        exact le_offset_of_mem_colMetas harest
      | inr hbrest => exact ih harest hbrest

/-- The fields of a row after writes to its columns. -/
theorem field_writes {writes : List (ColMeta × Bytes)} (hlen : data.length = (colDefs.map (·.len)).sum)
    (hwrites : ∀ w ∈ writes, w.1 ∈ colMetas 0 colDefs ∧ w.2.length = w.1.len) :
    (writes.foldl (fun data w => w.1.write data w.2) data).length = (colDefs.map (·.len)).sum ∧
    ∀ col ∈ colMetas 0 colDefs, col.field (writes.foldl (fun data w => w.1.write data w.2) data) =
      writeAll writes (fun col => col.field data) col := by
  induction writes generalizing data with
  | nil => exact ⟨hlen, fun _ _ => rfl⟩
  | cons w writes ih =>
    obtain ⟨⟨hw, hraw⟩, hrest⟩ := List.forall_mem_cons.mp hwrites
    have hin := (mem_colMetas hw).2
    have hlen' : (w.1.write data w.2).length = (colDefs.map (·.len)).sum := by
      rw [length_write (by omega), hlen]
    obtain ⟨hlength, hfields⟩ := ih hlen' hrest
    refine ⟨hlength, fun col hcol => ?_⟩
    have hcolIn := (mem_colMetas hcol).2
    rw [List.foldl_cons, hfields col hcol, writeAll_cons]
    apply writeAll_congr
    by_cases heq : col = w.1
    · rw [heq, Function.update_self, field_write_self hraw (by omega)]
    · rw [Function.update_of_ne heq,
        field_write_of_apart hraw (by omega) (by omega) (colMetas_apart hcol hw heq)]

end

/-! ### The clauses -/

theorem Value.length_initRaw {val : Value} {col : ColMeta} {raw : Bytes} (h : val.initRaw col = .ok raw) :
    raw.length = col.len := by
  unfold initRaw at h
  generalize val.cast col.type = val at h
  by_cases htype : val.type ≠ col.type
  · rw [if_pos htype] at h
    cases h
  · rw [if_neg htype] at h
    cases val with
    | int i =>
      dsimp only at h
      by_cases hlen : col.len = 4
      · rw [if_pos hlen] at h
        cases h
        exact hlen.symm
      · rw [if_neg hlen] at h
        cases h
    | float f =>
      dsimp only at h
      by_cases hlen : col.len = 4
      · rw [if_pos hlen] at h
        cases h
        exact hlen.symm
      · rw [if_neg hlen] at h
        cases h
    | str s =>
      dsimp only at h
      by_cases hlen : col.len < s.length
      · rw [if_pos hlen] at h
        cases h
      · rw [if_neg hlen] at h
        cases h
        rw [List.length_append, List.length_replicate]
        omega

/-- The column of a clause and the bytes that it gets. -/
def SetClause.target (tabMeta : TabMeta) (old : Bytes) (set : SetClause) : Except DbError (ColMeta × Bytes) :=
  match tabMeta.cols.find? (·.name = set.lhs) with
  | none => throw (.rmdb .columnNotFound)
  | some col => do return (col, ← (← (set.rhs old).mapError .rmdb).initRaw col)

/-- All clauses are evaluated on the old record; the bytes are then written one after another. -/
theorem applySetClauses_eq (tabMeta : TabMeta) (setClauses : List SetClause) (old data : Bytes) :
    applySetClauses tabMeta setClauses old data = do
      let writes ← setClauses.mapM (SetClause.target tabMeta old)
      return writes.foldl (fun data w => w.1.write data w.2) data := by
  induction setClauses generalizing data with
  | nil => rfl
  | cons set setClauses ih =>
    have hcons : applySetClauses tabMeta (set :: setClauses) old data = (do
        let w ← set.target tabMeta old
        applySetClauses tabMeta setClauses old (w.1.write data w.2)) := by
      unfold applySetClauses SetClause.target
      rw [List.foldlM_cons]
      cases tabMeta.cols.find? (·.name = set.lhs) with
      | none => rfl
      | some col =>
        dsimp only
        rw [bind_assoc, bind_assoc]
        congr 1
        funext val
        rw [bind_assoc, bind_assoc]
        simp only [pure_bind]
    rw [hcons, List.mapM_cons, bind_assoc]
    congr 1
    funext w
    rw [ih, bind_assoc]
    rfl

theorem SetClause.target_ok {tabMeta : TabMeta} {old raw : Bytes} {set : SetClause} {col : ColMeta}
    (h : set.target tabMeta old = .ok (col, raw)) : tabMeta.cols.find? (·.name = set.lhs) = some col ∧
      ∃ val, set.rhs old = .ok val ∧ val.initRaw col = .ok raw := by
  unfold target at h
  cases hfind : tabMeta.cols.find? (·.name = set.lhs) with
  | none =>
    rw [hfind] at h
    cases h
  | some found =>
    rw [hfind] at h
    obtain ⟨val, hval, h⟩ := bind_eq_ok.mp h
    obtain ⟨raw', hraw, h⟩ := bind_eq_ok.mp h
    cases h
    refine ⟨rfl, val, ?_, hraw⟩
    cases hrhs : set.rhs old with
    | error e =>
      rw [hrhs] at hval
      cases hval
    | ok val' =>
      rw [hrhs] at hval
      cases hval
      rfl

section
variable {tabMeta : TabMeta} {colDefs : List ColDef} {setClauses : List SetClause} {old new : Bytes}

/-- Each target column holds the value of its expression on the old record, and the other columns are as before. -/
structure Assigned (tabMeta : TabMeta) (setClauses : List SetClause) (old new : Bytes) : Prop where
  target : ∀ set ∈ setClauses, ∃ col val raw, tabMeta.cols.find? (·.name = set.lhs) = some col ∧
    set.rhs old = .ok val ∧ val.initRaw col = .ok raw ∧ col.field new = raw
  other : ∀ col ∈ tabMeta.cols, (∀ set ∈ setClauses, tabMeta.cols.find? (·.name = set.lhs) ≠ some col) →
    col.field new = col.field old

/-- What the clauses write, each in its own column. -/
theorem targets_spec (hcols : tabMeta.cols = colMetas 0 colDefs) (hdistinct : (setClauses.map (·.lhs)).Nodup)
    {writes : List (ColMeta × Bytes)} (h : setClauses.mapM (SetClause.target tabMeta old) = .ok writes) :
    (∀ w ∈ writes, w.1 ∈ colMetas 0 colDefs ∧ w.2.length = w.1.len) ∧ (writes.map Prod.fst).Nodup ∧
    (∀ w ∈ writes, ∃ set ∈ setClauses, set.target tabMeta old = .ok w) ∧
    ∀ set ∈ setClauses, ∃ w ∈ writes, set.target tabMeta old = .ok w := by
  have hnames : writes.map (·.1.name) = setClauses.map (·.lhs) := by
    induction setClauses generalizing writes with
    | nil =>
      cases h
      rfl
    | cons set setClauses ih =>
      rw [List.mapM_cons] at h
      obtain ⟨w, hw, h⟩ := bind_eq_ok.mp h
      obtain ⟨ws, hws, h⟩ := bind_eq_ok.mp h
      cases h
      have hname := List.find?_some (SetClause.target_ok hw).1
      rw [List.map_cons, List.map_cons, ih (List.nodup_cons.mp hdistinct).2 hws]
      exact congrArg (· :: _) (of_decide_eq_true hname)
  have hof := fun w (hw : w ∈ writes) => of_mem_mapM h hw
  refine ⟨fun w hw => ?_, ?_, hof, fun set hset => exists_of_mem_mapM h hset⟩
  · obtain ⟨set, -, htarget⟩ := hof w hw
    obtain ⟨hfind, val, -, hraw⟩ := SetClause.target_ok htarget
    rw [← hcols]
    exact ⟨List.mem_of_find?_eq_some hfind, Value.length_initRaw hraw⟩
  · rw [← hnames] at hdistinct
    have hmap : writes.map (·.1.name) = (writes.map Prod.fst).map (·.name) := by rw [List.map_map]; rfl
    rw [hmap] at hdistinct
    exact hdistinct.of_map

/-- The clauses act on the old record all at once, in whatever order they stand. -/
theorem applySetClauses_assigned (hcols : tabMeta.cols = colMetas 0 colDefs)
    (hlen : old.length = (colDefs.map (·.len)).sum) (hdistinct : (setClauses.map (·.lhs)).Nodup)
    (h : applySetClauses tabMeta setClauses old old = .ok new) : Assigned tabMeta setClauses old new ∧
      ∀ setClauses', setClauses'.Perm setClauses → applySetClauses tabMeta setClauses' old old = .ok new := by
  rw [applySetClauses_eq] at h
  obtain ⟨writes, hwrites, h⟩ := bind_eq_ok.mp h
  cases h
  obtain ⟨hin, hnodup, hof, hto⟩ := targets_spec hcols hdistinct hwrites
  obtain ⟨hlength, hfields⟩ := field_writes hlen hin
  refine ⟨⟨fun set hset => ?_, fun col hcol hother => ?_⟩, fun setClauses' hperm => ?_⟩
  · obtain ⟨⟨col, raw⟩, hw, htarget⟩ := hto set hset
    obtain ⟨hfind, val, hval, hraw⟩ := SetClause.target_ok htarget
    refine ⟨col, val, raw, hfind, hval, hraw, ?_⟩
    rw [hfields col (hin _ hw).1]
    exact writeAll_of_mem hnodup hw
  · rw [hcols] at hcol
    rw [hfields col hcol]
    apply writeAll_of_notMem
    intro hmem
    obtain ⟨w, hw, rfl⟩ := List.mem_map.mp hmem
    obtain ⟨set, hset, htarget⟩ := hof w hw
    exact hother set hset (SetClause.target_ok htarget).1
  · obtain ⟨writes', hwrites', hperm'⟩ := mapM_perm hperm.symm hwrites
    have hin' : ∀ w ∈ writes', w.1 ∈ colMetas 0 colDefs ∧ w.2.length = w.1.len :=
      fun w hw => hin w (hperm'.mem_iff.mpr hw)
    obtain ⟨hlength', hfields'⟩ := field_writes hlen hin'
    rw [applySetClauses_eq, hwrites']
    refine congrArg Except.ok (eq_of_fields hlength' hlength fun col hcol => ?_)
    rw [hfields col hcol, hfields' col hcol, writeAll_perm hnodup hperm']

/-- The clause `lhs = expr`. -/
def setClause (cols : List TableCol) (lhs : String) (expr : Expr) : SetClause :=
  ⟨lhs, fun old => evaluateExpr cols old expr⟩

/-- An UPDATE that goes through has put the new data into the slot. -/
theorem updateRow_slot {db db' : Database} {txn : Transaction} {tab : String} {rid : Rid} {fh : RmFileHandle}
    {view : RecordView} (hfh : db.store.fhs tab = some fh)
    (hread : fh.getRecordMvcc db.store.txnMgr txn.startTs rid = .ok (some view))
    (hrun : runFrom (updateRow txn tab tabMeta setClauses rid) db = (.ok (), db')) :
    ∃ rec_, db'.store.slot tab rid = some rec_ ∧
      applySetClauses tabMeta setClauses view.data (fh.record rid).row.bytes = .ok rec_.row.bytes := by
  have hpage := (RmFileHandle.getRecordMvcc_page hread).2
  simp only [updateRow, runFrom_bind, runFrom_getStore, runFrom_fileHandle, hfh] at hrun
  cases hconflict : fh.checkWriteWriteConflict db.store.txnMgr txn rid with
  | true =>
    simp only [hconflict, if_true] at hrun
    cases hrun
  | false =>
    simp only [hconflict, Bool.false_eq_true, if_false, runFrom_ofExcept, hread, runFrom_bind, runFrom_modifyStore]
      at hrun
    generalize updateLog tabMeta (fh.record rid) view (db.store.txnMgr.getUndoLink rid) = log at hrun
    have hstore := (prepareUpdate_same tab tabMeta setClauses rid view.data (fh.record rid).row.bytes
      { db with store := db.store.appendUndoLog txn log }).1
    cases hprepare : runFrom (prepareUpdate tab tabMeta setClauses rid view.data (fh.record rid).row.bytes)
      { db with store := db.store.appendUndoLog txn log } with
    | mk r mid =>
      rw [hprepare] at hrun hstore
      cases r with
      | error e => cases hrun
      | ok new =>
        cases hrun
        have hmid : mid.store.fhs tab = some fh := by
          rw [hstore]
          exact hfh
        have hput := Store.installVersion_put hmid hpage txn .updateTuple (db.store.txnMgr.nextUndoLink txn.txnId)
          (updatedRecord txn tab rid new)
        exact ⟨_, hput.slot_self, prepareUpdate_ok hprepare⟩

/-- SET clauses that name each target once change a row as one simultaneous assignment. -/
theorem updateRow_simultaneous {db : Database} {txn : Transaction} {tab : String} {rid : Rid} {fh : RmFileHandle}
    {view : RecordView} {assignments : List (String × Expr)} (hfh : db.store.fhs tab = some fh)
    (hcols : tabMeta.cols = colMetas 0 colDefs)
    (hlen : (fh.record rid).row.bytes.length = (colDefs.map (·.len)).sum)
    (hread : fh.getRecordMvcc db.store.txnMgr txn.startTs rid = .ok (some view))
    (hcurrent : view.data = (fh.record rid).row.bytes) (hdistinct : (assignments.map (·.1)).Nodup) :
    let clauses (assignments : List (String × Expr)) :=
      assignments.map fun (lhs, expr) => setClause (tabMeta.tableCols tab) lhs expr
    (∀ new, applySetClauses tabMeta (clauses assignments) view.data (fh.record rid).row.bytes = .ok new →
      Assigned tabMeta (clauses assignments) view.data new ∧
        ∀ assignments', assignments'.Perm assignments →
          applySetClauses tabMeta (clauses assignments') view.data (fh.record rid).row.bytes = .ok new) ∧
    ∀ db', runFrom (updateRow txn tab tabMeta (clauses assignments) rid) db = (.ok (), db') →
      ∃ rec_, db'.store.slot tab rid = some rec_ ∧
        applySetClauses tabMeta (clauses assignments) view.data (fh.record rid).row.bytes = .ok rec_.row.bytes := by
  intro clauses
  have hnames : ((clauses assignments).map (·.lhs)).Nodup := by
    unfold clauses
    rwa [List.map_map]
  constructor
  · intro new hnew
    rw [← hcurrent] at hlen hnew ⊢
    obtain ⟨hassigned, hperm⟩ := applySetClauses_assigned hcols hlen hnames hnew
    exact ⟨hassigned, fun assignments' h => hperm _ (h.map _)⟩
  · intro db' hrun
    exact updateRow_slot hfh hread hrun

end

/-- `SET a = b, b = a` on the row `(1, 5)`. -/
theorem updateRow_simultaneous_swap :
    let colDefs : List ColDef := [⟨"a", .int, 4⟩, ⟨"b", .int, 4⟩]
    let tabMeta : TabMeta := tableOf colDefs (List.cons_ne_nil _ _)
    Assigned tabMeta ([("a", .col ⟨"", "b"⟩), ("b", .col ⟨"", "a"⟩)].map fun (lhs, expr) =>
        setClause (tabMeta.tableCols "t") lhs expr)
      (wordBytes 1 ++ wordBytes 5) (wordBytes 5 ++ wordBytes 1) := by
  intro colDefs tabMeta
  let row : RmRecord := ⟨⟨0, false⟩, ⟨wordBytes 1 ++ wordBytes 5, 0, "t", ⟨1, 0⟩⟩, 0⟩
  let fh := ((fileOf colDefs).insertRecord fun _ => row).2
  let db : Database := ⟨⟨.init 0, fun _ => some fh, []⟩, fun _ => some tabMeta, fun _ => none⟩
  let txn : Transaction := ⟨1, false, .growing, 1, -1, [], [], false⟩
  have hfh : db.store.fhs "t" = some fh := rfl
  have hcols : tabMeta.cols = colMetas 0 colDefs := rfl
  have hread : fh.getRecordMvcc db.store.txnMgr txn.startTs ⟨1, 0⟩ = .ok (some ⟨none, row.row⟩) := by decide +kernel
  have hdata : (⟨none, row.row⟩ : RecordView).data = (fh.record ⟨1, 0⟩).row.bytes := by decide +kernel
  have hlen : (fh.record ⟨1, 0⟩).row.bytes.length = (colDefs.map (·.len)).sum := by decide +kernel
  have hdistinct : ([("a", Expr.col ⟨"", "b"⟩), ("b", .col ⟨"", "a"⟩)].map (·.1)).Nodup := by decide
  obtain ⟨hcomputed, -⟩ := updateRow_simultaneous hfh hcols hlen hread hdata hdistinct
  rw [← hdata] at hcomputed
  exact (hcomputed _ rfl).1

end Rmdb
