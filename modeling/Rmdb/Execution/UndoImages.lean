import Rmdb.Record.Visibility
import Rmdb.System.SmManager
import Mathlib.Algebra.Order.BigOperators.Group.List
import Mathlib.Algebra.Order.Ring.Nat

/-! What the undo logs of UPDATE and DELETE bring back of the row that they were made from. -/
namespace Rmdb

/-- The statements that log an old version. -/
inductive LoggedBy where
  | update
  | delete
deriving DecidableEq, Repr

def LoggedBy.undoLog : LoggedBy → TabMeta → RmRecord → RecordView → Option UndoLink → UndoLog
  | .update => updateLog
  | .delete => deleteLog

/-- A table as `create_table` makes it from columns that the parser lets through, and its file. -/
structure CreatedFrom (colDefs : List ColDef) (tabMeta : TabMeta) (fh : RmFileHandle) : Prop where
  cols : tabMeta.cols = colMetas 0 colDefs
  recordSize : fh.recordSize = (colDefs.map (·.len)).sum + tupleMetaSize
  number : ∀ col ∈ colDefs, col.type ≠ .string → col.len = 4

/-- From the log that the statement makes of a row, a row with the same columns is put together. -/
def RestoresRow (logged : LoggedBy) (tabMeta : TabMeta) (fh : RmFileHandle) (row : RowData) : Prop :=
  ∀ raw prev, ∃ restored,
    fh.reconstructTupleFromUndoLog (logged.undoLog tabMeta raw ⟨none, row⟩ prev) = some restored ∧
      ∀ col ∈ tabMeta.cols, col.field restored.bytes = col.field row.bytes

def Restores (logged : LoggedBy) (tabMeta : TabMeta) (fh : RmFileHandle) : Prop :=
  ∀ row : RowData, row.bytes.length = fh.recordSize - tupleMetaSize → RestoresRow logged tabMeta fh row

/-- A row has at most two columns of four bytes, apart from empty ones behind them; an UPDATE keeps no strings. -/
def Restorable (logged : LoggedBy) (colDefs : List ColDef) : Prop :=
  let size := (colDefs.map (·.len)).sum
  (size = 0 ∨ size = 4 ∨ size = 8) ∧
    ∀ col ∈ colDefs.take (size / 4), col.len = 4 ∧ (logged = .update → col.type ≠ .string)

instance (logged : LoggedBy) (colDefs : List ColDef) : Decidable (Restorable logged colDefs) :=
  inferInstanceAs (Decidable (_ ∧ _))

namespace LoggedBy

/-- The value of a column in the log. -/
def fieldValue : LoggedBy → ColMeta → Bytes → Value
  | .update => ColMeta.trimmedValue
  | .delete => ColMeta.value

theorem undoLog_fields (logged : LoggedBy) (tabMeta : TabMeta) (raw : RmRecord) (row : RowData)
    (prev : Option UndoLink) : (logged.undoLog tabMeta raw ⟨none, row⟩ prev).tuple =
        tabMeta.cols.map (fun col => logged.fieldValue col row.bytes) ∧
      (logged.undoLog tabMeta raw ⟨none, row⟩ prev).modifiedFields.length = tabMeta.cols.length := by
  cases logged with
  | update => exact ⟨rfl, List.length_replicate⟩
  | delete => exact ⟨rfl, List.length_replicate⟩

end LoggedBy

@[simp] theorem Value.length_reconstructedBytes (val : Value) : val.reconstructedBytes.length = 4 := by
  cases val with
  | int _ => rfl
  | float _ => rfl
  | str s =>
    rw [reconstructedBytes, List.length_take, List.length_append, List.length_replicate]
    omega

theorem length_flatMap_reconstructed (values : List Value) :
    (values.flatMap Value.reconstructedBytes).length = 4 * values.length := by
  induction values with
  | nil => rfl
  | cons val values ih =>
    rw [List.flatMap_cons, List.length_append, ih, Value.length_reconstructedBytes, List.length_cons]
    omega

/-! ### The columns of a row -/

theorem take_colMetas (offset k : ℕ) (colDefs : List ColDef) :
    (colMetas offset colDefs).take k = colMetas offset (colDefs.take k) := by
  induction colDefs generalizing offset k with
  | nil => simp [colMetas]
  | cons col colDefs ih =>
    cases k with
    | zero => rfl
    | succ k => rw [colMetas, List.take_succ_cons, ih, List.take_succ_cons, colMetas]

theorem length_colMetas (offset : ℕ) (colDefs : List ColDef) : (colMetas offset colDefs).length = colDefs.length := by
  induction colDefs generalizing offset with
  | nil => rfl
  | cons col colDefs ih => rw [colMetas, List.length_cons, ih, List.length_cons]

/-- A column has the type and the length of its definition, and ends where the row does at the latest. -/
theorem mem_colMetas {offset : ℕ} {colDefs : List ColDef} {col : ColMeta} (h : col ∈ colMetas offset colDefs) :
    (∃ colDef ∈ colDefs, col.type = colDef.type ∧ col.len = colDef.len) ∧
      col.offset + col.len ≤ offset + (colDefs.map (·.len)).sum := by
  induction colDefs generalizing offset with
  | nil => cases h
  | cons first colDefs ih =>
    rw [List.map_cons, List.sum_cons]
    rcases List.mem_cons.mp h with rfl | hrest
    · refine ⟨⟨first, List.mem_cons_self, rfl, rfl⟩, ?_⟩
      change offset + first.len ≤ _
      omega
    · obtain ⟨⟨colDef, hmem, htype⟩, hend⟩ := ih hrest
      exact ⟨⟨colDef, List.mem_cons_of_mem _ hmem, htype⟩, by omega⟩

theorem exists_colMeta (offset : ℕ) {colDefs : List ColDef} {colDef : ColDef} (h : colDef ∈ colDefs) :
    ∃ col ∈ colMetas offset colDefs, col.type = colDef.type ∧ col.len = colDef.len := by
  induction colDefs generalizing offset with
  | nil => cases h
  | cons first colDefs ih =>
    rcases List.mem_cons.mp h with rfl | hrest
    · exact ⟨_, List.mem_cons_self, rfl, rfl⟩
    · obtain ⟨col, hcol, htype⟩ := ih (offset + first.len) hrest
      exact ⟨col, List.mem_cons_of_mem _ hcol, htype⟩

/-- The columns make up the row. -/
theorem flatMap_field (offset : ℕ) (colDefs : List ColDef) (data : Bytes) :
    (colMetas offset colDefs).flatMap (fun col => col.field data) =
      (data.drop offset).take (colDefs.map (·.len)).sum := by
  induction colDefs generalizing offset with
  | nil => rfl
  | cons col colDefs ih =>
    rw [colMetas, List.flatMap_cons, ih, List.map_cons, List.sum_cons, List.take_add, List.drop_drop]
    rfl

theorem eq_of_fields {colDefs : List ColDef} {data data' : Bytes} (hlen : data.length = (colDefs.map (·.len)).sum)
    (hlen' : data'.length = (colDefs.map (·.len)).sum)
    (h : ∀ col ∈ colMetas 0 colDefs, col.field data = col.field data') : data = data' := by
  have hflat := flatMap_field 0 colDefs data
  have hflat' := flatMap_field 0 colDefs data'
  rw [List.drop_zero, ← hlen, List.take_length] at hflat
  rw [List.drop_zero, ← hlen', List.take_length] at hflat'
  rw [← hflat, ← hflat']
  exact List.flatMap_congr h

theorem field_replicate {col : ColMeta} {size : ℕ} (h : col.offset + col.len ≤ size) (byte : UInt8) :
    col.field (List.replicate size byte) = List.replicate col.len byte := by
  rw [ColMeta.field, List.drop_replicate, List.take_replicate]
  congr 1
  omega

/-! ### What is put back of a value -/

/-- A value of four bytes comes back, a string only where it was not trimmed. -/
theorem reconstructedBytes_fieldValue {logged : LoggedBy} {col : ColMeta} {data : Bytes}
    (hfield : (col.field data).length = 4) (hkept : logged = .update → col.type ≠ .string) :
    (logged.fieldValue col data).reconstructedBytes = col.field data := by
  have hvalue : logged.fieldValue col data = col.value data := by
    cases logged with
    | delete => rfl
    | update =>
      have htype := hkept rfl
      rw [LoggedBy.fieldValue, ColMeta.trimmedValue, ColMeta.value]
      cases hcol : col.type with
      | int => rfl
      | float => rfl
      | string => exact absurd hcol htype
  rw [hvalue, ColMeta.value]
  cases col.type with
  | int => exact wordBytes_readWord _ hfield
  | float => exact wordBytes_readWord _ hfield
  | string =>
    change (col.field data ++ List.replicate 4 0).take 4 = _
    exact List.take_left' hfield

/-- A string that is shorter than its four bytes is filled up. -/
theorem zero_mem_reconstructedBytes {val : Bytes} (h : val.length < 4) : 0 ∈ (Value.str val).reconstructedBytes := by
  rw [Value.reconstructedBytes, List.take_append, List.take_replicate]
  exact List.mem_append_right _ (List.mem_replicate.mpr ⟨by omega, rfl⟩)

theorem fieldValue_string (logged : LoggedBy) {col : ColMeta} (hcol : col.type = .string) (data : Bytes) :
    ∃ val, logged.fieldValue col data = .str val ∧ val.length ≤ (col.field data).length := by
  have hvalue : col.value data = .str (col.field data) := by
    rw [ColMeta.value, hcol]
  cases logged with
  | delete => exact ⟨_, hvalue, le_rfl⟩
  | update =>
    refine ⟨((col.field data).reverse.dropWhile (· = 32)).reverse.filter (· ≠ 0), ?_, ?_⟩
    · rw [LoggedBy.fieldValue, ColMeta.trimmedValue, hvalue]
    · have hfilter := List.length_filter_le (· ≠ 0) ((col.field data).reverse.dropWhile (· = 32)).reverse
      have hdrop := (List.dropWhile_sublist (· = 32) (l := (col.field data).reverse)).length_le
      rw [List.length_reverse] at hfilter hdrop
      omega

/-- Of blanks, an UPDATE keeps nothing. -/
theorem fieldValue_blank {col : ColMeta} (hcol : col.type = .string) {data : Bytes} {n : ℕ}
    (hfield : col.field data = List.replicate n 32) : LoggedBy.update.fieldValue col data = .str [] := by
  have hdrop : (List.replicate n (32 : UInt8)).dropWhile (· = 32) = [] := by
    rw [List.dropWhile_replicate]
    rfl
  rw [LoggedBy.fieldValue, ColMeta.trimmedValue, ColMeta.value, hcol]
  change Value.str _ = _
  rw [hfield, List.reverse_replicate, hdrop]
  rfl

/-! ### The row that is put together -/

/-- The number of columns that are put back. -/
def restoredCount (colDefs : List ColDef) : ℕ := min (min colDefs.length 2) ((colDefs.map (·.len)).sum / 4)

def restoredFields (logged : LoggedBy) (colDefs : List ColDef) (data : Bytes) : Bytes :=
  ((colMetas 0 colDefs).take (restoredCount colDefs)).flatMap fun col =>
    (logged.fieldValue col data).reconstructedBytes

variable {logged : LoggedBy} {colDefs : List ColDef} {tabMeta : TabMeta} {fh : RmFileHandle}

theorem length_restoredFields (logged : LoggedBy) (colDefs : List ColDef) (data : Bytes) :
    (restoredFields logged colDefs data).length = 4 * restoredCount colDefs := by
  have hcount : restoredCount colDefs ≤ colDefs.length := by
    rw [restoredCount]
    omega
  rw [restoredFields, ← List.flatMap_map, length_flatMap_reconstructed, List.length_map, List.length_take,
    length_colMetas, min_eq_left hcount]

theorem CreatedFrom.dataSize (h : CreatedFrom colDefs tabMeta fh) :
    fh.recordSize - tupleMetaSize = (colDefs.map (·.len)).sum := by
  rw [h.recordSize, Nat.add_sub_cancel]

/-- At most two fields and zeros behind them. -/
theorem CreatedFrom.reconstruct (h : CreatedFrom colDefs tabMeta fh) (logged : LoggedBy) (raw : RmRecord)
    (row : RowData) (prev : Option UndoLink) :
    ∃ restored, fh.reconstructTupleFromUndoLog (logged.undoLog tabMeta raw ⟨none, row⟩ prev) = some restored ∧
      restored.bytes = restoredFields logged colDefs row.bytes ++
        List.replicate ((colDefs.map (·.len)).sum - 4 * restoredCount colDefs) 0 := by
  obtain ⟨htuple, hmodified⟩ := logged.undoLog_fields tabMeta raw row prev
  have hnonempty : (tabMeta.cols.map fun col => logged.fieldValue col row.bytes).isEmpty = false := by
    rw [List.isEmpty_eq_false_iff, ne_eq, List.map_eq_nil_iff]
    exact tabMeta.cols_ne_nil
  have hcount : min (min (min tabMeta.cols.length tabMeta.cols.length) 2) ((colDefs.map (·.len)).sum / 4) =
      restoredCount colDefs := by
    rw [min_self, h.cols, length_colMetas]
    rfl
  simp only [RmFileHandle.reconstructTupleFromUndoLog, hnonempty, Bool.false_eq_true, if_false, h.dataSize, hmodified,
    htuple, List.length_map, hcount]
  refine ⟨_, rfl, ?_⟩
  have hfields : ((tabMeta.cols.map fun col => logged.fieldValue col row.bytes).take (restoredCount colDefs)).flatMap
      Value.reconstructedBytes = restoredFields logged colDefs row.bytes := by
    rw [← List.map_take, List.flatMap_map, h.cols]
    rfl
  change _ ++ List.replicate (_ - List.length _) 0 = _
  rw [hfields, length_restoredFields]

theorem CreatedFrom.restoresRow_iff (h : CreatedFrom colDefs tabMeta fh) {row : RowData}
    (hlen : row.bytes.length = (colDefs.map (·.len)).sum) : RestoresRow logged tabMeta fh row ↔
      restoredFields logged colDefs row.bytes ++
        List.replicate ((colDefs.map (·.len)).sum - 4 * restoredCount colDefs) 0 = row.bytes := by
  have hfit : 4 * restoredCount colDefs ≤ (colDefs.map (·.len)).sum := by
    rw [restoredCount]
    omega
  constructor
  · intro hrestores
    obtain ⟨restored, hsome, hfields⟩ := hrestores ⟨⟨0, false⟩, row, 0⟩ none
    obtain ⟨restored', hsome', hbytes⟩ := h.reconstruct logged ⟨⟨0, false⟩, row, 0⟩ row none
    obtain rfl := Option.some.inj (hsome.symm.trans hsome')
    rw [← hbytes]
    refine eq_of_fields ?_ hlen (h.cols ▸ hfields)
    rw [hbytes, List.length_append, length_restoredFields, List.length_replicate]
    omega
  · intro heq raw prev
    obtain ⟨restored, hsome, hbytes⟩ := h.reconstruct logged raw row prev
    refine ⟨restored, hsome, fun col _ => ?_⟩
    rw [hbytes, heq]

/-! ### Which tables are restored -/

theorem sum_of_all_eq {lens : List ℕ} {len : ℕ} (h : ∀ l ∈ lens, l = len) : lens.sum = len * lens.length := by
  rw [List.eq_replicate_of_mem h, List.sum_replicate, List.length_replicate, Nat.nsmul_eq_mul, Nat.mul_comm]

theorem all_eq_of_sum {lens : List ℕ} {len : ℕ} (hle : ∀ l ∈ lens, len ≤ l)
    (hsum : lens.sum ≤ len * lens.length) : ∀ l ∈ lens, l = len := by
  induction lens with
  | nil => exact fun _ hl => absurd hl List.not_mem_nil
  | cons first lens ih =>
    have hfirst := hle first List.mem_cons_self
    have hrest : len * lens.length ≤ lens.sum := by
      have hall := List.card_nsmul_le_sum lens len fun l hl => hle l (List.mem_cons_of_mem _ hl)
      rwa [Nat.nsmul_eq_mul, Nat.mul_comm] at hall
    rw [List.sum_cons, List.length_cons, Nat.mul_succ] at hsum
    intro l hl
    rcases List.mem_cons.mp hl with rfl | hl
    · omega
    · exact ih (fun l hl => hle l (List.mem_cons_of_mem _ hl)) (by omega) l hl

theorem sum_take_le (k : ℕ) (colDefs : List ColDef) :
    ((colDefs.take k).map (·.len)).sum ≤ (colDefs.map (·.len)).sum :=
  ((List.take_sublist k colDefs).map _).sum_le_sum fun _ _ => Nat.zero_le _

/-- The fields that are put back are those of the row. -/
theorem CreatedFrom.restores (h : CreatedFrom colDefs tabMeta fh) (hrestorable : Restorable logged colDefs) :
    Restores logged tabMeta fh := by
  intro row hrow
  rw [h.dataSize] at hrow
  rw [h.restoresRow_iff hrow]
  obtain ⟨hsize, hcols⟩ := hrestorable
  have hsum : ((colDefs.take ((colDefs.map (·.len)).sum / 4)).map (·.len)).sum =
      4 * (colDefs.take ((colDefs.map (·.len)).sum / 4)).length := by
    rw [sum_of_all_eq, List.length_map]
    intro len hlen
    obtain ⟨col, hcol, rfl⟩ := List.mem_map.mp hlen
    exact (hcols col hcol).1
  have hle := sum_take_le ((colDefs.map (·.len)).sum / 4) colDefs
  generalize hS : (colDefs.map (·.len)).sum = size at *
  have hlong : size / 4 ≤ colDefs.length := by
    by_contra hshort
    have hall : colDefs.take (size / 4) = colDefs := List.take_of_length_le (by omega)
    rw [hall, hS] at hsum
    omega
  have hcount : restoredCount colDefs = size / 4 := by
    rw [restoredCount, hS]
    omega
  rw [List.length_take, min_eq_left hlong] at hsum
  have hnone : size - 4 * (size / 4) = 0 := by omega
  rw [hcount, hnone, List.replicate_zero, List.append_nil, restoredFields, hcount, take_colMetas]
  have hfields : ∀ col ∈ colMetas 0 (colDefs.take (size / 4)),
      (logged.fieldValue col row.bytes).reconstructedBytes = col.field row.bytes := by
    intro col hcol
    obtain ⟨⟨colDef, hmem, htype, hlen⟩, hend⟩ := mem_colMetas hcol
    have hdef := hcols colDef hmem
    apply reconstructedBytes_fieldValue
    · rw [ColMeta.field, List.length_take, List.length_drop, hrow]
      omega
    · intro hupdate
      rw [htype]
      exact hdef.2 hupdate
  rw [List.flatMap_congr hfields, flatMap_field, List.drop_zero]
  exact List.take_of_length_le (by omega)

/-- Rows of one byte tell which columns come back. -/
theorem CreatedFrom.restorable (h : CreatedFrom colDefs tabMeta fh) (hrestores : Restores logged tabMeta fh) :
    Restorable logged colDefs := by
  generalize hS : (colDefs.map (·.len)).sum = size
  have hnonzero : ∀ byte : UInt8, byte ≠ 0 → ∀ fields zeros : Bytes,
      restoredFields logged colDefs (List.replicate size byte) = fields →
      List.replicate (size - 4 * restoredCount colDefs) 0 = zeros → 0 ∉ fields ∧ 0 ∉ zeros := by
    rintro byte hbyte _ _ rfl rfl
    have hlen : (List.replicate size byte).length = (colDefs.map (·.len)).sum := by
      rw [List.length_replicate, hS]
    have hrow := (h.restoresRow_iff hlen).mp (hrestores ⟨_, 0, "", ⟨0, 0⟩⟩ (by rw [h.dataSize]; exact hlen))
    rw [hS] at hrow
    change _ = List.replicate size byte at hrow
    have hnot : 0 ∉ List.replicate size byte := fun hmem => hbyte (List.eq_of_mem_replicate hmem).symm
    rw [← hrow, List.mem_append, not_or] at hnot
    exact hnot
  set count := restoredCount colDefs with hcount
  have hcount_le : count ≤ 2 ∧ count ≤ colDefs.length ∧ 4 * count ≤ size := by
    rw [hcount, restoredCount, hS]
    omega
  have hfield : ∀ col ∈ (colMetas 0 colDefs).take count, ∀ byte : UInt8,
      col.field (List.replicate size byte) = List.replicate col.len byte := by
    intro col hcol byte
    have hend := (mem_colMetas (List.mem_of_mem_take hcol)).2
    exact field_replicate (by omega) byte
  have hzero : ∀ byte : UInt8, byte ≠ 0 → ∀ col ∈ (colMetas 0 colDefs).take count,
      0 ∉ (logged.fieldValue col (List.replicate size byte)).reconstructedBytes := by
    intro byte hbyte col hcol hmem
    exact (hnonzero byte hbyte _ _ rfl rfl).1 (List.mem_flatMap.mpr ⟨col, hcol, hmem⟩)
  have hsize : size = 4 * count := by
    by_contra hne
    have hmem : 0 ∈ List.replicate (size - 4 * count) (0 : UInt8) := List.mem_replicate.mpr ⟨by omega, rfl⟩
    exact (hnonzero 1 (by decide) _ _ rfl rfl).2 hmem
  have hlong : ∀ col ∈ colDefs.take count, 4 ≤ col.len := by
    intro colDef hcolDef
    by_contra hshort
    obtain ⟨col, hcol, htype, hlen⟩ := exists_colMeta 0 hcolDef
    rw [← take_colMetas] at hcol
    have hstring : col.type = .string := by
      by_contra hnot
      have hfour := h.number colDef (List.mem_of_mem_take hcolDef) (htype ▸ hnot)
      omega
    obtain ⟨val, hval, hle⟩ := fieldValue_string logged hstring (List.replicate size 1)
    rw [hfield col hcol 1, List.length_replicate] at hle
    have hmem : 0 ∈ (Value.str val).reconstructedBytes := zero_mem_reconstructedBytes (by omega)
    exact hzero 1 (by decide) col hcol (hval ▸ hmem)
  have hexact : ∀ l ∈ (colDefs.take count).map (·.len), l = 4 := by
    apply all_eq_of_sum
    · intro l hl
      obtain ⟨col, hcol, rfl⟩ := List.mem_map.mp hl
      exact hlong col hcol
    · have hle := sum_take_le count colDefs
      rw [List.length_map, List.length_take, min_eq_left hcount_le.2.1]
      omega
  have hquarter : size / 4 = count := by omega
  refine ⟨?_, fun colDef hcolDef => ?_⟩
  · rw [hS]
    omega
  · rw [hS, hquarter] at hcolDef
    refine ⟨hexact _ (List.mem_map_of_mem hcolDef), ?_⟩
    rintro rfl hstring
    obtain ⟨col, hcol, htype, _⟩ := exists_colMeta 0 hcolDef
    rw [← take_colMetas] at hcol
    have hblank := fieldValue_blank (htype.trans hstring) (hfield col hcol 32)
    have hmem : 0 ∈ (Value.str []).reconstructedBytes := zero_mem_reconstructedBytes (by decide)
    exact hzero 32 (by decide) col hcol (hblank ▸ hmem)

/-- The logs of a statement bring back the rows of a table just when its rows have at most two columns of four
bytes, which for an UPDATE are numbers. -/
theorem restores_iff (logged : LoggedBy) (h : CreatedFrom colDefs tabMeta fh) :
    Restores logged tabMeta fh ↔ Restorable logged colDefs := ⟨h.restorable, h.restores⟩

/-- Two numbers and a name. -/
def studentCols : List ColDef := [⟨"id", .int, 4⟩, ⟨"score", .float, 4⟩, ⟨"name", .string, 6⟩]

def tableOf (colDefs : List ColDef) (hne : colDefs ≠ []) : TabMeta :=
  ⟨colMetas 0 colDefs, [], colMetas_ne_nil hne⟩

def fileOf (colDefs : List ColDef) : RmFileHandle := .create ((colDefs.map (·.len)).sum + tupleMetaSize)

theorem tableOf_created (hne : colDefs ≠ []) (hnumber : ∀ col ∈ colDefs, col.type ≠ .string → col.len = 4) :
    CreatedFrom colDefs (tableOf colDefs hne) (fileOf colDefs) := ⟨rfl, rfl, hnumber⟩

theorem restores_student : Restores .update (tableOf (studentCols.take 2) nofun) (fileOf (studentCols.take 2)) := by
  have hcreated : CreatedFrom (studentCols.take 2) (tableOf (studentCols.take 2) nofun) (fileOf (studentCols.take 2)) :=
    tableOf_created (List.cons_ne_nil _ _) (by decide)
  exact (restores_iff .update hcreated).mpr (by decide)

/-- The name of a deleted student is lost. -/
theorem not_restores_name : ∃ raw row restored,
    row.bytes = [7, 0, 0, 0, 0, 0, 0, 0, 65, 66, 67, 32, 32, 32] ∧
      (fileOf studentCols).reconstructTupleFromUndoLog
        (LoggedBy.delete.undoLog (tableOf studentCols nofun) raw ⟨none, row⟩ none) = some restored ∧
      restored.bytes = [7, 0, 0, 0, 0, 0, 0, 0, 0, 0, 0, 0, 0, 0] ∧
      ¬Restores .delete (tableOf studentCols nofun) (fileOf studentCols) := by
  refine ⟨⟨⟨1, false⟩, ⟨[], 1, "", ⟨1, 0⟩⟩, 1⟩,
    ⟨[7, 0, 0, 0, 0, 0, 0, 0, 65, 66, 67, 32, 32, 32], 1, "", ⟨1, 0⟩⟩, _, rfl, rfl, by decide, fun hrestores => ?_⟩
  have hcreated : CreatedFrom studentCols (tableOf studentCols nofun) (fileOf studentCols) :=
    tableOf_created (List.cons_ne_nil _ _) (by decide)
  exact absurd (hcreated.restorable hrestores) (by decide)

end Rmdb
