import Rmdb.Execution.GroupKeys
import Rmdb.Execution.SortIterator

/-! The values of the aggregate functions of a group, against the count, the extremes and the sum of its rows. -/
namespace Rmdb

open Program

/-! ### What the functions are to be -/

/-- `v` is among the values, and none is above it. -/
def Greatest (le : Value → Value → Prop) (v : Value) (vals : List Value) : Prop := v ∈ vals ∧ ∀ w ∈ vals, le w v

def Value.AtMost (v w : Value) : Prop := (v.compareKeys w).isLE

/-- The value of a function of a column with these values. The average is left out. -/
def AggFunc.Right (f : AggFunc) (vals : List Value) (v : Value) : Prop :=
  match f.funcType with
  | .count => ∃ n, v = .int n ∧ n.toInt = vals.length
  | .max => Greatest Value.AtMost v vals
  | .min => Greatest (fun w v => v.AtMost w) v vals
  | .sum => ∃ n, v = .int n ∧ n.toInt = (vals.map fun v => v.word.toInt).sum
  | .avg => True

/-- The values that the extreme is taken of: those since the row counter last stood at one, and of strings the last
one only. -/
def standing (vals : List Value) : List Value :=
  match vals.getLast? with
  | some (.str s) => [.str s]
  | _ => vals.drop ((vals.length - 1) / 2 ^ 32 * 2 ^ 32)

/-- Counts and sums fit an `int`, no counted string is empty, and an extreme value is still standing. -/
def AggFunc.Safe (f : AggFunc) (vals : List Value) : Prop :=
  match f.funcType with
  | .count => vals.length < 2 ^ 31 ∧ (f.isCountStar ∨ .str [] ∉ vals)
  | .max => ∃ v ∈ standing vals, ∀ w ∈ vals, w.AtMost v
  | .min => ∃ v ∈ standing vals, ∀ w ∈ vals, v.AtMost w
  | .sum => -2 ^ 31 ≤ (vals.map fun v => v.word.toInt).sum ∧ (vals.map fun v => v.word.toInt).sum < 2 ^ 31
  | .avg => True

/-! ### The value after all rows -/

/-- The rows come with their numbers. -/
def AggFunc.runCell (f : AggFunc) (init : Value) (vals : List Value) : Value × Float :=
  (vals.zipIdx 1).foldl (fun cell val => f.update (.ofNat 32 val.2) val.1 cell) (init, 0)

section
variable {f : AggFunc} {count : BitVec 32} {cell : Value × Float} {old new : BitVec 32}

theorem update_count (hkind : f.funcType = .count) (hcell : cell.1 = .int old) (v : Value) :
    (f.update count v cell).1 = .int (if v = .str [] then old else old + 1) := by
  obtain ⟨value, acc⟩ := cell
  subst hcell
  simp only [AggFunc.update, hkind]
  split_ifs <;> rfl

theorem update_max (hkind : f.funcType = .max) (hcell : cell.1 = .int old) :
    (f.update count (.int new) cell).1 = .int (if count = 1 ∨ old.toInt < new.toInt then new else old) := by
  obtain ⟨value, acc⟩ := cell
  subst hcell
  simp only [AggFunc.update, hkind]
  split_ifs <;> rfl

theorem update_min (hkind : f.funcType = .min) (hcell : cell.1 = .int old) :
    (f.update count (.int new) cell).1 = .int (if count = 1 ∨ new.toInt < old.toInt then new else old) := by
  obtain ⟨value, acc⟩ := cell
  subst hcell
  simp only [AggFunc.update, hkind]
  split_ifs <;> rfl

theorem update_string (hkind : f.funcType = .max ∨ f.funcType = .min) {s : Bytes} (hcell : cell.1.type = .string) :
    (f.update count (.str s) cell).1 = .str s := by
  obtain ⟨value, acc⟩ := cell
  cases value with
  | int i => cases hcell
  | float g => cases hcell
  | str old => cases hkind with
    | inl hmax => simp only [AggFunc.update, hmax]
    | inr hmin => simp only [AggFunc.update, hmin]

theorem update_sum (hkind : f.funcType = .sum) (hcell : cell.1 = .int old) :
    (f.update count (.int new) cell).1 = .int (old + new) := by
  obtain ⟨value, acc⟩ := cell
  subst hcell
  simp only [AggFunc.update, hkind]

end

section
variable {f : AggFunc} {init v : Value} {vals : List Value}

theorem runCell_append (f : AggFunc) (init : Value) (vals : List Value) (v : Value) :
    f.runCell init (vals ++ [v]) = f.update (.ofNat 32 (vals.length + 1)) v (f.runCell init vals) := by
  unfold AggFunc.runCell
  rw [List.zipIdx_append, List.foldl_append, Nat.add_comm 1]
  rfl

/-- Empty strings do not count. -/
theorem runCell_count (hkind : f.funcType = .count) (vals : List Value) :
    (f.runCell (.int 0) vals).1 = .int (.ofNat 32 (vals.filter (· ≠ .str [])).length) := by
  induction vals using List.reverseRecOn with
  | nil => rfl
  | append_singleton vals v ih =>
    rw [runCell_append, update_count hkind ih, List.filter_append, List.length_append, BitVec.ofNat_add]
    by_cases hv : v = .str []
    · rw [if_pos hv, List.filter_cons_of_neg (by simp [hv])]
      simp
    · rw [if_neg hv, List.filter_cons_of_pos (by simp [hv])]
      simp

theorem runCell_sum (hkind : f.funcType = .sum) (hvals : ∀ v ∈ vals, v.type = .int) :
    (f.runCell (.int 0) vals).1 = .int (.ofInt 32 (vals.map fun v => v.word.toInt).sum) := by
  induction vals using List.reverseRecOn with
  | nil => rfl
  | append_singleton vals v ih =>
    have hv := hvals v (List.mem_append_right _ List.mem_cons_self)
    have ih := ih fun w hw => hvals w (List.mem_append_left _ hw)
    cases v with
    | int i =>
      rw [runCell_append, update_sum hkind ih, List.map_append, List.sum_append, BitVec.ofInt_add]
      simp [Value.word]
    | float g => cases hv
    | str s => cases hv

/-- One more row: the counter is at one again, or the row joins those before. -/
theorem standing_append {i : BitVec 32} (hvals : ∀ v ∈ vals, v.type = .int) :
    BitVec.ofNat 32 (vals.length + 1) = 1 ∧ standing (vals ++ [.int i]) = [.int i] ∨
      BitVec.ofNat 32 (vals.length + 1) ≠ 1 ∧ vals ≠ [] ∧ standing (vals ++ [.int i]) = standing vals ++ [.int i] := by
  have hlap : standing (vals ++ [Value.int i]) = (vals ++ [Value.int i]).drop (vals.length / 2 ^ 32 * 2 ^ 32) := by
    unfold standing
    rw [List.getLast?_concat]
    simp
  have hbefore : standing vals = vals.drop ((vals.length - 1) / 2 ^ 32 * 2 ^ 32) := by
    unfold standing
    cases hlast : vals.getLast? with
    | none => rfl
    | some w =>
      have hw := hvals w (List.mem_of_getLast? hlast)
      cases w with
      | int j => rfl
      | float g => cases hw
      | str s => cases hw
  have hone : BitVec.ofNat 32 (vals.length + 1) = 1 ↔ vals.length % 2 ^ 32 = 0 := by
    rw [← BitVec.toNat_inj, BitVec.toNat_ofNat]
    change (vals.length + 1) % 2 ^ 32 = 1 ↔ _
    omega
  by_cases hzero : vals.length % 2 ^ 32 = 0
  · refine .inl ⟨hone.mpr hzero, ?_⟩
    have hstart : vals.length / 2 ^ 32 * 2 ^ 32 = vals.length := by omega
    rw [hlap, hstart, List.drop_left]
  · refine .inr ⟨mt hone.mp hzero, ?_, ?_⟩
    · intro hnil
      rw [hnil] at hzero
      exact hzero rfl
    · have hstart : (vals.length - 1) / 2 ^ 32 * 2 ^ 32 = vals.length / 2 ^ 32 * 2 ^ 32 := by omega
      rw [hlap, hbefore, hstart, List.drop_append_of_le_length (by omega)]

/-- What stands is among the values, and of strings it is the last one. -/
theorem mem_of_mem_standing (h : v ∈ standing vals) : v ∈ vals := by
  unfold standing at h
  split at h
  · next s hlast =>
    rw [List.mem_singleton.mp h]
    exact List.mem_of_getLast? hlast
  · exact List.mem_of_mem_drop h

theorem standing_string (s : Bytes) : standing (vals ++ [.str s]) = [.str s] := by
  unfold standing
  rw [List.getLast?_concat]

end

/-! ### The extremes -/

/-- The function keeps the larger number by `le`, but the first row's at all events, and the last string. -/
structure AggFunc.Selects (f : AggFunc) (le : Value → Value → Prop) : Prop where
  numbers : ∀ count cell old new, cell.1 = .int old → ∃ kept, (f.update count (.int new) cell).1 = .int kept ∧
    (kept = new ∨ count ≠ 1 ∧ kept = old) ∧ le (.int new) (.int kept) ∧ (count ≠ 1 → le (.int old) (.int kept))
  strings : ∀ count cell s, cell.1.type = .string → (f.update count (.str s) cell).1 = .str s
  refl : ∀ v, le v v
  trans : ∀ type, type ≠ .float → ∀ u v w : Value, u.type = type → v.type = type → w.type = type → le u v → le v w → le u w

theorem atMost_refl (v : Value) : v.AtMost v := by
  have hself : v.compareKeys v = .eq := by
    cases v with
    | int i => exact (Std.ReflCmp.compare_self : compare i.toInt i.toInt = .eq)
    | float f =>
      change (Option.map₂ compare (Binary32.count (.ofBits ⟨f⟩)) (Binary32.count (.ofBits ⟨f⟩))).getD .eq = .eq
      cases Binary32.count (.ofBits ⟨f⟩) with
      | none => rfl
      | some z => exact (Std.ReflCmp.compare_self : compare z z = .eq)
    | str s => exact (Std.ReflCmp.compare_self : compare s s = .eq)
  exact Ordering.isLE_of_eq_eq hself

theorem atMost_trans {type : ColType} (htype : type ≠ .float) {u v w : Value} (hu : u.type = type) (hv : v.type = type)
    (hw : w.type = type) (huv : u.AtMost v) (hvw : v.AtMost w) : u.AtMost w := by
  have hkeyed : ∀ x : Value, x.type = type → x.type = type ∧ ¬x.IsNaN := by
    intro x hx
    refine ⟨hx, fun hnan => ?_⟩
    cases x with
    | int i => exact hnan
    | float g => exact htype hx.symm
    | str s => exact hnan
  exact (SortExecutor.compareKeys_transOn type).trans u v w (hkeyed u hu) (hkeyed v hv) (hkeyed w hw) huv hvw

theorem atMost_int_iff {a b : BitVec 32} : (Value.int a).AtMost (.int b) ↔ a.toInt ≤ b.toInt :=
  Ordering.isLE_iff_ne_gt.trans compare_le_iff_le

theorem selects_max {f : AggFunc} (hkind : f.funcType = .max) : f.Selects Value.AtMost where
  numbers count cell old new hcell := by
    refine ⟨_, update_max hkind hcell, ?_⟩
    rw [atMost_int_iff, atMost_int_iff]
    split_ifs with hnew
    · exact ⟨.inl rfl, le_rfl, fun hcount => (hnew.resolve_left hcount).le⟩
    · rw [not_or, not_lt] at hnew
      exact ⟨.inr ⟨hnew.1, rfl⟩, hnew.2, fun _ => le_rfl⟩
  strings count cell s hcell := update_string (.inl hkind) hcell
  refl := atMost_refl
  trans _ htype _ _ _ := atMost_trans htype

theorem selects_min {f : AggFunc} (hkind : f.funcType = .min) : f.Selects fun w v => v.AtMost w where
  numbers count cell old new hcell := by
    refine ⟨_, update_min hkind hcell, ?_⟩
    rw [atMost_int_iff, atMost_int_iff]
    split_ifs with hnew
    · exact ⟨.inl rfl, le_rfl, fun hcount => (hnew.resolve_left hcount).le⟩
    · rw [not_or, not_lt] at hnew
      exact ⟨.inr ⟨hnew.1, rfl⟩, hnew.2, fun _ => le_rfl⟩
  strings count cell s hcell := update_string (.inr hkind) hcell
  refl := atMost_refl
  trans _ htype _ _ _ hu hv hw huv hvw := atMost_trans htype hw hv hu hvw huv

section
variable {f : AggFunc} {le : Value → Value → Prop} {vals : List Value}

/-- The value is an extreme of those that stand. By induction from the last row. -/
theorem AggFunc.Selects.int_runCell (h : f.Selects le) (hvals : ∀ v ∈ vals, v.type = .int) (hne : vals ≠ []) :
    (f.runCell (.int 0) vals).1.type = .int ∧ Greatest le (f.runCell (.int 0) vals).1 (standing vals) := by
  induction vals using List.reverseRecOn with
  | nil => exact absurd rfl hne
  | append_singleton vals v ih =>
    have hbefore : ∀ w ∈ vals, w.type = .int := fun w hw => hvals w (List.mem_append_left _ hw)
    have hv := hvals v (List.mem_append_right _ List.mem_cons_self)
    have hold : ∃ old, (f.runCell (.int 0) vals).1 = .int old := by
      by_cases hnil : vals = []
      · exact ⟨0, by rw [hnil]; rfl⟩
      · have htype := (ih hbefore hnil).1
        cases hcell : (f.runCell (.int 0) vals).1 with
        | int old => exact ⟨old, rfl⟩
        | float g => rw [hcell] at htype; cases htype
        | str s => rw [hcell] at htype; cases htype
    obtain ⟨old, hold⟩ := hold
    cases v with
    | float g => cases hv
    | str s => cases hv
    | int new =>
      obtain ⟨kept, hkept, hcases, hnew, hle⟩ := h.numbers (.ofNat 32 (vals.length + 1)) _ old new hold
      rw [runCell_append, hkept]
      refine ⟨rfl, ?_⟩
      cases standing_append (i := new) hbefore with
      | inl hreset =>
        obtain ⟨hcount, hstanding⟩ := hreset
        rw [hstanding, hcases.resolve_right fun hother => hother.1 hcount]
        exact ⟨List.mem_cons_self, fun w hw => List.mem_singleton.mp hw ▸ h.refl _⟩
      | inr hjoin =>
        obtain ⟨hcount, hnil, hstanding⟩ := hjoin
        obtain ⟨hmem, hextreme⟩ := (ih hbefore hnil).2
        rw [hold] at hmem hextreme
        rw [hstanding]
        constructor
        · cases hcases with
          | inl heq => exact List.mem_append_right _ (List.mem_singleton.mpr (congrArg Value.int heq))
          | inr hother => exact List.mem_append_left _ (hother.2 ▸ hmem)
        · intro w hw
          cases List.mem_append.mp hw with
          | inl hstood =>
            have htype := hbefore w (mem_of_mem_standing hstood)
            exact h.trans .int nofun w (.int old) (.int kept) htype rfl rfl (hextreme w hstood) (hle hcount)
          | inr hlast => exact List.mem_singleton.mp hlast ▸ hnew

theorem AggFunc.Selects.string_runCell (h : f.Selects le) (hvals : ∀ v ∈ vals, v.type = .string) (hne : vals ≠ []) :
    Greatest le (f.runCell (.str []) vals).1 (standing vals) := by
  have htype : ∀ vals : List Value, (∀ v ∈ vals, v.type = .string) → (f.runCell (.str []) vals).1.type = .string := by
    intro vals hvals
    induction vals using List.reverseRecOn with
    | nil => rfl
    | append_singleton vals v ih =>
      have hbefore := ih fun w hw => hvals w (List.mem_append_left _ hw)
      have hv := hvals v (List.mem_append_right _ List.mem_cons_self)
      cases v with
      | int i => cases hv
      | float g => cases hv
      | str s =>
        rw [runCell_append, h.strings _ _ s hbefore]
        rfl
  cases vals using List.reverseRecOn with
  | nil => exact absurd rfl hne
  | append_singleton vals v =>
    have hv := hvals v (List.mem_append_right _ List.mem_cons_self)
    cases v with
    | int i => cases hv
    | float g => cases hv
    | str s =>
      rw [runCell_append, h.strings _ _ s (htype vals fun w hw => hvals w (List.mem_append_left _ hw)), standing_string]
      exact ⟨List.mem_cons_self, fun w hw => List.mem_singleton.mp hw ▸ h.refl _⟩

/-- An extreme of what stands is one of all exactly if an extreme of all stands. -/
theorem AggFunc.Selects.greatest_iff (h : f.Selects le) {type : ColType} (htype : type ≠ .float)
    (hvals : ∀ v ∈ vals, v.type = type) {v : Value} (hv : Greatest le v (standing vals)) :
    Greatest le v vals ↔ ∃ u ∈ standing vals, ∀ w ∈ vals, le w u := by
  constructor
  · exact fun hall => ⟨v, hv.1, hall.2⟩
  · intro ⟨u, hu, hall⟩
    have hmem := mem_of_mem_standing hv.1
    refine ⟨hmem, fun w hw => ?_⟩
    exact h.trans type htype w u v (hvals w hw) (hvals u (mem_of_mem_standing hu)) (hvals v hmem) (hall w hw) (hv.2 u hu)

end
namespace AggregationExecutor

variable {stl : Stl} {clause : AggClause} {prevCols groupCols aggCols : List TableCol} {records : List Tuple}

/-! ### The rows of a group -/

def groupRows (stl : Stl) (clause : AggClause) (records : List Tuple) (key : Bytes) : List Tuple :=
  Grouping.members (getGroupKey stl clause) key records

/-- The values of a column in these rows. -/
def columnValues (rows : List Tuple) (col : TabCol) : Except DbError (List Value) := rows.mapM (getColumnValue · col)

/-- The cell of a function comes from its column in these rows. In `COUNT(*)` no cell is used. -/
def CellOf (prevCols : List TableCol) (rows : List Tuple) (f : AggFunc) (cell : Value × Float) : Prop :=
  f.isCountStar ∨ ∃ init vals, f.initValue prevCols = .ok init ∧ columnValues rows f.col = .ok vals ∧
    cell = f.runCell init vals

/-- The state has seen these rows. -/
structure Accumulated (clause : AggClause) (prevCols : List TableCol) (rows : List Tuple) (state : AggState) :
    Prop where
  count : state.count = .ofNat 32 rows.length
  cells : ∀ inits, (clause.aggFuncs.drop state.aggValues.length).mapM (initCell prevCols) = .ok inits →
    List.Forall₂ (CellOf prevCols rows) clause.aggFuncs (state.aggValues ++ inits)
  length : rows ≠ [] → state.aggValues.length = clause.aggFuncs.length

theorem Accumulated.nil : Accumulated clause prevCols [] ⟨0, []⟩ where
  count := rfl
  cells inits hinits := by
    refine (mapM_eq_ok_iff.mp hinits).imp fun f cell hcell => ?_
    obtain ⟨init, hinit, hend⟩ := bind_eq_ok.mp hcell
    cases hend
    exact .inr ⟨init, [], hinit, rfl, rfl⟩
  length h := absurd rfl h

theorem columnValues_append {rows : List Tuple} {t : Tuple} {col : TabCol} {vals : List Value} {v : Value}
    (hvals : columnValues rows col = .ok vals) (hv : getColumnValue t col = .ok v) :
    columnValues (rows ++ [t]) col = .ok (vals ++ [v]) := by
  unfold columnValues at hvals ⊢
  rw [mapM_eq_ok_iff] at hvals ⊢
  exact List.rel_append hvals (.cons hv .nil)

theorem CellOf.append {rows : List Tuple} {t : Tuple} {f : AggFunc} {cell cell' : Value × Float}
    (h : CellOf prevCols rows f cell) (hcell : updateCell t (.ofNat 32 (rows.length + 1)) (f, cell) = .ok cell') :
    CellOf prevCols (rows ++ [t]) f cell' := by
  cases h with
  | inl hstar => exact .inl hstar
  | inr hrun =>
    obtain ⟨init, vals, hinit, hvals, hbefore⟩ := hrun
    unfold updateCell at hcell
    split_ifs at hcell with hstar
    · exact .inl hstar
    · obtain ⟨v, hv, hend⟩ := bind_eq_ok.mp hcell
      have hlength := (mapM_eq_ok_iff.mp hvals).length_eq
      cases hend
      refine .inr ⟨init, vals ++ [v], hinit, columnValues_append hvals hv, ?_⟩
      rw [runCell_append, ← hlength, hbefore]

theorem forall₂_of_zip {α β γ : Type*} {R : α → β → Prop} {S : α × β → γ → Prop} {T : α → γ → Prop} {as : List α}
    {bs : List β} {cs : List γ} (h : List.Forall₂ R as bs) (hzip : List.Forall₂ S (as.zip bs) cs)
    (hstep : ∀ a b c, R a b → S (a, b) c → T a c) : List.Forall₂ T as cs := by
  induction h generalizing cs with
  | nil =>
    rw [List.zip_nil_left, List.forall₂_nil_left_iff] at hzip
    exact hzip ▸ .nil
  | cons hfirst _ ih =>
    obtain ⟨c, cs', hc, hcs, rfl⟩ := List.forall₂_cons_left_iff.mp hzip
    exact .cons (hstep _ _ c hfirst hc) (ih hcs)

theorem Accumulated.update {rows : List Tuple} {t : Tuple} {state state' : AggState}
    (h : Accumulated clause prevCols rows state) (hupdate : updateAggState clause prevCols state t = .ok state') :
    Accumulated clause prevCols (rows ++ [t]) state' := by
  rw [updateAggState_eq] at hupdate
  obtain ⟨inits, hinits, hupdate⟩ := bind_eq_ok.mp hupdate
  obtain ⟨cells, hcells, hend⟩ := bind_eq_ok.mp hupdate
  cases hend
  have hcount : state.count + 1 = .ofNat 32 (rows.length + 1) := by
    rw [h.count, BitVec.ofNat_add]
    rfl
  have hall : List.Forall₂ (CellOf prevCols (rows ++ [t])) clause.aggFuncs cells := by
    refine forall₂_of_zip (h.cells inits hinits) (mapM_eq_ok_iff.mp hcells) fun f cell cell' hcell hnext => ?_
    rw [hcount] at hnext
    exact hcell.append hnext
  have hlength := hall.length_eq
  refine ⟨?_, fun inits hinits => ?_, fun _ => hlength.symm⟩
  · rw [List.length_append]
    exact hcount
  · dsimp only at hinits ⊢
    rw [List.drop_of_length_le hlength.le, List.mapM_nil] at hinits
    cases hinits
    rw [List.append_nil]
    exact hall

theorem accumulated {rows : List Tuple} {state : AggState}
    (h : rows.foldlM (updateAggState clause prevCols) ⟨0, []⟩ = .ok state) :
    Accumulated clause prevCols rows state := by
  induction rows using List.reverseRecOn generalizing state with
  | nil =>
    cases h
    exact .nil
  | append_singleton rows t ih =>
    rw [List.foldlM_append] at h
    obtain ⟨before, hbefore, hlast⟩ := bind_eq_ok.mp h
    obtain ⟨after, hafter, hend⟩ := bind_eq_ok.mp hlast
    cases hend
    exact (ih hbefore).update hafter

/-! ### The output -/

theorem toInt_ofNat_eq_iff {k n : ℕ} (h : k ≤ n) : (BitVec.ofNat 32 k).toInt = n ↔ n < 2 ^ 31 ∧ k = n := by
  constructor
  · intro heq
    have hlt : (BitVec.ofNat 32 k).toInt < 2 ^ 31 := BitVec.toInt_lt
    have hsmall : k < 2 ^ 31 := by omega
    rw [BitVec.toInt_ofNat', Int.bmod_eq_of_le (by omega) (by omega)] at heq
    omega
  · intro ⟨hsmall, heq⟩
    rw [BitVec.toInt_ofNat', Int.bmod_eq_of_le (by omega) (by omega), heq]

theorem toInt_ofInt_eq_iff {z : ℤ} : (BitVec.ofInt 32 z).toInt = z ↔ -2 ^ 31 ≤ z ∧ z < 2 ^ 31 := by
  constructor
  · intro heq
    rw [← heq]
    exact ⟨BitVec.le_toInt _, BitVec.toInt_lt⟩
  · exact fun ⟨hle, hlt⟩ => BitVec.toInt_ofInt_eq_self (by decide) hle hlt

/-- What an extreme or a sum of a column starts with. -/
def startValue : ColType → Value
  | .int => .int 0
  | .float => .float 0
  | .string => .str []

/-- The function is of a column of this type that the child has. -/
def OverColumn (prevCols : List TableCol) (f : AggFunc) (type : ColType) : Prop :=
  f.col.colName ≠ "" ∧ ∃ col, getCol prevCols f.col = .ok col ∧ col.type = type

/-- `COUNT(*)`, or a function of numbers, or one of strings that is no sum. -/
def Aggregable (prevCols : List TableCol) (f : AggFunc) : Prop :=
  f.isCountStar ∨ OverColumn prevCols f .int ∨ OverColumn prevCols f .string ∧ f.funcType ≠ .sum

section
variable {f : AggFunc} {type : ColType} {rows : List Tuple} {vals : List Value}

theorem OverColumn.columnValues (h : OverColumn prevCols f type) (hshape : ∀ t ∈ rows, t.map Prod.fst = prevCols) :
    ∃ vals, columnValues rows f.col = .ok vals ∧ ∀ v ∈ vals, v.type = type := by
  obtain ⟨hname, col, hcol, rfl⟩ := h
  have hget : ∀ t ∈ rows, ∃ v, getColumnValue t f.col = .ok v ∧ v.type = col.type :=
    fun t ht => getColumnValue_ok (hshape t ht) hcol hname
  obtain ⟨vals, hvals⟩ := exists_mapM fun t ht => (hget t ht).imp fun _ => And.left
  refine ⟨vals, hvals, fun v hv => ?_⟩
  obtain ⟨t, ht, hv⟩ := of_mem_mapM hvals hv
  obtain ⟨w, hw, htype⟩ := hget t ht
  rw [hv] at hw
  cases hw
  exact htype

theorem columnValues_star (hstar : f.isCountStar) (rows : List Tuple) :
    columnValues rows f.col = .ok (rows.map fun _ => .int 0) := by
  have hcol : f.col = noCol := (of_decide_eq_true hstar).2
  rw [hcol]
  exact mapM_eq_map fun t _ => rfl

theorem OverColumn.initValue (h : OverColumn prevCols f type) {init : Value} (hinit : f.initValue prevCols = .ok init)
    (hkind : f.funcType = .max ∨ f.funcType = .min ∨ f.funcType = .sum) :
    init = startValue type := by
  obtain ⟨hname, col, hcol, rfl⟩ := h
  have hnone : f.col ≠ noCol := fun heq => hname (congrArg TabCol.colName heq)
  have hfound : f.initValue prevCols = .ok (startValue col.type) := by
    unfold AggFunc.initValue
    obtain hkind | hkind | hkind := hkind <;>
    · rw [hkind]
      dsimp only
      rw [if_neg hnone, hcol]
      change (match col.type with | .int => _ | .float => _ | .string => _) = _
      cases col.type <;> rfl
  rw [hfound] at hinit
  exact (Except.ok.inj hinit).symm

theorem count_right_iff (hkind : f.funcType = .count) (state : AggState) (hcount : state.count = .ofNat 32 vals.length)
    (cell : Value × Float) (hcell : f.isCountStar ∨ cell = f.runCell (.int 0) vals) :
    f.Right vals (finalValue state f cell) ↔ f.Safe vals := by
  have hright : ∀ n, f.Right vals (.int n) ↔ n.toInt = vals.length := by
    intro n
    unfold AggFunc.Right
    rw [hkind]
    exact ⟨fun ⟨m, hm, hlength⟩ => Value.int.inj hm ▸ hlength, fun hlength => ⟨n, rfl, hlength⟩⟩
  have hsafe : f.Safe vals ↔ vals.length < 2 ^ 31 ∧ (f.isCountStar ∨ .str [] ∉ vals) := by
    unfold AggFunc.Safe
    rw [hkind]
  unfold finalValue
  by_cases hstar : f.isCountStar
  · rw [if_pos hstar, hright, hcount, toInt_ofNat_eq_iff le_rfl, hsafe]
    exact and_congr_right fun _ => iff_of_true rfl (.inl hstar)
  · have hnotAvg : ¬(f.funcType = .avg ∧ 0 < state.count.toInt) := fun havg => nomatch hkind.symm.trans havg.1
    rw [if_neg hstar, if_neg hnotAvg, hcell.resolve_left hstar, runCell_count hkind, hright,
      toInt_ofNat_eq_iff (List.length_filter_le _ _), hsafe, List.length_filter_eq_length_iff]
    refine and_congr_right fun _ => ?_
    rw [or_iff_right hstar]
    constructor
    · exact fun hall hmem => of_decide_eq_true (hall _ hmem) rfl
    · exact fun hnot v hv => decide_eq_true fun heq => hnot (heq ▸ hv)

theorem sum_right_iff (hkind : f.funcType = .sum) (hvals : ∀ v ∈ vals, v.type = .int) :
    f.Right vals (f.runCell (.int 0) vals).1 ↔ f.Safe vals := by
  rw [runCell_sum hkind hvals]
  unfold AggFunc.Right AggFunc.Safe
  rw [hkind]
  dsimp only
  rw [← toInt_ofInt_eq_iff]
  exact ⟨fun ⟨n, hn, hsum⟩ => Value.int.inj hn ▸ hsum, fun hsum => ⟨_, rfl, hsum⟩⟩

theorem extreme_right_iff (hkind : f.funcType = .max ∨ f.funcType = .min) (htype : type = .int ∨ type = .string)
    (hvals : ∀ v ∈ vals, v.type = type) (hne : vals ≠ []) :
    f.Right vals (f.runCell (startValue type) vals).1 ↔ f.Safe vals := by
  have hextreme : ∀ le, f.Selects le → (Greatest le (f.runCell (startValue type) vals).1 vals ↔
      ∃ u ∈ standing vals, ∀ w ∈ vals, le w u) := by
    intro le hle
    cases htype with
    | inl hint =>
      subst hint
      exact hle.greatest_iff (by decide) hvals (hle.int_runCell hvals hne).2
    | inr hstring =>
      subst hstring
      exact hle.greatest_iff (by decide) hvals (hle.string_runCell hvals hne)
  unfold AggFunc.Right AggFunc.Safe
  cases hkind with
  | inl hmax =>
    rw [hmax]
    exact hextreme _ (selects_max hmax)
  | inr hmin =>
    rw [hmin]
    exact hextreme _ (selects_min hmin)

end

section
variable {groups : List (Bytes × AggState)} {group : Bytes × AggState} {result : AggResult} {i : ℕ} {f : AggFunc}
  {v : Value}

theorem computeResult_ok (h : computeResult stl clause groupCols group = .ok result) :
    (groupCols = [] ∨ parseKey stl groupCols group.1 = .ok result.groupKey) ∧
      result.aggValues = (clause.aggFuncs.zip group.2.aggValues).map (fun entry => finalValue group.2 entry.1 entry.2) ∧
      result.count = group.2.count := by
  unfold computeResult at h
  split_ifs at h with hcols
  · cases h
    exact ⟨.inl hcols, rfl, rfl⟩
  · obtain ⟨groupKey, hkey, hend⟩ := bind_eq_ok.mp h
    cases hend
    exact ⟨.inr hkey, rfl, rfl⟩

theorem computeResult_aggValues (h : computeResult stl clause groupCols group = .ok result)
    (hf : clause.aggFuncs[i]? = some f) (hv : result.aggValues[i]? = some v) :
    ∃ cell, group.2.aggValues[i]? = some cell ∧ v = finalValue group.2 f cell := by
  rw [(computeResult_ok h).2.1, List.getElem?_map, Option.map_eq_some_iff] at hv
  obtain ⟨entry, hentry, rfl⟩ := hv
  obtain ⟨hfst, hsnd⟩ := List.getElem?_zip_eq_some.mp hentry
  rw [hf] at hfst
  cases hfst
  exact ⟨entry.2, hsnd, rfl⟩

/-- The state of a group has seen its rows, of which there are some but in the group without rows. -/
theorem groupStates_cases (hfed : Fed clause prevCols groupCols aggCols records)
    (hgroups : groupStates stl clause prevCols records = .ok groups) (hgroup : group ∈ groups) :
    group = (globalKey, emptyState clause) ∧ groupRows stl clause records group.1 = [] ∨
      Accumulated clause prevCols (groupRows stl clause records group.1) group.2 ∧
        groupRows stl clause records group.1 ≠ [] ∧
        ∀ t ∈ groupRows stl clause records group.1, t.map Prod.fst = prevCols := by
  cases groupStates_ok hgroups with
  | inl hempty =>
    obtain ⟨hnone, hglobal⟩ := hempty
    rw [hglobal] at hgroup
    rw [hnone]
    exact .inl ⟨List.mem_singleton.mp hgroup, rfl⟩
  | inr hrows =>
    obtain ⟨-, hgathered⟩ := hrows
    obtain ⟨t, ht, hkey⟩ := (hgathered.mem_keys group.1).mp (List.mem_map_of_mem hgroup)
    exact .inr ⟨accumulated (hgathered.state group hgroup), List.ne_nil_of_mem (Grouping.mem_members.mpr ⟨ht, hkey⟩),
      fun t ht => hfed.shaped t (Grouping.mem_members.mp ht).1⟩

theorem length_aggValues (hfed : Fed clause prevCols groupCols aggCols records)
    (hgroups : groupStates stl clause prevCols records = .ok groups) (hgroup : group ∈ groups)
    (hresult : computeResult stl clause groupCols group = .ok result) :
    result.aggValues.length = clause.aggFuncs.length := by
  have hstate : group.2.aggValues.length = clause.aggFuncs.length := by
    cases groupStates_cases hfed hgroups hgroup with
    | inl hempty =>
      rw [hempty.1]
      exact List.length_map _
    | inr hrows => exact hrows.1.length hrows.2.1
  rw [(computeResult_ok hresult).2.1, List.length_map, List.length_zip, hstate, min_self]

theorem getElem?_emptyState (hf : clause.aggFuncs[i]? = some f) :
    (emptyState clause).aggValues[i]? = some (if f.funcType = .avg then .float 0 else .int 0, 0) := by
  unfold emptyState
  rw [List.getElem?_map, hf]
  rfl

end

/-- The group without rows has zeros, but no extreme. -/
theorem empty_right_iff (clause : AggClause) (f : AggFunc) :
    f.Right [] (finalValue (emptyState clause) f (if f.funcType = .avg then .float 0 else .int 0, 0)) ↔ f.Safe [] := by
  have hnone : ∀ le : Value → Value → Prop, ∀ v,
      Greatest le v [] ↔ ∃ u ∈ standing [], ∀ w ∈ ([] : List Value), le w u := fun le v =>
    iff_of_false (fun hv => List.not_mem_nil hv.1) fun ⟨u, hu, _⟩ => List.not_mem_nil (mem_of_mem_standing hu)
  have hzero : f.funcType ≠ .avg →
      finalValue (emptyState clause) f (if f.funcType = .avg then .float 0 else .int 0, 0) = .int 0 := by
    intro hkind
    unfold finalValue
    rw [if_neg hkind, if_neg fun havg : f.funcType = .avg ∧ _ => hkind havg.1]
    exact ite_id _
  unfold AggFunc.Right AggFunc.Safe
  cases hkind : f.funcType with
  | count =>
    rw [hkind] at hzero
    exact iff_of_true ⟨0, hzero nofun, rfl⟩ ⟨by decide, .inr List.not_mem_nil⟩
  | max => exact hnone _ _
  | min => exact hnone _ _
  | sum =>
    rw [hkind] at hzero
    exact iff_of_true ⟨0, hzero nofun, rfl⟩ ⟨by decide, by decide⟩
  | avg => exact Iff.rfl

/-- The cell of a function after the rows. -/
theorem Accumulated.cellOf {rows : List Tuple} {state : AggState} (h : Accumulated clause prevCols rows state)
    (hne : rows ≠ []) {i : ℕ} {f : AggFunc} {cell : Value × Float} (hf : clause.aggFuncs[i]? = some f)
    (hcell : state.aggValues[i]? = some cell) : CellOf prevCols rows f cell := by
  have hnone : (clause.aggFuncs.drop state.aggValues.length).mapM (initCell prevCols) = .ok [] := by
    rw [h.length hne, List.drop_length]
    rfl
  have hall := h.cells [] hnone
  rw [List.append_nil] at hall
  obtain ⟨hi, rfl⟩ := List.getElem?_eq_some_iff.mp hf
  obtain ⟨hi', rfl⟩ := List.getElem?_eq_some_iff.mp hcell
  exact (List.forall₂_iff_get.mp hall).2 i hi hi'

theorem length_columnValues {rows : List Tuple} {col : TabCol} {vals : List Value}
    (h : columnValues rows col = .ok vals) : vals.length = rows.length := (mapM_eq_ok_iff.mp h).length_eq.symm

theorem finalValue_cell {f : AggFunc} (hstar : ¬f.isCountStar) (havg : f.funcType ≠ .avg) (state : AggState)
    (cell : Value × Float) : finalValue state f cell = cell.1 := by
  unfold finalValue
  rw [if_neg hstar, if_neg fun h => havg h.1]

theorem initValue_count {f : AggFunc} (hkind : f.funcType = .count) : f.initValue prevCols = .ok (.int 0) := by
  unfold AggFunc.initValue
  rw [hkind]
  rfl

theorem Accumulated.right_iff {rows : List Tuple} {state : AggState} (h : Accumulated clause prevCols rows state)
    (hne : rows ≠ []) (hshape : ∀ t ∈ rows, t.map Prod.fst = prevCols) {i : ℕ} {f : AggFunc} {cell : Value × Float}
    (hf : clause.aggFuncs[i]? = some f) (hcell : state.aggValues[i]? = some cell) (hover : Aggregable prevCols f) :
    ∃ vals, columnValues rows f.col = .ok vals ∧ (f.Right vals (finalValue state f cell) ↔ f.Safe vals) := by
  by_cases hstar : f.isCountStar
  · have hkind : f.funcType = .count := (of_decide_eq_true hstar).1
    have hvals := columnValues_star hstar rows
    have hcount : state.count = .ofNat 32 (rows.map fun _ => Value.int 0).length := by
      rw [length_columnValues hvals]
      exact h.count
    exact ⟨_, hvals, count_right_iff hkind state hcount cell (.inl hstar)⟩
  · obtain ⟨init, vals, hinit, hvals, rfl⟩ := (h.cellOf hne hf hcell).resolve_left hstar
    refine ⟨vals, hvals, ?_⟩
    have hvalsNe : vals ≠ [] := by
      rw [← List.length_pos_iff, length_columnValues hvals]
      exact List.length_pos_iff.mpr hne
    have htyped : ∀ {type}, OverColumn prevCols f type → ∀ v ∈ vals, v.type = type := by
      intro type hcol
      obtain ⟨vals', hvals', htypes⟩ := hcol.columnValues hshape
      rw [hvals] at hvals'
      cases hvals'
      exact htypes
    have hover := hover.resolve_left hstar
    have hextreme : f.funcType = .max ∨ f.funcType = .min →
        (f.Right vals (f.runCell init vals).1 ↔ f.Safe vals) := by
      intro hkind
      have hkinds : f.funcType = .max ∨ f.funcType = .min ∨ f.funcType = .sum := hkind.imp_right .inl
      cases hover with
      | inl hint =>
        rw [hint.initValue hinit hkinds]
        exact extreme_right_iff hkind (.inl rfl) (htyped hint) hvalsNe
      | inr hstring =>
        rw [hstring.1.initValue hinit hkinds]
        exact extreme_right_iff hkind (.inr rfl) (htyped hstring.1) hvalsNe
    cases hkind : f.funcType with
    | count =>
      rw [initValue_count hkind, Except.ok.injEq] at hinit
      rw [← hinit]
      refine count_right_iff hkind state ?_ _ (.inr rfl)
      rw [length_columnValues hvals]
      exact h.count
    | max =>
      rw [finalValue_cell hstar (by simp [hkind])]
      exact hextreme (.inl hkind)
    | min =>
      rw [finalValue_cell hstar (by simp [hkind])]
      exact hextreme (.inr hkind)
    | sum =>
      have hint := hover.resolve_right fun hstring => hstring.2 hkind
      rw [finalValue_cell hstar (by simp [hkind]), hint.initValue hinit (.inr (.inr hkind))]
      exact sum_right_iff hkind (htyped hint)
    | avg =>
      unfold AggFunc.Right AggFunc.Safe
      rw [hkind]

/-- The output of a function for a group is right exactly if its rows are safe for it. -/
theorem aggregate_right_iff (hfed : Fed clause prevCols groupCols aggCols records) {groups : List (Bytes × AggState)}
    (hgroups : groupStates stl clause prevCols records = .ok groups) {group : Bytes × AggState} (hgroup : group ∈ groups)
    {result : AggResult} (hresult : computeResult stl clause groupCols group = .ok result) {i : ℕ} {f : AggFunc}
    {v : Value} (hf : clause.aggFuncs[i]? = some f) (hv : result.aggValues[i]? = some v)
    (hover : Aggregable prevCols f) :
    ∃ vals, columnValues (groupRows stl clause records group.1) f.col = .ok vals ∧ (f.Right vals v ↔ f.Safe vals) := by
  obtain ⟨cell, hcell, rfl⟩ := computeResult_aggValues hresult hf hv
  cases groupStates_cases hfed hgroups hgroup with
  | inl hempty =>
    rw [hempty.2]
    rw [hempty.1] at hcell ⊢
    rw [getElem?_emptyState hf] at hcell
    cases hcell
    exact ⟨[], rfl, empty_right_iff clause f⟩
  | inr hrows => exact hrows.1.right_iff hrows.2.1 hrows.2.2 hf hcell hover

/-- `SELECT MAX(a)`. -/
def maxOfA : AggClause := ⟨[⟨.max, ⟨"t", "a"⟩, ""⟩], [], [], [], [], -1⟩

theorem fed_maxOfA (rows : List (Bytes × Bytes)) :
    Fed maxOfA pairCols [] [⟨⟨"max(a)", .string, 2, 0⟩, ""⟩] (rows.map fun row => pairRow row.1 row.2) where
  built := rfl
  shaped := (fed_pair rows).shaped
  named := nofun

theorem aggregable_maxOfA : Aggregable pairCols ⟨.max, ⟨"t", "a"⟩, ""⟩ :=
  .inr (.inr ⟨⟨by decide, _, rfl, rfl⟩, by decide⟩)

/-- The greatest of `b` and `a` comes out as `a`. -/
theorem not_aggregate_right_maxOfA : ¬∀ stl clause prevCols groupCols aggCols records groups group result (i : ℕ) f v,
    Fed clause prevCols groupCols aggCols records → groupStates stl clause prevCols records = .ok groups →
    group ∈ groups → computeResult stl clause groupCols group = .ok result → clause.aggFuncs[i]? = some f →
    result.aggValues[i]? = some v → Aggregable prevCols f →
    ∃ vals, columnValues (groupRows stl clause records group.1) f.col = .ok vals ∧ f.Right vals v := by
  intro h
  obtain ⟨vals, hvals, hright⟩ := h zeroStl maxOfA pairCols [] _ _ _ (globalKey, ⟨2, [(.str [97], 0)]⟩) _ 0 _ _
    (fed_maxOfA [([98, 0], [0, 0]), ([97, 0], [0, 0])]) rfl List.mem_cons_self rfl rfl rfl aggregable_maxOfA
  cases hvals
  have hless : compare ([98] : Bytes) [97] = .gt := by decide
  have hmost : (compare ([98] : Bytes) [97]).isLE := hright.2 (.str [98]) List.mem_cons_self
  rw [hless] at hmost
  cases hmost

theorem aggregate_right_iff_maxOfA :
    ∃ vals, columnValues (groupRows zeroStl maxOfA [pairRow [97, 0] [0, 0]] globalKey) ⟨"t", "a"⟩ = .ok vals ∧
      ((⟨.max, ⟨"t", "a"⟩, ""⟩ : AggFunc).Right vals (.str [97]) ↔ AggFunc.Safe ⟨.max, ⟨"t", "a"⟩, ""⟩ vals) := by
  have hgroups : groupStates zeroStl maxOfA pairCols [pairRow [97, 0] [0, 0]] =
      .ok [(globalKey, ⟨1, [(.str [97], 0)]⟩)] := rfl
  have hresult : computeResult zeroStl maxOfA [] (globalKey, ⟨1, [(.str [97], 0)]⟩) = .ok ⟨[], [.str [97]], 1⟩ := rfl
  have hf : maxOfA.aggFuncs[0]? = some ⟨.max, ⟨"t", "a"⟩, ""⟩ := rfl
  exact aggregate_right_iff (fed_maxOfA [([97, 0], [0, 0])]) hgroups List.mem_cons_self hresult hf rfl aggregable_maxOfA

end AggregationExecutor
end Rmdb
