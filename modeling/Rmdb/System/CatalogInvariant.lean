import Rmdb.System.Ddl

/-! The catalog after any tables and indexes were created and dropped: the flags of the columns and the
open files agree with the indexes and tables that are there. -/
namespace Rmdb.Catalog

open Program

variable {s s' : SmManager} {tab : String} {colDefs : List ColDef} {colNames : List String} {mvcc unique : Bool}
  {fd fd' : ℤ} {filled : Option SmError} {cols cols' : List ColMeta} {flag : Bool} {name : String}

/-! The flags of the columns. -/

def ColMeta.mark (flag : Bool) (p : String → Bool) (col : ColMeta) : ColMeta :=
  { col with index := if p col.name then flag else col.index }

theorem ColMeta.mark_mark (flag : Bool) (p q : String → Bool) (col : ColMeta) :
    (col.mark flag p).mark flag q = col.mark flag fun name => p name || q name := by
  have hindex : (if q col.name then flag else if p col.name then flag else col.index) =
      if p col.name || q col.name then flag else col.index := by
    cases p col.name <;> cases q col.name <;> rfl
  exact congrArg (fun b => { col with index := b }) hindex

theorem ColMeta.mark_of_eq_false {p : String → Bool} {col : ColMeta} (h : p col.name = false) : col.mark flag p = col := by
  simp [ColMeta.mark, h]

theorem map_name_mark (flag : Bool) (p : String → Bool) (cols : List ColMeta) :
    (cols.map (·.mark flag p)).map (·.name) = cols.map (·.name) := by
  rw [List.map_map]
  rfl

theorem setIndexFlag_ok (hnodup : (cols.map (·.name)).Nodup) (h : setIndexFlag flag name cols = .ok cols') :
    cols' = cols.map (·.mark flag (· == name)) := by
  induction cols generalizing cols' with
  | nil => cases h
  | cons col cols ih =>
    obtain ⟨hfirst, hrest⟩ := List.nodup_cons.mp hnodup
    rw [setIndexFlag] at h
    split_ifs at h with hname
    · cases h
      have hother : ∀ c ∈ cols, c.mark flag (· == name) = c := by
        intro c hc
        have hne : c.name ≠ name := fun heq => hfirst (List.mem_map.mpr ⟨c, hc, heq.trans hname.symm⟩)
        exact ColMeta.mark_of_eq_false (by simpa using hne)
      rw [List.map_cons, List.map_congr_left hother, List.map_id']
      simp [ColMeta.mark, hname]
    · obtain ⟨rest, hset, h₁⟩ := bind_eq_ok.mp h
      cases h₁
      rw [List.map_cons, ih hrest hset]
      simp [ColMeta.mark, hname]

/-- What one name does to the flags, a list of names does. -/
theorem foldlM_mark {f : List ColMeta → String → Except SmError (List ColMeta)} {p : String → Bool}
    (hf : ∀ cols name cols', (cols.map (·.name)).Nodup → f cols name = .ok cols' →
      cols' = cols.map (·.mark flag fun n => n == name && p n))
    (hnodup : (cols.map (·.name)).Nodup) (h : colNames.foldlM f cols = .ok cols') :
    cols' = cols.map (·.mark flag fun n => colNames.contains n && p n) := by
  induction colNames generalizing cols with
  | nil =>
    cases h
    simp [ColMeta.mark]
  | cons name colNames ih =>
    rw [List.foldlM_cons] at h
    obtain ⟨cols₁, hfirst, hrest⟩ := bind_eq_ok.mp h
    have hcols₁ := hf cols name cols₁ hnodup hfirst
    subst hcols₁
    rw [ih (by rwa [map_name_mark]) hrest, List.map_map]
    apply List.map_congr_left
    intro col _
    rw [Function.comp_apply, ColMeta.mark_mark]
    congr 1
    funext n
    rw [List.contains_cons, Bool.and_or_distrib_right]

theorem setIndexFlags_ok (hnodup : (cols.map (·.name)).Nodup)
    (h : colNames.foldlM (fun cols name => setIndexFlag flag name cols) cols = .ok cols') :
    cols' = cols.map (·.mark flag fun n => colNames.contains n && true) := by
  apply foldlM_mark _ hnodup h
  intro cols name cols' hnodup h
  simpa using setIndexFlag_ok hnodup h

theorem unsetIndexFlags_ok {indexes : List IndexMeta} (hnodup : (cols.map (·.name)).Nodup)
    (h : colNames.foldlM (unsetIndexFlag indexes) cols = .ok cols') :
    cols' = cols.map (·.mark false fun n => colNames.contains n && !decide (∃ index ∈ indexes, n ∈ index.colNames)) := by
  apply foldlM_mark _ hnodup h
  intro cols name cols' hnodup h
  unfold unsetIndexFlag at h
  split_ifs at h with hindexed
  · cases h
    have hsame : ∀ col ∈ cols, col.mark false (fun n => n == name && !decide (∃ index ∈ indexes, n ∈ index.colNames)) = col := by
      intro col _
      apply ColMeta.mark_of_eq_false
      by_cases hname : col.name = name
      · simp [hname, hindexed]
      · simp [hname]
    rw [List.map_congr_left hsame, List.map_id']
  · rw [setIndexFlag_ok hnodup h]
    apply List.map_congr_left
    intro col _
    by_cases hname : col.name = name
    · simp [ColMeta.mark, hname, hindexed]
    · simp [ColMeta.mark, hname]

/-! What holds of the catalog and the handles after any calls that return. -/

structure TabMeta.Consistent (tabMeta : TabMeta) : Prop where
  flag : ∀ col ∈ tabMeta.cols, (col.index = true ↔ ∃ index ∈ tabMeta.indexes, col.name ∈ index.colNames)
  distinct : (tabMeta.indexes.map (·.colNames)).Nodup
  column : ∀ index ∈ tabMeta.indexes, ∀ col ∈ index.cols, ∃ c ∈ tabMeta.cols, { c with index := col.index } = col

/-- An index of the catalog. -/
def SmManager.HasIndex (s : SmManager) (tab : String) (colNames : List String) : Prop :=
  ∃ tabMeta, s.db.tabs[tab]? = some tabMeta ∧ colNames ∈ tabMeta.indexes.map (·.colNames)

structure SmManager.Consistent (s : SmManager) : Prop where
  tables : ∀ (tab : String) (tabMeta : TabMeta), s.db.tabs[tab]? = some tabMeta → TabMeta.Consistent tabMeta
  indexHandles : ∀ name, s.ihs name ≠ none ↔ ∃ tab colNames, s.HasIndex tab colNames ∧ getIndexName tab colNames = name
  fileHandles : ∀ tab, s.fhs tab ≠ none ↔ tab ∈ s.db.tabs

/-- Columns are told apart by their names, and the number of columns of an index is right. -/
structure TabMeta.Inv (tabMeta : TabMeta) : Prop extends tabMeta.Consistent where
  names : (tabMeta.cols.map (·.name)).Nodup
  colNum : ∀ index ∈ tabMeta.indexes, index.colNum.toInt = index.cols.length

/-- Indexes are told apart by the names of their files. -/
structure SmManager.Inv (s : SmManager) : Prop where
  tables : ∀ (tab : String) (tabMeta : TabMeta), s.db.tabs[tab]? = some tabMeta → TabMeta.Inv tabMeta
  indexHandles : ∀ name, s.ihs name ≠ none ↔ ∃ tab colNames, s.HasIndex tab colNames ∧ getIndexName tab colNames = name
  fileHandles : ∀ tab, s.fhs tab ≠ none ↔ tab ∈ s.db.tabs
  apart : ∀ tab colNames tab' colNames', s.HasIndex tab colNames → s.HasIndex tab' colNames' →
    getIndexName tab colNames = getIndexName tab' colNames' → tab = tab' ∧ colNames = colNames'

theorem zip_names {cols : List ColMeta} {colNames : List String} (hlen : cols.length = colNames.length) :
    (∀ p ∈ cols.zip colNames, p.1.name = p.2) ↔ cols.map (·.name) = colNames := by
  induction cols generalizing colNames with
  | nil =>
    cases colNames with
    | nil => simp
    | cons name colNames => cases hlen
  | cons col cols ih =>
    cases colNames with
    | nil => cases hlen
    | cons name colNames =>
      rw [List.zip_cons_cons, List.forall_mem_cons, ih (Nat.succ.inj hlen), List.map_cons, List.cons.injEq]

theorem isOn_iff {index : IndexMeta} (h : index.colNum.toInt = index.cols.length) :
    index.isOn colNames = true ↔ index.colNames = colNames := by
  rw [IndexMeta.isOn, decide_eq_true_iff, h]
  constructor
  · intro ⟨hlen, hzip⟩
    exact (zip_names (by exact_mod_cast hlen)).mp hzip
  · intro heq
    have hlen : index.cols.length = colNames.length := by rw [← heq, IndexMeta.colNames, List.length_map]
    exact ⟨by exact_mod_cast hlen, (zip_names hlen).mpr heq⟩

theorem length_le_getIndexName (tab : String) (colNames : List String) :
    colNames.length ≤ (getIndexName tab colNames).utf8ByteSize := by
  have hfold : ∀ (names : List String) (tab : String),
      names.length + tab.utf8ByteSize ≤ (names.foldl (fun name col => name ++ "_" ++ col) tab).utf8ByteSize := by
    intro names
    induction names with
    | nil => intro tab; simp
    | cons name names ih =>
      intro tab
      have hrest := ih (tab ++ "_" ++ name)
      have hbar : "_".utf8ByteSize = 1 := by decide
      rw [String.utf8ByteSize_append, String.utf8ByteSize_append, hbar] at hrest
      rw [List.foldl_cons, List.length_cons]
      omega
  have hname := hfold colNames tab
  rw [getIndexName, String.utf8ByteSize_append]
  omega

theorem toInt_ofNat_length (h : (getIndexName tab colNames).utf8ByteSize ≤ nameMax) :
    (Int32.ofNat colNames.length).toInt = colNames.length := by
  have hlen : colNames.length ≤ 255 := (length_le_getIndexName tab colNames).trans h
  exact Int32.toInt_ofNat_of_lt (by omega)

namespace TabMeta

variable {tabMeta : TabMeta} {tabCols : List ColMeta} {index : IndexMeta}

theorem map_name_colMetas (tab : String) (offset : Int32) (colDefs : List ColDef) :
    (colMetas tab offset colDefs).map (·.name) = colDefs.map (·.name) := by
  induction colDefs generalizing offset with
  | nil => rfl
  | cons col colDefs ih => rw [colMetas, List.map_cons, List.map_cons, ih]

theorem index_colMetas (tab : String) (offset : Int32) (colDefs : List ColDef) :
    ∀ col ∈ colMetas tab offset colDefs, col.index = false := by
  induction colDefs generalizing offset with
  | nil => nofun
  | cons def_ colDefs ih =>
    intro col hcol
    cases List.mem_cons.mp hcol with
    | inl heq => rw [heq]
    | inr hmem => exact ih _ col hmem

theorem inv_newTable (tab : String) (h : (colDefs.map (·.name)).Nodup) : (newTable tab colDefs).Inv where
  flag col hcol := by
    have : col.index = false := index_colMetas tab 0 colDefs col hcol
    simp [this, newTable]
  distinct := List.nodup_nil
  column := nofun
  names := by
    rw [newTable, map_name_colMetas]
    exact h
  colNum := nofun

theorem isIndex_eq_false (h : tabMeta.Inv) (hindex : tabMeta.isIndex colNames = false) :
    colNames ∉ tabMeta.indexes.map (·.colNames) := by
  intro hmem
  obtain ⟨index, hin, heq⟩ := List.mem_map.mp hmem
  have := List.any_eq_false.mp hindex index hin
  exact this ((isOn_iff (h.colNum index hin)).mpr heq)

theorem Inv.createIndex (h : tabMeta.Inv) (hindex : colNames ∉ tabMeta.indexes.map (·.colNames))
    (hnames : index.colNames = colNames) (hcols : ∀ col ∈ index.cols, col ∈ tabMeta.cols)
    (hnum : index.colNum.toInt = index.cols.length)
    (htab : tabCols = tabMeta.cols.map (·.mark true fun n => colNames.contains n && true)) :
    Inv { tabMeta with cols := tabCols, indexes := tabMeta.indexes ++ [index] } := by
  subst htab
  refine ⟨⟨?_, ?_, ?_⟩, ?_, ?_⟩
  · intro col hcol
    obtain ⟨c, hc, rfl⟩ := List.mem_map.mp hcol
    have hold := h.flag c hc
    by_cases hname : c.name ∈ colNames
    · have hflag : (c.mark true fun n => colNames.contains n && true).index = true := by simp [ColMeta.mark, hname]
      refine iff_of_true hflag ⟨index, by simp, ?_⟩
      rw [hnames]
      exact hname
    · rw [ColMeta.mark_of_eq_false (by simpa using hname), hold]
      simp [hnames, hname]
  · rw [List.map_append]
    apply h.distinct.append (List.nodup_singleton _)
    intro names hmem hnew
    obtain rfl : names = index.colNames := by simpa using hnew
    exact hindex (hnames ▸ hmem)
  · intro other hother col hcol
    have hcolumn : ∃ c ∈ tabMeta.cols, { c with index := col.index } = col := by
      cases List.mem_append.mp hother with
      | inl hmem => exact h.column other hmem col hcol
      | inr hnew =>
        obtain rfl := List.mem_singleton.mp hnew
        exact ⟨col, hcols col hcol, rfl⟩
    obtain ⟨c, hc, heq⟩ := hcolumn
    exact ⟨_, List.mem_map_of_mem hc, heq⟩
  · rw [map_name_mark]
    exact h.names
  · intro other hother
    cases List.mem_append.mp hother with
    | inl hmem => exact h.colNum other hmem
    | inr hnew =>
      obtain rfl := List.mem_singleton.mp hnew
      exact hnum

/-- The one index on the columns is taken away. -/
theorem Inv.mem_eraseP (h : tabMeta.Inv) :
    index ∈ tabMeta.indexes.eraseP (·.isOn colNames) ↔ index ∈ tabMeta.indexes ∧ index.colNames ≠ colNames := by
  have hnum := h.colNum
  have hdistinct := h.distinct
  generalize tabMeta.indexes = indexes at hnum hdistinct ⊢
  induction indexes with
  | nil => simp
  | cons first indexes ih =>
    rw [List.map_cons, List.nodup_cons] at hdistinct
    have hrest : index ∈ indexes.eraseP (·.isOn colNames) ↔ index ∈ indexes ∧ index.colNames ≠ colNames :=
      ih (fun other hother => hnum other (List.mem_cons_of_mem first hother)) hdistinct.2
    have hfirst : first.isOn colNames = true ↔ first.colNames = colNames := isOn_iff (hnum first List.mem_cons_self)
    by_cases hon : first.colNames = colNames
    · rw [List.eraseP_cons, hfirst.mpr hon, cond_true, List.mem_cons]
      constructor
      · intro hmem
        refine ⟨Or.inr hmem, ?_⟩
        intro heq
        exact hdistinct.1 (List.mem_map.mpr ⟨index, hmem, heq.trans hon.symm⟩)
      · intro ⟨hmem, hne⟩
        refine hmem.resolve_left ?_
        intro heq
        exact hne (heq ▸ hon)
    · have hoff : first.isOn colNames = false := Bool.eq_false_of_not_eq_true fun h => hon (hfirst.mp h)
      rw [List.eraseP_cons, hoff, cond_false, List.mem_cons, List.mem_cons, hrest]
      constructor
      · intro hmem
        cases hmem with
        | inl heq => exact ⟨Or.inl heq, heq ▸ hon⟩
        | inr hmem => exact ⟨Or.inr hmem.1, hmem.2⟩
      · intro ⟨hmem, hne⟩
        exact hmem.imp_right fun h => ⟨h, hne⟩

theorem Inv.dropIndex {indexes : List IndexMeta} (h : tabMeta.Inv)
    (hindexes : indexes = tabMeta.indexes.eraseP (·.isOn colNames))
    (htab : tabCols = tabMeta.cols.map (·.mark false fun n =>
      colNames.contains n && !decide (∃ index ∈ indexes, n ∈ index.colNames))) :
    Inv { tabMeta with cols := tabCols, indexes := indexes } := by
  have hsub : indexes ⊆ tabMeta.indexes := hindexes ▸ List.eraseP_subset
  subst htab
  refine ⟨⟨?_, ?_, ?_⟩, ?_, ?_⟩
  · intro col hcol
    obtain ⟨c, hc, rfl⟩ := List.mem_map.mp hcol
    have hold := h.flag c hc
    by_cases hindexed : ∃ index ∈ indexes, c.name ∈ index.colNames
    · rw [ColMeta.mark_of_eq_false (by simp [hindexed])]
      refine iff_of_true (hold.mpr ?_) hindexed
      obtain ⟨index, hmem, hname⟩ := hindexed
      exact ⟨index, hsub hmem, hname⟩
    · by_cases hname : c.name ∈ colNames
      · refine iff_of_false ?_ hindexed
        have hmark : (colNames.contains c.name && !decide (∃ index ∈ indexes, c.name ∈ index.colNames)) = true := by
          simp [hindexed, hname]
        rw [ColMeta.mark, if_pos hmark]
        exact Bool.false_ne_true
      · rw [ColMeta.mark_of_eq_false (by simp [hname])]
        refine iff_of_false ?_ hindexed
        intro hflag
        obtain ⟨index, hmem, hin⟩ := hold.mp hflag
        have hkept : index ∈ indexes := by
          rw [hindexes]
          exact h.mem_eraseP.mpr ⟨hmem, fun heq => hname (heq ▸ hin)⟩
        exact hindexed ⟨index, hkept, hin⟩
  · rw [hindexes]
    exact h.distinct.sublist (List.eraseP_sublist.map _)
  · intro index hmem col hcol
    obtain ⟨c, hc, heq⟩ := h.column index (hsub hmem) col hcol
    exact ⟨_, List.mem_map_of_mem hc, heq⟩
  · rw [map_name_mark]
    exact h.names
  · exact fun index hmem => h.colNum index (hsub hmem)

end TabMeta

namespace SmManager

variable {tabMeta : TabMeta} {tabs : Std.ExtTreeMap String TabMeta}

theorem getElem?_insert (tabs : Std.ExtTreeMap String TabMeta) (tab : String) (tabMeta : TabMeta) (tab' : String) :
    (tabs.insert tab tabMeta)[tab']? = if tab' = tab then some tabMeta else tabs[tab']? := by
  rw [Std.ExtTreeMap.getElem?_insert]
  by_cases heq : tab' = tab
  · subst heq
    simp
  · have hne : ¬compare tab tab' = .eq := fun hc => heq (Std.compare_eq_iff_eq.mp hc).symm
    rw [if_neg hne, if_neg heq]

theorem getElem?_erase (tabs : Std.ExtTreeMap String TabMeta) (tab tab' : String) :
    (tabs.erase tab)[tab']? = if tab' = tab then none else tabs[tab']? := by
  rw [Std.ExtTreeMap.getElem?_erase]
  by_cases heq : tab' = tab
  · subst heq
    simp
  · have hne : ¬compare tab tab' = .eq := fun hc => heq (Std.compare_eq_iff_eq.mp hc).symm
    rw [if_neg hne, if_neg heq]

theorem tables_insert (h : ∀ (tab : String) (tabMeta : TabMeta), s.db.tabs[tab]? = some tabMeta → TabMeta.Inv tabMeta)
    (hnew : tabMeta.Inv) (tab tab' : String) (tabMeta' : TabMeta)
    (hget : (s.db.tabs.insert tab tabMeta)[tab']? = some tabMeta') : tabMeta'.Inv := by
  rw [getElem?_insert] at hget
  split_ifs at hget
  · exact Option.some.inj hget ▸ hnew
  · exact h tab' tabMeta' hget

theorem hasIndex_insert {s' : SmManager} (h : s'.db.tabs = s.db.tabs.insert tab tabMeta) (tab' : String)
    (colNames : List String) :
    s'.HasIndex tab' colNames ↔
      if tab' = tab then colNames ∈ tabMeta.indexes.map (·.colNames) else s.HasIndex tab' colNames := by
  unfold HasIndex
  rw [h, getElem?_insert]
  split_ifs
  · simp
  · rfl

theorem hasIndex_iff (h : s.db.tabs[tab]? = some tabMeta) (colNames : List String) :
    s.HasIndex tab colNames ↔ colNames ∈ tabMeta.indexes.map (·.colNames) := by
  unfold HasIndex
  simp [h]

theorem mem_iff (tab : String) : tab ∈ s.db.tabs ↔ s.db.tabs[tab]? ≠ none := by
  rw [Std.ExtTreeMap.mem_iff_isSome_getElem?, Option.isSome_iff_ne_none]

theorem hasIndex_erase (h : s'.db.tabs = s.db.tabs.erase tab) (tab' : String) (colNames : List String) :
    s'.HasIndex tab' colNames ↔ tab' ≠ tab ∧ s.HasIndex tab' colNames := by
  unfold HasIndex
  rw [h, getElem?_erase]
  split_ifs with heq
  · simp [heq]
  · simp [heq]

theorem fileHandles_insert (h : ∀ tab, s.fhs tab ≠ none ↔ tab ∈ s.db.tabs) (htab : tab ∈ s.db.tabs)
    (tabMeta : TabMeta) (tab' : String) : s.fhs tab' ≠ none ↔ tab' ∈ s.db.tabs.insert tab tabMeta := by
  rw [h, Std.ExtTreeMap.mem_insert, Std.compare_eq_iff_eq]
  constructor
  · exact Or.inr
  · intro hmem
    cases hmem with
    | inl heq => exact heq ▸ htab
    | inr hold => exact hold

theorem Inv.createTable (hinv : s.Inv) (h : runFrom (createTable tab colDefs mvcc fd fd') s = (.ok (), s')) :
    s'.Inv := by
  obtain ⟨hnew, hnames, fd, disk, hs'⟩ := createTable_ok h
  have htabs : s'.db.tabs = s.db.tabs.insert tab (newTable tab colDefs) := by rw [hs']
  have hhas : ∀ tab' colNames, s'.HasIndex tab' colNames ↔ s.HasIndex tab' colNames := by
    intro tab' colNames
    rw [hasIndex_insert htabs]
    split_ifs with heq
    · subst heq
      refine iff_of_false List.not_mem_nil ?_
      intro ⟨tabMeta, htab, _⟩
      rw [hnew] at htab
      cases htab
    · rfl
  refine ⟨?_, ?_, ?_, ?_⟩
  · rw [htabs]
    exact tables_insert hinv.tables (TabMeta.inv_newTable tab hnames) tab
  · intro name
    simp only [hhas]
    rw [hs']
    exact hinv.indexHandles name
  · intro tab'
    have hold := hinv.fileHandles tab'
    have hfhs : s'.fhs tab' = if tab' = tab then (s.fhs tab).or (some fd) else s.fhs tab' := by
      rw [hs']
      exact Function.update_apply ..
    rw [mem_iff] at hold ⊢
    rw [hfhs, htabs, getElem?_insert]
    split_ifs
    · cases s.fhs tab <;> simp
    · exact hold
  · intro tab₁ colNames₁ tab₂ colNames₂ h₁ h₂
    exact hinv.apart tab₁ colNames₁ tab₂ colNames₂ ((hhas _ _).mp h₁) ((hhas _ _).mp h₂)

theorem Inv.dropTable (hinv : s.Inv) (h : runFrom (dropTable tab) s = (.ok (), s')) : s'.Inv := by
  obtain ⟨tabMeta, disk, htab, hs'⟩ := dropTable_ok h
  have htabs : s'.db.tabs = s.db.tabs.erase tab := by rw [hs']
  have hhas := hasIndex_erase htabs
  refine ⟨?_, ?_, ?_, ?_⟩
  · intro tab' tabMeta' hget
    rw [htabs, getElem?_erase] at hget
    split_ifs at hget
    exact hinv.tables tab' tabMeta' hget
  · intro name
    have hold := hinv.indexHandles name
    have hihs : s'.ihs name =
        if ∃ index ∈ tabMeta.indexes, getIndexName tab index.colNames = name then none else s.ihs name := by rw [hs']
    have hmine : (∃ index ∈ tabMeta.indexes, getIndexName tab index.colNames = name) ↔
        ∃ colNames, s.HasIndex tab colNames ∧ getIndexName tab colNames = name := by
      simp [hasIndex_iff htab]
    rw [hihs, ite_ne_left_iff, hmine]
    constructor
    · intro ⟨hother, hname⟩
      obtain ⟨tab', colNames, hindex, heq⟩ := hold.mp (Ne.symm hname)
      refine ⟨tab', colNames, (hhas _ _).mpr ⟨?_, hindex⟩, heq⟩
      intro htab'
      exact hother ⟨colNames, htab' ▸ hindex, htab' ▸ heq⟩
    · intro ⟨tab', colNames, hindex, heq⟩
      obtain ⟨hne, hindex⟩ := (hhas _ _).mp hindex
      refine ⟨?_, Ne.symm (hold.mpr ⟨tab', colNames, hindex, heq⟩)⟩
      intro ⟨colNames', hindex', heq'⟩
      exact hne (hinv.apart _ _ _ _ hindex hindex' (heq.trans heq'.symm)).1
  · intro tab'
    have hold := hinv.fileHandles tab'
    have hfhs : s'.fhs tab' = if tab' = tab then none else s.fhs tab' := by
      rw [hs']
      exact Function.update_apply ..
    rw [mem_iff] at hold ⊢
    rw [hfhs, htabs, getElem?_erase]
    split_ifs
    · exact iff_of_false (fun hc => hc rfl) fun hc => hc rfl
    · exact hold
  · intro tab₁ colNames₁ tab₂ colNames₂ h₁ h₂
    exact hinv.apart tab₁ colNames₁ tab₂ colNames₂ ((hhas _ _).mp h₁).2 ((hhas _ _).mp h₂).2

theorem Inv.createIndex (hinv : s.Inv)
    (h : runFrom (createIndex tab colNames unique fd fd' filled) s = (.ok (), s')) : s'.Inv := by
  obtain ⟨tabMeta, cols, tabCols, fd, disk, htab, hindex, hcols, hfree, hname, hflags, hs'⟩ := createIndex_ok h
  have hold := hinv.tables tab tabMeta htab
  have hindex := TabMeta.isIndex_eq_false hold hindex
  obtain ⟨hnames, hmem⟩ := getCols_ok hcols
  have hlen : cols.length = colNames.length := by rw [← hnames, List.length_map]
  have hnum : (Int32.ofNat cols.length).toInt = cols.length := by
    rw [hlen]
    exact toInt_ofNat_length hname
  have htabInv : TabMeta.Inv { tabMeta with
      cols := tabCols, indexes := tabMeta.indexes ++ [⟨tab, totLen cols, .ofNat cols.length, cols, unique⟩] } :=
    hold.createIndex hindex hnames hmem hnum (setIndexFlags_ok hold.names hflags)
  have htabs : s'.db.tabs = s.db.tabs.insert tab { tabMeta with
      cols := tabCols, indexes := tabMeta.indexes ++ [⟨tab, totLen cols, .ofNat cols.length, cols, unique⟩] } := by
    rw [hs']
  have hhas : ∀ tab' names, s'.HasIndex tab' names ↔ s.HasIndex tab' names ∨ tab' = tab ∧ names = colNames := by
    intro tab' names
    rw [hasIndex_insert htabs]
    split_ifs with heq
    · subst heq
      rw [hasIndex_iff htab]
      simp [IndexMeta.colNames, hnames]
    · simp [heq]
  have hfreshName : ∀ tab' names, s.HasIndex tab' names → getIndexName tab' names ≠ getIndexName tab colNames := by
    intro tab' names hhas' heq
    exact (hinv.indexHandles _).mpr ⟨tab', names, hhas', heq⟩ hfree
  refine ⟨?_, ?_, ?_, ?_⟩
  · rw [htabs]
    exact tables_insert hinv.tables htabInv tab
  · intro name
    have hihs : s'.ihs name = if name = getIndexName tab colNames then some fd else s.ihs name := by
      rw [hs']
      exact Function.update_apply ..
    rw [hihs]
    simp only [hhas]
    split_ifs with heq
    · refine iff_of_true (Option.some_ne_none fd) ⟨tab, colNames, Or.inr ⟨rfl, rfl⟩, heq.symm⟩
    · rw [hinv.indexHandles name]
      constructor
      · intro hindex
        obtain ⟨tab', names, hhas', hname'⟩ := hindex
        exact ⟨tab', names, Or.inl hhas', hname'⟩
      · intro hindex
        obtain ⟨tab', names, hhas', hname'⟩ := hindex
        cases hhas' with
        | inl hhas' => exact ⟨tab', names, hhas', hname'⟩
        | inr hnew =>
          obtain ⟨rfl, rfl⟩ := hnew
          exact absurd hname'.symm heq
  · intro tab'
    rw [htabs, ← fileHandles_insert hinv.fileHandles ((mem_iff tab).mpr (by simp [htab]))]
    rw [hs']
  · intro tab₁ names₁ tab₂ names₂ h₁ h₂ heq
    cases (hhas _ _).mp h₁ with
    | inl h₁ =>
      cases (hhas _ _).mp h₂ with
      | inl h₂ => exact hinv.apart tab₁ names₁ tab₂ names₂ h₁ h₂ heq
      | inr h₂ =>
        obtain ⟨rfl, rfl⟩ := h₂
        exact absurd heq (hfreshName _ _ h₁)
    | inr h₁ =>
      obtain ⟨rfl, rfl⟩ := h₁
      cases (hhas _ _).mp h₂ with
      | inl h₂ => exact absurd heq.symm (hfreshName _ _ h₂)
      | inr h₂ => exact ⟨h₂.1.symm, h₂.2.symm⟩

theorem Inv.dropIndex (hinv : s.Inv) (h : runFrom (dropIndex tab colNames) s = (.ok (), s')) : s'.Inv := by
  obtain ⟨tabMeta, index, cols, disk, htab, hfind, hflags, hs'⟩ := dropIndex_ok h
  have hold := hinv.tables tab tabMeta htab
  have hmem : index ∈ tabMeta.indexes := List.mem_of_find?_eq_some hfind
  have hon : index.colNames = colNames := (isOn_iff (hold.colNum index hmem)).mp (by simpa using List.find?_some hfind)
  have htabs : s'.db.tabs = s.db.tabs.insert tab { tabMeta with
      cols, indexes := tabMeta.indexes.eraseP (·.isOn colNames) } := by
    rw [hs']
  have hhas : ∀ tab' names, s'.HasIndex tab' names ↔ s.HasIndex tab' names ∧ ¬(tab' = tab ∧ names = colNames) := by
    intro tab' names
    rw [hasIndex_insert htabs]
    split_ifs with heq
    · subst heq
      rw [hasIndex_iff htab, List.mem_map, List.mem_map]
      constructor
      · intro ⟨other, hother, hnames⟩
        obtain ⟨hother, hne⟩ := hold.mem_eraseP.mp hother
        exact ⟨⟨other, hother, hnames⟩, fun hc => hne (hnames.trans hc.2)⟩
      · intro ⟨⟨other, hother, hnames⟩, hne⟩
        exact ⟨other, hold.mem_eraseP.mpr ⟨hother, fun hc => hne ⟨rfl, hnames.symm.trans hc⟩⟩, hnames⟩
    · simp [heq]
  have hdropped : s.HasIndex tab colNames := (hasIndex_iff htab colNames).mpr (List.mem_map.mpr ⟨index, hmem, hon⟩)
  refine ⟨?_, ?_, ?_, ?_⟩
  · rw [htabs]
    exact tables_insert hinv.tables (hold.dropIndex rfl (unsetIndexFlags_ok hold.names hflags)) tab
  · intro name
    have hihs : s'.ihs name = if name = getIndexName tab colNames then none else s.ihs name := by
      rw [hs']
      exact Function.update_apply ..
    rw [hihs]
    simp only [hhas]
    split_ifs with heq
    · refine iff_of_false (fun hc => hc rfl) ?_
      intro ⟨tab', names, ⟨hhas', hne⟩, hname'⟩
      exact hne (hinv.apart _ _ _ _ hhas' hdropped (hname'.trans heq))
    · rw [hinv.indexHandles name]
      constructor
      · intro ⟨tab', names, hhas', hname'⟩
        refine ⟨tab', names, ⟨hhas', ?_⟩, hname'⟩
        rintro ⟨rfl, rfl⟩
        exact heq hname'.symm
      · intro ⟨tab', names, hhas', hname'⟩
        exact ⟨tab', names, hhas'.1, hname'⟩
  · intro tab'
    rw [htabs, ← fileHandles_insert hinv.fileHandles ((mem_iff tab).mpr (by simp [htab]))]
    rw [hs']
  · intro tab₁ names₁ tab₂ names₂ h₁ h₂
    exact hinv.apart tab₁ names₁ tab₂ names₂ ((hhas _ _).mp h₁).1 ((hhas _ _).mp h₂).1

end SmManager

/-! Runs of calls that return. -/

inductive DdlCall where
  | createTable (tab : String) (colDefs : List ColDef) (mvcc : Bool) (fd fd' : ℤ)
  | dropTable (tab : String)
  | createIndex (tab : String) (colNames : List String) (unique : Bool) (fd fd' : ℤ) (filled : Option SmError)
  | dropIndex (tab : String) (colNames : List String)

def DdlCall.exec : DdlCall → SmM Unit
  | .createTable tab colDefs mvcc fd fd' => Catalog.createTable tab colDefs mvcc fd fd'
  | .dropTable tab => Catalog.dropTable tab
  | .createIndex tab colNames unique fd fd' filled => Catalog.createIndex tab colNames unique fd fd' filled
  | .dropIndex tab colNames => Catalog.dropIndex tab colNames

/-- A call that throws does not count. -/
def DdlCall.step (call : DdlCall) (s : SmManager) : Option SmManager :=
  match runFrom call.exec s with
  | (.ok _, s') => some s'
  | (.error _, _) => none

theorem DdlCall.step_eq_some {call : DdlCall} : call.step s = some s' ↔ runFrom call.exec s = (.ok (), s') := by
  unfold DdlCall.step
  split
  · next u t h =>
    rw [h]
    constructor
    · intro heq
      rw [Option.some.inj heq]
    · intro heq
      rw [(Prod.mk.inj heq).2]
  · next e t h =>
    rw [h]
    exact iff_of_false nofun nofun

/-- A database without tables. -/
def SmManager.start (name : String) (nextTimestamp : Int64) (disk : DiskManager) : SmManager :=
  ⟨⟨name, ∅, nextTimestamp⟩, fun _ => none, fun _ => none, disk⟩

namespace SmManager

theorem inv_start (name : String) (nextTimestamp : Int64) (disk : DiskManager) : (start name nextTimestamp disk).Inv := by
  have hnone : ∀ tab, (start name nextTimestamp disk).db.tabs[tab]? = none := fun tab => Std.ExtTreeMap.getElem?_empty
  have hhas : ∀ tab colNames, ¬(start name nextTimestamp disk).HasIndex tab colNames := by
    intro tab colNames ⟨tabMeta, htab, _⟩
    rw [hnone] at htab
    cases htab
  refine ⟨?_, ?_, ?_, ?_⟩
  · intro tab tabMeta htab
    rw [hnone] at htab
    cases htab
  · intro name
    exact iff_of_false (fun h => h rfl) fun ⟨tab, colNames, h, _⟩ => hhas tab colNames h
  · intro tab
    rw [mem_iff, hnone]
    exact iff_of_false (fun h => h rfl) fun h => h rfl
  · exact fun tab colNames _ _ h => absurd h (hhas tab colNames)

theorem Inv.step {call : DdlCall} (hinv : s.Inv) (h : call.step s = some s') : s'.Inv := by
  have h := DdlCall.step_eq_some.mp h
  cases call with
  | createTable tab colDefs mvcc fd fd' => exact hinv.createTable h
  | dropTable tab => exact hinv.dropTable h
  | createIndex tab colNames unique fd fd' filled => exact hinv.createIndex h
  | dropIndex tab colNames => exact hinv.dropIndex h

theorem Inv.consistent (hinv : s.Inv) : s.Consistent where
  tables tab tabMeta htab := (hinv.tables tab tabMeta htab).toConsistent
  indexHandles := hinv.indexHandles
  fileHandles := hinv.fileHandles

/-- Whatever tables and indexes were created and dropped, the catalog and the handles agree. -/
theorem consistent_of_run (name : String) (nextTimestamp : Int64) (disk : DiskManager) (calls : List DdlCall)
    (h : Runs.run DdlCall.step calls (start name nextTimestamp disk) = some s) : s.Consistent :=
  (Runs.run_preserves (fun _ _ _ => Inv.step) (inv_start name nextTimestamp disk) h).consistent

def emptyDisk : DiskManager := ⟨fun _ => none, 0, fun _ => [], fun _ => none, fun _ => none, fun _ => none⟩

/-- Two indexes share a column, and one of them is dropped. -/
def sharedColumn : List DdlCall :=
  [.createTable "t" [⟨"a", .int, 4⟩, ⟨"b", .int, 4⟩] false 3 3,
    .createIndex "t" ["a"] true 4 4 none, .createIndex "t" ["a", "b"] true 5 5 none, .dropIndex "t" ["a", "b"]]

theorem consistent_sharedColumn :
    ∃ s, Runs.run DdlCall.step sharedColumn (start "db" 0 emptyDisk) = some s ∧ s.Consistent :=
  ⟨_, rfl, consistent_of_run "db" 0 emptyDisk sharedColumn rfl⟩

end SmManager

end Rmdb.Catalog
