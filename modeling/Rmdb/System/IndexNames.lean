import Rmdb.System.CatalogInvariant

/-! The names of index files: the names of the table and of the columns with underscores between them, which may
themselves stand in names. -/
namespace Rmdb.Catalog

open Program

/-- Words that are no identifiers, in any case. -/
def keywords : List String :=
  ["SHOW", "BEGIN", "COMMIT", "ABORT", "ROLLBACK", "TABLES", "CREATE", "TABLE", "DROP", "DESC", "INSERT", "INTO",
    "VALUES", "DELETE", "FROM", "WHERE", "UPDATE", "SET", "SELECT", "INT", "CHAR", "FLOAT", "INDEX", "AND", "JOIN",
    "SEMI", "EXIT", "HELP", "ORDER", "BY", "ASC", "ON", "ENABLE_NESTLOOP", "ENABLE_SORTMERGE", "COUNT", "MAX", "MIN",
    "SUM", "AVG", "GROUP", "HAVING", "LIMIT", "AS", "TRUE", "FALSE", "EXPLAIN"]

/-- `{alpha}(_|{alpha}|{digit})*` -/
def identifierChars : List Char → Bool
  | [] => false
  | c :: cs => c.isAlpha && cs.all fun d => d = '_' || d.isAlphanum

def IsIdentifier (name : String) : Prop :=
  identifierChars name.toList = true ∧ name.toList.map Char.toUpper ∉ keywords.map String.toList

instance (name : String) : Decidable (IsIdentifier name) := inferInstanceAs (Decidable (_ ∧ _))

/-- What stands between the underscores of the names, from the table to the last column. -/
def pieces (tab : String) (colNames : List String) : List (List Char) :=
  (tab :: colNames).flatMap fun name => name.toList.splitOn '_'

variable {tab tab' : String} {colNames colNames' : List String}

theorem toList_getIndexName (tab : String) (colNames : List String) : (getIndexName tab colNames).toList =
    tab.toList ++ colNames.flatMap (fun name => '_' :: name.toList) ++ ['.', 'i', 'd', 'x'] := by
  have hfold : ∀ (names : List String) (tab : String),
      (names.foldl (fun name col => name ++ "_" ++ col) tab).toList =
        tab.toList ++ names.flatMap fun name => '_' :: name.toList := by
    intro names
    induction names with
    | nil => simp
    | cons name names ih =>
      intro tab
      simp [ih]
  simp [getIndexName, hfold]

theorem splitOn_names (name : List Char) (colNames : List String) :
    (name ++ colNames.flatMap fun name => '_' :: name.toList).splitOn '_' =
      name.splitOn '_' ++ colNames.flatMap fun name => name.toList.splitOn '_' := by
  induction colNames generalizing name with
  | nil => simp
  | cons first colNames ih =>
    rw [List.flatMap_cons, List.cons_append, List.splitOn_append_cons_self, ih, List.flatMap_cons]

/-- Two names are the same just when their pieces are. -/
theorem getIndexName_eq_iff :
    getIndexName tab colNames = getIndexName tab' colNames' ↔ pieces tab colNames = pieces tab' colNames' := by
  have hsplit : ∀ tab colNames, pieces tab colNames =
      (tab.toList ++ colNames.flatMap fun name => '_' :: name.toList).splitOn '_' := fun tab colNames => by
    rw [splitOn_names, pieces, List.flatMap_cons]
  rw [← String.toList_inj, toList_getIndexName, toList_getIndexName, List.append_left_inj, hsplit, hsplit]
  constructor
  · intro h
    rw [h]
  · intro h
    have hback : ∀ chars : List Char, ['_'].intercalate (chars.splitOn '_') = chars := fun _ => List.intercalate_splitOn '_'
    rw [← hback (tab.toList ++ _), h, hback]

/-- Two indexes whose files have different names. What is done to the file of the first leaves the second one's name in
the directory, and in the list of open files, as it was. -/
structure KeepsApart (tab : String) (colNames : List String) (tab' : String) (colNames' : List String) : Prop where
  names : getIndexName tab colNames ≠ getIndexName tab' colNames'
  creates : ∀ s cols fd, cols.map ColMeta.name = colNames →
    (runFrom (ixCreateIndex tab cols fd) s).2.disk.dir (getIndexName tab' colNames') =
      s.disk.dir (getIndexName tab' colNames')
  opens : ∀ s fd, (runFrom (openHandle (getIndexName tab colNames) fd) s).2.disk.path2fd (getIndexName tab' colNames') =
    s.disk.path2fd (getIndexName tab' colNames')
  destroys : ∀ s cols, cols.map ColMeta.name = colNames →
    (runFrom (ixDestroyIndex tab cols) s).2.disk.dir (getIndexName tab' colNames') =
      s.disk.dir (getIndexName tab' colNames')

section
variable {disk : DiskManager} {path name : String}

theorem createFile_dir (h : path ≠ name) :
    (runFrom (DiskManager.createFile path) disk).2.dir name = disk.dir name := by
  cases hfile : disk.isFile path with
  | true => simp [DiskManager.createFile, runFrom_bind, hfile]
  | false => simp [DiskManager.createFile, runFrom_bind, hfile, Function.update_of_ne h.symm]

theorem openFile_dir (fd : ℤ) (h : path ≠ name) : (runFrom (DiskManager.openFile path fd) disk).2.dir name = disk.dir name ∧
    (runFrom (DiskManager.openFile path fd) disk).2.path2fd name = disk.path2fd name := by
  simp only [DiskManager.openFile, runFrom_bind, runFrom_get]
  cases disk.dir path with
  | none => simp
  | some inode =>
    cases hfree : disk.path2fd path with
    | none =>
      simp only [hfree, runFrom_bind, runFrom_get, runFrom_modify, runFrom_pure]
      exact ⟨trivial, Function.update_of_ne h.symm _ _⟩
    | some fd' => simp [hfree, runFrom_bind]

theorem closeFile_dir (fd : ℤ) : (runFrom (DiskManager.closeFile fd) disk).2.dir = disk.dir := by
  simp only [DiskManager.closeFile, runFrom_bind, runFrom_get]
  cases disk.fd2path fd with
  | none => rfl
  | some path => rfl

theorem destroyFile_dir (h : path ≠ name) :
    (runFrom (DiskManager.destroyFile path) disk).2.dir name = disk.dir name := by
  cases hfile : disk.isFile path with
  | false => simp [DiskManager.destroyFile, runFrom_bind, hfile]
  | true =>
    cases hfree : disk.path2fd path with
    | none => simp [DiskManager.destroyFile, runFrom_bind, hfile, hfree, Function.update_of_ne h.symm]
    | some fd => simp [DiskManager.destroyFile, runFrom_bind, hfile, hfree]

end

section
variable {s : SmManager} {cols : List ColMeta} {fd : ℤ} {name : String}

/-- A name in the directory that a program leaves alone. -/
def SameDir (name : String) (s s' : SmManager) : Prop := s'.disk.dir name = s.disk.dir name

theorem sameDir_refl (s : SmManager) : SameDir name s s := rfl

theorem sameDir_trans (s t u : SmManager) (h : SameDir name s t) (h' : SameDir name t u) : SameDir name s u := h'.trans h

theorem check_sameDir (p : Prop) [Decidable p] (e : SmError) : Moves (SameDir name) (check p e) := by
  unfold check
  split_ifs
  · exact .pure sameDir_refl _
  · exact .throw sameDir_refl _

theorem onDisk_sameDir {α : Type} {x : DiskManager.DiskM α}
    (h : ∀ disk, (runFrom x disk).2.dir name = disk.dir name) : Moves (SameDir name) (onDisk x) := by
  intro s
  rw [runFrom_onDisk]
  exact h s.disk

theorem ixCreateIndex_sameDir (h : getIndexName tab (cols.map (·.name)) ≠ name) :
    Moves (SameDir name) (ixCreateIndex tab cols fd) := by
  unfold ixCreateIndex createFile
  apply Moves.bind sameDir_trans
  · apply Moves.bind sameDir_trans (.get sameDir_refl)
    intro s
    apply Moves.bind sameDir_trans (check_sameDir _ _)
    intro _
    exact onDisk_sameDir fun disk => createFile_dir h
  · intro _
    apply Moves.bind sameDir_trans (onDisk_sameDir fun disk => (openFile_dir fd h).1)
    intro fd'
    apply Moves.bind sameDir_trans (check_sameDir _ _)
    intro _
    exact onDisk_sameDir fun disk => congrFun (closeFile_dir fd') name

theorem ixDestroyIndex_sameDir (h : getIndexName tab (cols.map (·.name)) ≠ name) :
    Moves (SameDir name) (ixDestroyIndex tab cols) := by
  unfold ixDestroyIndex
  apply Moves.bind sameDir_trans (.get sameDir_refl)
  intro s
  split_ifs
  · exact onDisk_sameDir fun disk => destroyFile_dir h
  · exact .pure sameDir_refl _

theorem openHandle_path2fd {path : String} (h : path ≠ name) :
    (runFrom (openHandle path fd) s).2.disk.path2fd name = s.disk.path2fd name := by
  have hopen : (runFrom (DiskManager.openFile path fd) s.disk).2.path2fd name = s.disk.path2fd name := (openFile_dir fd h).2
  unfold openHandle
  rw [runFrom_bind, runFrom_onDisk]
  cases (runFrom (DiskManager.openFile path fd) s.disk).1 with
  | error e => exact hopen
  | ok fd' =>
    unfold check
    by_cases hfd : 0 ≤ fd'
    · simpa [Except.mapError, runFrom_bind, hfd] using hopen
    · simpa [Except.mapError, runFrom_bind, hfd] using hopen

end

/-- Two indexes keep apart just when the pieces of their names differ. -/
theorem keepsApart_iff (tab : String) (colNames : List String) (tab' : String) (colNames' : List String) :
    KeepsApart tab colNames tab' colNames' ↔ pieces tab colNames ≠ pieces tab' colNames' := by
  constructor
  · intro h heq
    exact h.names (getIndexName_eq_iff.mpr heq)
  · intro h
    have hnames : getIndexName tab colNames ≠ getIndexName tab' colNames' := fun heq => h (getIndexName_eq_iff.mp heq)
    exact ⟨hnames, fun s cols fd hcols => ixCreateIndex_sameDir (hcols ▸ hnames) s,
      fun s fd => openHandle_path2fd hnames, fun s cols hcols => ixDestroyIndex_sameDir (hcols ▸ hnames) s⟩

/-- An index whose file has the name of another one's is refused, although its own table has no such index. -/
theorem createIndex_collides {s : SmManager} {tabMeta : TabMeta} {cols : List ColMeta} (unique : Bool) (fd fd' : ℤ)
    (filled : Option SmError) (htab : s.db.tabs[tab]? = some tabMeta) (hindex : tabMeta.isIndex colNames = false)
    (hcols : ∀ name ∈ colNames, tabMeta.isCol name) (hget : colNames.mapM tabMeta.getCol = .ok cols)
    (hhandle : s.ihs (getIndexName tab colNames) ≠ none) :
    runFrom (createIndex tab colNames unique fd fd' filled) s = (.error (.indexExists tab colNames), s) := by
  have htable : runFrom (getTable tab) s = (.ok tabMeta, s) := by simp [getTable, runFrom_bind, htab]
  have hchecks : runFrom (colNames.forM fun name => check (tabMeta.isCol name) (.columnNotFound name)) s = (.ok (), s) := by
    clear hget hhandle hindex
    induction colNames with
    | nil => rfl
    | cons name colNames ih =>
      obtain ⟨hname, hnames⟩ := List.forall_mem_cons.mp hcols
      rw [runFrom_forM_cons]
      simp only [check, hname, if_true, runFrom_pure]
      exact ih hnames
  have hfree : runFrom (check (s.ihs (getIndexName tab colNames) = none) (.indexExists tab colNames)) s =
      (.error (.indexExists tab colNames), s) := by
    rw [check, if_neg hhandle, runFrom_throw]
  have hnew : runFrom (check (¬tabMeta.isIndex colNames) (.indexExists tab colNames)) s = (.ok (), s) := by
    simp [check, hindex]
  simp only [createIndex, registerIndex, runFrom_bind, htable, hnew, hchecks, runFrom_ofExcept, hget, runFrom_get, hfree]

/-- A table whose name looks like that of another one with a column. -/
def collidingNames : List DdlCall :=
  [.createTable "t_a" [⟨"b", .int, 4⟩] false 3 3, .createTable "t" [⟨"a", .int, 4⟩, ⟨"b", .int, 4⟩] false 4 4,
    .createIndex "t_a" ["b"] true 5 5 none]

/-- The index of one table stands in the way of an index of the other, which has none. -/
theorem not_keepsApart_collidingNames :
    (¬∀ (tab : String) (colNames : List String) (tab' : String) (colNames' : List String),
      (∀ name ∈ (tab :: colNames) ++ (tab' :: colNames'), IsIdentifier name) → (tab, colNames) ≠ (tab', colNames') →
      KeepsApart tab colNames tab' colNames') ∧
    ∃ s, Runs.run DdlCall.step collidingNames (SmManager.start "db" 0 SmManager.emptyDisk) = some s ∧
      (s.db.tabs["t"]?).map TabMeta.indexes = some [] ∧
      (runFrom (createIndex "t" ["a", "b"] true 6 6 none) s).1 = .error (.indexExists "t" ["a", "b"]) := by
  constructor
  · intro h
    have hnames := (h "t_a" ["b"] "t" ["a", "b"] (by decide) (by decide)).names
    exact hnames (by decide)
  · obtain ⟨s, tabMeta, cols, hrun, htab, hindexes, hcols, hget, hhandle⟩ : ∃ s tabMeta cols,
        Runs.run DdlCall.step collidingNames (SmManager.start "db" 0 SmManager.emptyDisk) = some s ∧
        s.db.tabs["t"]? = some tabMeta ∧ tabMeta.indexes = [] ∧ (∀ name ∈ ["a", "b"], tabMeta.isCol name) ∧
        ["a", "b"].mapM tabMeta.getCol = .ok cols ∧ s.ihs "t_a_b.idx" = some 5 :=
      ⟨_, _, _, rfl, rfl, rfl, by decide, rfl, rfl⟩
    have hname : getIndexName "t" ["a", "b"] = "t_a_b.idx" := by decide
    refine ⟨s, hrun, by rw [htab, Option.map_some, hindexes], ?_⟩
    rw [createIndex_collides true 6 6 none htab (by simp [TabMeta.isIndex, hindexes]) hcols hget
      (by rw [hname, hhandle]; exact nofun)]

end Rmdb.Catalog
