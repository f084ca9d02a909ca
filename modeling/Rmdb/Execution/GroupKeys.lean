import Mathlib.Data.List.DropRight
import Rmdb.Execution.Aggregation
import Rmdb.Lib.Binary32
import Rmdb.Lib.Grouping
import Rmdb.Lib.Sorting
import Rmdb.Index.Compare

/-! The groups of the aggregation. A group is known by the text of its grouping values, and its values are read
back from the text. -/
namespace Rmdb

open Program Binary32

/-- A string without the NULs that fill it up. -/
def unfilled (s : Bytes) : Bytes := s.rdropWhile (· = 0)

/-- The same value: floats are the same number, whatever the sign of a zero, and all NaNs are the same; strings are the
same bytes, whatever the NULs that fill them up. -/
def Value.Agrees : Value → Value → Prop
  | .int i, .int j => i = j
  | .float f, .float g => count (.ofBits ⟨f⟩) = count (.ofBits ⟨g⟩)
  | .str s, .str t => unfilled s = unfilled t
  | _, _ => False

theorem Value.Agrees.refl (v : Value) : v.Agrees v := by
  cases v <;> rfl

theorem Value.Agrees.symm {v w : Value} (h : v.Agrees w) : w.Agrees v := by
  cases v <;> cases w <;> first | exact h.elim | exact Eq.symm h

theorem Value.Agrees.trans {u v w : Value} (h : u.Agrees v) (h' : v.Agrees w) : u.Agrees w := by
  cases u <;> cases v <;> first | exact h.elim | (cases w <;> first | exact h'.elim | exact Eq.trans h h')

/-! ### Strings and their text -/

theorem exists_eq_unfilled (s : Bytes) : ∃ k, s = unfilled s ++ List.replicate k 0 := by
  refine ⟨(s.rtakeWhile (· = 0)).length, ?_⟩
  have hzeros : List.replicate (s.rtakeWhile (· = 0)).length 0 = s.rtakeWhile (· = 0) := by
    refine (List.eq_replicate_length.mpr fun b hb => ?_).symm
    exact of_decide_eq_true (List.mem_rtakeWhile_imp (p := fun b : UInt8 => b = 0) hb)
  rw [hzeros]
  exact (List.rdropWhile_append_rtakeWhile ..).symm

theorem unfilled_of_not_mem {s : Bytes} (h : 0 ∉ s) : unfilled s = s :=
  List.rdropWhile_eq_self_iff.mpr fun hne hlast => h (of_decide_eq_true hlast ▸ List.getLast_mem hne)

theorem mem_unfilled {s : Bytes} {b : UInt8} (hb : b ≠ 0) : b ∈ unfilled s ↔ b ∈ s := by
  obtain ⟨k, hk⟩ := exists_eq_unfilled s
  refine ⟨fun h => (List.rdropWhile_prefix _ _).subset h, fun h => ?_⟩
  rw [hk] at h
  exact (List.mem_append.mp h).resolve_right fun hzero => hb (List.eq_of_mem_replicate hzero)

theorem zero_not_mem_trimString (s : Bytes) : 0 ∉ trimString s := by
  intro h
  have hne := List.of_mem_filter h
  simp at hne

/-- The text of a string is all of it if there is no NUL inside and, unless NULs fill it up, no blank at its end. -/
theorem trimString_eq_iff (s : Bytes) :
    trimString s = unfilled s ↔ 0 ∉ unfilled s ∧ (unfilled s = s → s.getLast? ≠ some 32) := by
  constructor
  · intro h
    refine ⟨h ▸ zero_not_mem_trimString s, fun hfull hblank => ?_⟩
    have hprefix : s.rdropWhile (· = 32) <+: s := List.rdropWhile_prefix _ _
    have hshorter : trimString s = s → s.rdropWhile (· = 32) = s := fun hsame =>
      hprefix.eq_of_length_le ((congrArg List.length hsame).symm.trans_le (List.length_filter_le _ _))
    obtain ⟨front, hfront⟩ := List.getLast?_eq_some_iff.mp hblank
    have hlast := List.rdropWhile_eq_self_iff.mp (hshorter (h.trans hfull)) (by simp [hfront])
    simp [hfront] at hlast
  · intro ⟨hzero, hblank⟩
    obtain ⟨k, hk⟩ := exists_eq_unfilled s
    have hkeep : s.rdropWhile (· = 32) = s := by
      refine List.rdropWhile_eq_self_iff.mpr fun hne hlast => ?_
      have hlast : s.getLast? = some 32 := (List.getLast?_eq_some_getLast hne).trans (congrArg some (of_decide_eq_true hlast))
      cases k with
      | zero => exact hblank (by simpa using hk.symm) hlast
      | succ k =>
        rw [hk, List.replicate_succ', ← List.append_assoc, List.getLast?_concat] at hlast
        cases hlast
    have hfilter : (s.rdropWhile (· = 32)).filter (· ≠ 0) = unfilled s := by
      rw [hkeep]
      nth_rewrite 1 [hk]
      have hkept : (unfilled s).filter (· ≠ 0) = unfilled s :=
        List.filter_eq_self.mpr fun b hb => decide_eq_true fun hb0 : b = 0 => hzero (hb0 ▸ hb)
      have hdropped : (List.replicate k (0 : UInt8)).filter (· ≠ 0) = [] :=
        List.filter_eq_nil_iff.mpr fun b hb => by simp [List.eq_of_mem_replicate hb]
      rw [List.filter_append, hkept, hdropped, List.append_nil]
    exact hfilter

/-! ### The text of a key -/

/-- What an output stream does with a float: the text has no bar, shows the sign, and tells nothing more than the
number. -/
structure Stl.PrintsFloats (stl : Stl) : Prop where
  noBar : ∀ f, 124 ∉ stl.showFloat f
  sign : ∀ f g, stl.showFloat f = stl.showFloat g → f.msb = g.msb
  number : ∀ f g, count (.ofBits ⟨f⟩) = count (.ofBits ⟨g⟩) → f.msb = g.msb → stl.showFloat f = stl.showFloat g

theorem byte_char {c : Char} (h : c.toNat < 128) : Char.ofNat (UInt8.ofNat c.toNat).toNat = c := by
  have hbyte : (UInt8.ofNat c.toNat).toNat = c.toNat := by
    rw [UInt8.toNat_ofNat']
    exact Nat.mod_eq_of_lt (by omega)
  rw [hbyte]
  exact Char.ofNat_toNat c

theorem mem_showInt {v : ℤ} {c : Char} (hc : c ∈ TextStream.showInt v) : c = '-' ∨ c.isDigit = true := by
  rw [TextStream.showInt_eq] at hc
  split_ifs at hc
  · exact .inr (TextStream.isDigit_showNat hc)
  · exact (List.mem_cons.mp hc).imp id TextStream.isDigit_showNat

theorem toNat_of_mem_showInt {v : ℤ} {c : Char} (hc : c ∈ TextStream.showInt v) : c.toNat < 58 := by
  cases mem_showInt hc with
  | inl hminus =>
    subst hminus
    decide
  | inr hdigit =>
    have hrange := Char.isDigit_iff_toNat.mp hdigit
    have hnine : '9'.toNat = 57 := rfl
    omega

/-- A number is read back as it was written. -/
theorem stoi_showWord (w : BitVec 32) : stoi (showWord w) = some w := by
  have htext : (showWord w).map (fun b => Char.ofNat b.toNat) = TextStream.showInt w.toInt := by
    rw [showWord, List.map_map]
    refine (List.map_congr_left fun c hc => ?_).trans (List.map_id _)
    exact byte_char ((toNat_of_mem_showInt hc).trans (by decide))
  obtain ⟨rest, hread, -⟩ := TextStream.Reads.int 32 (v := w.toInt) (by have := w.le_toInt; omega)
    (by have := w.toInt_lt; omega) _ [] (by simpa using TextStream.Text.single TextStream.word_showInt)
  rw [stoi, htext]
  change Option.map _ (TextStream.readInt 32 (TextStream.showInt w.toInt)) = _
  rw [hread]
  exact congrArg some (BitVec.ofInt_toInt ..)

theorem bar_not_mem_showWord (w : BitVec 32) : 124 ∉ showWord w := by
  intro hbar
  obtain ⟨c, hc, hbyte⟩ := List.mem_map.mp hbar
  have hlt := toNat_of_mem_showInt hc
  have hnat : (UInt8.ofNat c.toNat).toNat = 124 := congrArg UInt8.toNat hbyte
  rw [UInt8.toNat_ofNat'] at hnat
  omega

namespace AggregationExecutor

variable {stl : Stl} {clause : AggClause} {prevCols groupCols aggCols : List TableCol} {records : List Tuple}
  {t : Tuple}

/-- What a tuple holds in a column: of a string all bytes. -/
def storedValue (t : Tuple) (col : TabCol) : Except DbError Value :=
  match getCell t col with
  | none => throw (.rmdb .columnNotFound)
  | some cell => match cell.1.type with
    | .int => return .int (readWord cell.2)
    | .float => return .float (readWord cell.2)
    | .string => return .str cell.2

/-- What is read of a stored value. -/
def readOf : Value → Value
  | .str s => .str (trimString s)
  | v => v

theorem getColumnValue_eq {col : TabCol} (hname : col.colName ≠ "") {v : Value} (h : storedValue t col = .ok v) :
    getColumnValue t col = .ok (readOf v) := by
  unfold storedValue at h
  unfold getColumnValue
  rw [if_neg hname]
  cases hcell : getCell t col with
  | none =>
    rw [hcell] at h
    cases h
  | some cell =>
    rw [hcell] at h
    dsimp only at h ⊢
    cases htype : cell.1.type with
    | int | float | string =>
      rw [htype] at h
      cases h
      rfl

/-- The text of a stored grouping value. -/
def keyText (stl : Stl) : Value → Bytes
  | .int i => showWord i
  | .float f => stl.showFloat f
  | .str s => trimString s

theorem keyPart_readOf (v : Value) : keyPart stl (readOf v) = keyText stl v ++ [124] := by
  cases v <;> rfl

/-- The key of a row with these values. -/
def rowKey (stl : Stl) (vs : List Value) : Bytes := vs.flatMap fun v => keyText stl v ++ [124]

def parseToken (stl : Stl) (type : ColType) (token : Bytes) : Except DbError Value :=
  match type with
  | .int => match stoi token with
    | some i => return .int i
    | none => throw .crash
  | .float => match stl.stof token with
    | some f => return .float f
    | none => throw .crash
  | .string => return .str token

/-- The piece in front of the first bar is the first one. -/
theorem splitKey_append {token : Bytes} (h : 124 ∉ token) (rest : Bytes) :
    splitKey (token ++ 124 :: rest) = token :: splitKey rest := by
  have hparts : (token ++ 124 :: rest).splitOn 124 = token :: rest.splitOn 124 :=
    List.splitOn_append_cons_self_of_not_mem h rest
  have hlast : (token :: rest.splitOn 124).getLast? = (rest.splitOn 124).getLast? := by
    rw [List.getLast?_cons, List.getLast?_eq_some_getLast (List.splitOn_ne_nil 124 rest), Option.getD_some]
  unfold splitKey
  rw [hparts]
  dsimp only
  rw [hlast]
  split_ifs
  · rw [List.dropLast_cons_of_ne_nil (List.splitOn_ne_nil 124 rest)]
  · rfl

theorem parseKey_cons (col : TableCol) (cols : List TableCol) {token : Bytes} (h : 124 ∉ token) (rest : Bytes) :
    parseKey stl (col :: cols) (token ++ 124 :: rest) = do
      let v ← parseToken stl col.type token
      let vs ← parseKey stl cols rest
      return v :: vs := by
  unfold parseKey
  rw [splitKey_append h, List.zip_cons_cons, List.mapM_cons]
  rfl

/-- There is a piece for each bar. -/
theorem count_le_length_splitKey (key : Bytes) : key.count 124 ≤ (splitKey key).length := by
  by_cases hbar : 124 ∈ key
  · obtain ⟨token, rest, hkey, htoken⟩ := List.eq_append_cons_of_mem hbar
    have hshorter : rest.length < key.length := by
      rw [hkey, List.length_append, List.length_cons]
      omega
    have hrest := count_le_length_splitKey rest
    rw [hkey, splitKey_append htoken, List.count_append, List.count_eq_zero.mpr htoken, List.count_cons_self,
      List.length_cons]
    omega
  · rw [List.count_eq_zero.mpr hbar]
    exact Nat.zero_le _
termination_by key.length

theorem rowKey_cons (v : Value) (vs : List Value) : rowKey stl (v :: vs) = keyText stl v ++ 124 :: rowKey stl vs := by
  unfold rowKey
  rw [List.flatMap_cons, List.append_assoc, List.singleton_append]

theorem length_le_count_bars (stl : Stl) (vs : List Value) : vs.length ≤ (rowKey stl vs).count 124 := by
  induction vs with
  | nil => exact Nat.zero_le _
  | cons v vs ih =>
    rw [rowKey_cons, List.count_append, List.count_cons_self, List.length_cons]
    omega

/-- The key of a row has a piece for each column. -/
theorem length_parseKey {cols : List TableCol} {vs ws : List Value} (hlength : cols.length = vs.length)
    (h : parseKey stl cols (rowKey stl vs) = .ok ws) : ws.length = cols.length := by
  have hpieces := (length_le_count_bars stl vs).trans (count_le_length_splitKey _)
  have hws := (mapM_eq_ok_iff.mp h).length_eq
  rw [List.length_zip] at hws
  omega

/-- The value is read back from its text: a float is the number that its digits tell, and a string has no bar, no NUL
inside, and no blank at its end unless NULs fill it up. -/
def Survives (stl : Stl) : Value → Prop
  | .int _ => True
  | .float f => ∃ g, stl.stof (stl.showFloat f) = some g ∧ (Value.float g).Agrees (.float f)
  | .str s => 124 ∉ s ∧ 0 ∉ unfilled s ∧ (unfilled s = s → s.getLast? ≠ some 32)

theorem bar_not_mem_keyText (hstl : stl.PrintsFloats) {v : Value} (h : Survives stl v) : 124 ∉ keyText stl v := by
  cases v with
  | int i => exact bar_not_mem_showWord i
  | float f => exact hstl.noBar f
  | str s => exact fun hbar => h.1 (List.mem_of_mem_filter hbar |> (List.rdropWhile_prefix _ _).subset)

/-- The token of a value is read as the value exactly if the value survives. -/
theorem parseToken_agrees_iff {v : Value} (hbar : 124 ∉ keyText stl v) :
    (∃ w, parseToken stl v.type (keyText stl v) = .ok w ∧ w.Agrees v) ↔ Survives stl v := by
  cases v with
  | int i =>
    refine iff_of_true ⟨.int i, ?_, rfl⟩ trivial
    change (match stoi (showWord i) with | some i => pure (Value.int i) | none => throw DbError.crash) = _
    rw [stoi_showWord]
    rfl
  | float f =>
    change (∃ w, (match stl.stof (stl.showFloat f) with
      | some f => pure (Value.float f) | none => throw DbError.crash) = Except.ok w ∧ w.Agrees (.float f)) ↔
      ∃ g, stl.stof (stl.showFloat f) = some g ∧ (Value.float g).Agrees (.float f)
    cases stl.stof (stl.showFloat f) with
    | none => exact iff_of_false (fun ⟨_, h, _⟩ => nomatch h) fun ⟨_, h, _⟩ => nomatch h
    | some g =>
      constructor
      · intro ⟨w, hw, hagrees⟩
        cases hw
        exact ⟨g, rfl, hagrees⟩
      · intro ⟨g', hg', hagrees⟩
        cases hg'
        exact ⟨.float g, rfl, hagrees⟩
  | str s =>
    have hread : (∃ w, parseToken stl .string (trimString s) = .ok w ∧ w.Agrees (.str s)) ↔
        trimString s = unfilled s := by
      constructor
      · intro ⟨w, hw, hagrees⟩
        cases hw
        rw [← unfilled_of_not_mem (zero_not_mem_trimString s)]
        exact hagrees
      · intro h
        refine ⟨.str (trimString s), rfl, ?_⟩
        exact (unfilled_of_not_mem (zero_not_mem_trimString s)).trans h
    refine hread.trans ((trimString_eq_iff s).trans (iff_and_self.mpr fun h => ?_))
    rw [← mem_unfilled (by decide), ← (trimString_eq_iff s).mpr h]
    exact hbar

/-- A key is read back exactly if all its values survive. -/
theorem parseKey_agrees_iff (hstl : stl.PrintsFloats) {cols : List TableCol} {vs : List Value}
    (htypes : cols.map (·.type) = vs.map Value.type) :
    (∃ ws, parseKey stl cols (rowKey stl vs) = .ok ws ∧ List.Forall₂ Value.Agrees ws vs) ↔
      ∀ v ∈ vs, Survives stl v := by
  induction vs generalizing cols with
  | nil =>
    rw [List.map_nil, List.map_eq_nil_iff] at htypes
    subst htypes
    exact iff_of_true ⟨[], rfl, .nil⟩ nofun
  | cons v vs ih =>
    cases cols with
    | nil => cases htypes
    | cons col cols =>
      obtain ⟨htype, hrest⟩ := List.cons.inj htypes
      have ih := ih hrest
      rw [List.forall_mem_cons, rowKey_cons]
      by_cases hbar : 124 ∈ keyText stl v
      · -- the first piece of the text is not all of it
        refine iff_of_false ?_ fun h => bar_not_mem_keyText hstl h.1 hbar
        intro ⟨ws, hparse, hagrees⟩
        cases v with
        | int i => exact bar_not_mem_showWord i hbar
        | float f => exact hstl.noBar f hbar
        | str s =>
          obtain ⟨a, b, htext, ha⟩ := List.eq_append_cons_of_mem hbar
          have hbar : 124 ∈ s := (List.rdropWhile_prefix _ _).subset (List.mem_of_mem_filter hbar)
          rw [htext, List.append_assoc, List.cons_append, parseKey_cons col cols ha] at hparse
          obtain ⟨w, hw, hparse⟩ := bind_eq_ok.mp hparse
          obtain ⟨ws', -, hend⟩ := bind_eq_ok.mp hparse
          cases hend
          have htype : col.type = .string := htype
          rw [htype] at hw
          cases hw
          have hfirst : unfilled a = unfilled s := (List.forall₂_cons.mp hagrees).1
          rw [← mem_unfilled (by decide), ← hfirst, mem_unfilled (by decide)] at hbar
          exact ha hbar
      · have htype : col.type = v.type := htype
        rw [parseKey_cons col cols hbar, htype, ← ih, ← parseToken_agrees_iff hbar]
        constructor
        · intro ⟨ws, hparse, hagrees⟩
          obtain ⟨w, hw, hparse⟩ := bind_eq_ok.mp hparse
          obtain ⟨ws', hws', hend⟩ := bind_eq_ok.mp hparse
          cases hend
          obtain ⟨hfirst, htail⟩ := List.forall₂_cons.mp hagrees
          exact ⟨⟨w, hw, hfirst⟩, ws', hws', htail⟩
        · intro ⟨⟨w, hw, hfirst⟩, ws, hws, htail⟩
          exact ⟨w :: ws, bind_eq_ok.mpr ⟨w, hw, bind_eq_ok.mpr ⟨ws, hws, rfl⟩⟩, .cons hfirst htail⟩

/-- Floats of the same sign, or no floats. -/
def SameSign : Value → Value → Prop
  | .float f, .float g => f.msb = g.msb
  | _, _ => True

theorem keyText_eq_iff (hstl : stl.PrintsFloats) {v w : Value} (htype : v.type = w.type) (hv : Survives stl v)
    (hw : Survives stl w) : keyText stl v = keyText stl w ↔ v.Agrees w ∧ SameSign v w := by
  constructor
  · intro htext
    obtain ⟨u, hu, hagrees⟩ := (parseToken_agrees_iff (bar_not_mem_keyText hstl hv)).mpr hv
    obtain ⟨u', hu', hagrees'⟩ := (parseToken_agrees_iff (bar_not_mem_keyText hstl hw)).mpr hw
    rw [htype, htext, hu'] at hu
    cases hu
    refine ⟨hagrees.symm.trans hagrees', ?_⟩
    cases v with
    | int i => trivial
    | str s => trivial
    | float f =>
      cases w with
      | int j => trivial
      | str s => trivial
      | float g => exact hstl.sign f g htext
  · intro ⟨hagrees, hsign⟩
    cases v <;> cases w <;> cases htype
    · exact congrArg showWord hagrees
    · exact hstl.number _ _ hagrees hsign
    · have hsame : unfilled _ = unfilled _ := hagrees
      exact ((trimString_eq_iff _).mpr hv.2).trans (hsame.trans ((trimString_eq_iff _).mpr hw.2).symm)

/-- Two keys that are read back have one text exactly if their values are the same, up to the sign. -/
theorem key_eq_iff (hstl : stl.PrintsFloats) {vs ws : List Value} (htypes : vs.map Value.type = ws.map Value.type)
    (hvs : ∀ v ∈ vs, Survives stl v) (hws : ∀ w ∈ ws, Survives stl w) :
    rowKey stl vs = rowKey stl ws ↔
      List.Forall₂ Value.Agrees vs ws ∧ List.Forall₂ SameSign vs ws := by
  induction vs generalizing ws with
  | nil =>
    rw [List.map_nil, eq_comm, List.map_eq_nil_iff] at htypes
    subst htypes
    exact iff_of_true rfl ⟨.nil, .nil⟩
  | cons v vs ih =>
    cases ws with
    | nil => cases htypes
    | cons w ws =>
      obtain ⟨htype, hrest⟩ := List.cons.inj htypes
      obtain ⟨hv, hvs⟩ := List.forall_mem_cons.mp hvs
      obtain ⟨hw, hws⟩ := List.forall_mem_cons.mp hws
      have hparts : rowKey stl (v :: vs) = rowKey stl (w :: ws) ↔
          keyText stl v = keyText stl w ∧ rowKey stl vs = rowKey stl ws := by
        rw [rowKey_cons, rowKey_cons]
        constructor
        · intro htext
          have htokens := congrArg splitKey htext
          rw [splitKey_append (bar_not_mem_keyText hstl hv), splitKey_append (bar_not_mem_keyText hstl hw)] at htokens
          have hfirst := (List.cons.inj htokens).1
          rw [hfirst] at htext
          exact ⟨hfirst, (List.cons.inj (List.append_cancel_left htext)).2⟩
        · intro ⟨hfirst, htail⟩
          rw [hfirst, htail]
      rw [hparts, keyText_eq_iff hstl htype hv hw, ih hrest hvs hws, List.forall₂_cons, List.forall₂_cons]
      exact and_and_and_comm

/-! ### The rows -/

/-- The constructor has returned, and the tuples of the child have its columns. -/
structure Fed (clause : AggClause) (prevCols groupCols aggCols : List TableCol) (records : List Tuple) : Prop where
  built : cols clause prevCols = .ok (groupCols, aggCols)
  shaped : ∀ t ∈ records, t.map Prod.fst = prevCols
  named : ∀ col ∈ clause.groupByCols, col.colName ≠ ""

/-- What a row holds in the grouping columns. -/
def groupValues (clause : AggClause) (t : Tuple) : Except DbError (List Value) :=
  clause.groupByCols.mapM (storedValue t)

theorem storedValue_ok (hshape : t.map Prod.fst = prevCols) {target : TabCol} {col : TableCol}
    (hcol : getCol prevCols target = .ok col) : ∃ v, storedValue t target = .ok v ∧ v.type = col.type := by
  have hfind : prevCols.find? (fun col => col.tabName = target.tabName ∧ col.name = target.colName) = some col := by
    unfold getCol at hcol
    split at hcol
    · next found hfound =>
      cases hcol
      exact hfound
    · cases hcol
  rw [← hshape, List.find?_map, Option.map_eq_some_iff] at hfind
  obtain ⟨cell, hcell, rfl⟩ := hfind
  have hget : getCell t target = some cell := hcell
  unfold storedValue
  rw [hget]
  dsimp only
  cases htype : cell.1.type with
  | int => exact ⟨.int (readWord cell.2), rfl, rfl⟩
  | float => exact ⟨.float (readWord cell.2), rfl, rfl⟩
  | string => exact ⟨.str cell.2, rfl, rfl⟩

theorem type_readOf (v : Value) : (readOf v).type = v.type := by
  cases v <;> rfl

theorem getColumnValue_ok (hshape : t.map Prod.fst = prevCols) {target : TabCol} {col : TableCol}
    (hcol : getCol prevCols target = .ok col) (hname : target.colName ≠ "") :
    ∃ v, getColumnValue t target = .ok v ∧ v.type = col.type := by
  obtain ⟨v, hv, htype⟩ := storedValue_ok hshape hcol
  exact ⟨readOf v, getColumnValue_eq hname hv, (type_readOf v).trans htype⟩

theorem type_layOut (offset : ℕ) (cols : List TableCol) : (layOut offset cols).map (·.type) = cols.map (·.type) := by
  induction cols generalizing offset with
  | nil => rfl
  | cons col cols ih =>
    rw [layOut, List.map_cons, List.map_cons, ih]

theorem groupCols_found {targets : List TabCol} {named : List TableCol}
    (h : targets.mapM (groupCol prevCols) = .ok named) :
    ∃ found, targets.mapM (getCol prevCols) = .ok found ∧ named.map (·.type) = found.map (·.type) := by
  induction targets generalizing named with
  | nil =>
    cases h
    exact ⟨[], rfl, rfl⟩
  | cons target targets ih =>
    rw [List.mapM_cons] at h
    obtain ⟨first, hfirst, h⟩ := bind_eq_ok.mp h
    obtain ⟨rest, hrest, h⟩ := bind_eq_ok.mp h
    cases h
    obtain ⟨col, hcol, h⟩ := bind_eq_ok.mp hfirst
    cases h
    obtain ⟨cols, hcols, htypes⟩ := ih hrest
    refine ⟨col :: cols, ?_, ?_⟩
    · rw [List.mapM_cons]
      exact bind_eq_ok.mpr ⟨col, hcol, bind_eq_ok.mpr ⟨cols, hcols, rfl⟩⟩
    · rw [List.map_cons, List.map_cons, htypes]

theorem groupCols_ok (h : cols clause prevCols = .ok (groupCols, aggCols)) :
    ∃ found, clause.groupByCols.mapM (getCol prevCols) = .ok found ∧
      groupCols.map (·.type) = found.map (·.type) := by
  obtain ⟨named, hnamed, h⟩ := bind_eq_ok.mp h
  obtain ⟨aggs, -, h⟩ := bind_eq_ok.mp h
  cases h
  obtain ⟨found, hfound, htypes⟩ := groupCols_found hnamed
  refine ⟨found, hfound, ?_⟩
  rw [List.map_take, type_layOut, List.map_append, List.take_left' (List.length_map _), htypes]

/-- A row has grouping values of the types of the columns. -/
theorem Fed.groupValues (h : Fed clause prevCols groupCols aggCols records) (ht : t ∈ records) :
    ∃ vs, groupValues clause t = .ok vs ∧ groupCols.map (·.type) = vs.map Value.type := by
  obtain ⟨found, hfound, htypes⟩ := groupCols_ok h.built
  have hshape := h.shaped t ht
  rw [htypes, AggregationExecutor.groupValues]
  clear h htypes
  generalize clause.groupByCols = targets at hfound
  induction targets generalizing found with
  | nil =>
    cases hfound
    exact ⟨[], rfl, rfl⟩
  | cons target targets ih =>
    rw [List.mapM_cons] at hfound
    obtain ⟨col, hcol, hfound⟩ := bind_eq_ok.mp hfound
    obtain ⟨cols, hcols, hfound⟩ := bind_eq_ok.mp hfound
    cases hfound
    obtain ⟨v, hv, htype⟩ := storedValue_ok hshape hcol
    obtain ⟨vs, hvs, hrest⟩ := ih cols hcols
    refine ⟨v :: vs, ?_, ?_⟩
    · rw [List.mapM_cons]
      exact bind_eq_ok.mpr ⟨v, hv, bind_eq_ok.mpr ⟨vs, hvs, rfl⟩⟩
    · rw [List.map_cons, List.map_cons, htype, hrest]

theorem getGroupKey_eq (hgroup : clause.groupByCols ≠ []) (hnamed : ∀ col ∈ clause.groupByCols, col.colName ≠ "")
    {vs : List Value} (h : groupValues clause t = .ok vs) : getGroupKey stl clause t = .ok (rowKey stl vs) := by
  have hparts : clause.groupByCols.mapM (fun col => do return keyPart stl (← getColumnValue t col)) =
      .ok (vs.map fun v => keyText stl v ++ [124]) := by
    rw [mapM_eq_ok_iff, List.forall₂_map_right_iff]
    refine ((List.forall₂_and_left _ _).mpr ⟨hnamed, mapM_eq_ok_iff.mp h⟩).imp fun col v hv => ?_
    rw [← keyPart_readOf]
    exact bind_eq_ok.mpr ⟨readOf v, getColumnValue_eq hv.1 hv.2, rfl⟩
  unfold getGroupKey
  rw [if_neg hgroup]
  exact bind_eq_ok.mpr ⟨_, hparts, rfl⟩

/-! ### The groups -/

/-- The column of an aggregate function is there to be read. -/
def Readable (prevCols : List TableCol) (f : AggFunc) : Prop :=
  f.isCountStar ∨ f.col.colName = "" ∨ ∃ col, getCol prevCols f.col = .ok col

theorem readable_of_read (hshape : t.map Prod.fst = prevCols) {f : AggFunc} {v : Value}
    (h : getColumnValue t f.col = .ok v) : Readable prevCols f := by
  by_cases hname : f.col.colName = ""
  · exact .inr (.inl hname)
  · unfold getColumnValue at h
    rw [if_neg hname] at h
    cases hcell : getCell t f.col with
    | none =>
      rw [hcell] at h
      cases h
    | some cell =>
      have hfind : prevCols.find? (fun col => col.tabName = f.col.tabName ∧ col.name = f.col.colName) = some cell.1 := by
        rw [← hshape, List.find?_map]
        exact congrArg (Option.map Prod.fst) hcell
      refine .inr (.inr ⟨cell.1, ?_⟩)
      unfold getCol
      rw [hfind]
      rfl

theorem exists_read (hshape : t.map Prod.fst = prevCols) {f : AggFunc} (h : Readable prevCols f)
    (hstar : f.isCountStar = false) : ∃ v, getColumnValue t f.col = .ok v := by
  by_cases hname : f.col.colName = ""
  · exact ⟨.int 0, if_pos hname⟩
  · obtain ⟨col, hcol⟩ := (h.resolve_left (by simp [hstar])).resolve_left hname
    obtain ⟨v, hv, -⟩ := getColumnValue_ok hshape hcol hname
    exact ⟨v, hv⟩

/-- The constructor has looked for the columns of `MAX`, `MIN` and `SUM`. -/
theorem exists_initValue (h : cols clause prevCols = .ok (groupCols, aggCols)) {f : AggFunc}
    (hf : f ∈ clause.aggFuncs) : ∃ v, f.initValue prevCols = .ok v := by
  obtain ⟨named, -, h⟩ := bind_eq_ok.mp h
  obtain ⟨aggs, haggs, -⟩ := bind_eq_ok.mp h
  obtain ⟨i, hi, heq⟩ := List.getElem_of_mem hf
  have hmem : (f, i) ∈ clause.aggFuncs.zipIdx := by
    rw [List.mem_zipIdx_iff_getElem?]
    rw [← heq]
    exact List.getElem?_eq_getElem hi
  obtain ⟨aggCol, -, haggCol⟩ := exists_of_mem_mapM haggs hmem
  dsimp only at haggCol
  unfold AggregationExecutor.aggCol at haggCol
  unfold AggFunc.initValue
  cases hkind : f.funcType with
  | count => exact ⟨_, rfl⟩
  | avg => exact ⟨_, rfl⟩
  | max | min | sum =>
    dsimp only
    split_ifs with hnone
    · exact ⟨_, rfl⟩
    · simp only [hkind, if_neg hnone] at haggCol
      obtain ⟨col, hfound, -⟩ := bind_eq_ok.mp haggCol
      have hinit : ∃ v, (match col.type with
          | .int => pure (Value.int 0)
          | .float => pure (Value.float 0)
          | .string => pure (Value.str []) : Except DbError Value) = .ok v := by
        cases col.type <;> exact ⟨_, rfl⟩
      obtain ⟨v, hv⟩ := hinit
      exact ⟨v, bind_eq_ok.mpr ⟨col, hfound, hv⟩⟩

def initCell (prevCols : List TableCol) (f : AggFunc) : Except DbError (Value × Float) := do
  return (← f.initValue prevCols, 0)

def updateCell (t : Tuple) (count : BitVec 32) (entry : AggFunc × Value × Float) : Except DbError (Value × Float) := do
  if entry.1.isCountStar then return entry.2
  else return entry.1.update count (← getColumnValue t entry.1.col) entry.2

theorem updateAggState_eq (state : AggState) (t : Tuple) : updateAggState clause prevCols state t = do
    let inits ← (clause.aggFuncs.drop state.aggValues.length).mapM (initCell prevCols)
    let cells ← (clause.aggFuncs.zip (state.aggValues ++ inits)).mapM (updateCell t (state.count + 1))
    return ⟨state.count + 1, cells⟩ := rfl

/-- A row is taken into a state when its columns can be read. -/
theorem exists_updateAggState (h : cols clause prevCols = .ok (groupCols, aggCols)) (hshape : t.map Prod.fst = prevCols)
    (hread : ∀ f ∈ clause.aggFuncs, Readable prevCols f) (state : AggState) :
    ∃ state', updateAggState clause prevCols state t = .ok state' := by
  have hinits : ∃ inits, (clause.aggFuncs.drop state.aggValues.length).mapM (initCell prevCols) = .ok inits := by
    refine exists_mapM fun f hf => ?_
    obtain ⟨v, hv⟩ := exists_initValue h (List.mem_of_mem_drop hf)
    exact ⟨_, bind_eq_ok.mpr ⟨v, hv, rfl⟩⟩
  obtain ⟨inits, hinits⟩ := hinits
  have hcells : ∃ cells, (clause.aggFuncs.zip (state.aggValues ++ inits)).mapM (updateCell t (state.count + 1)) =
      .ok cells := by
    refine exists_mapM fun entry hentry => ?_
    unfold updateCell
    cases hstar : entry.1.isCountStar with
    | true => exact ⟨entry.2, rfl⟩
    | false =>
      obtain ⟨v, hv⟩ := exists_read hshape (hread entry.1 (List.of_mem_zip hentry).1) hstar
      exact ⟨_, bind_eq_ok.mpr ⟨v, hv, rfl⟩⟩
  obtain ⟨cells, hcells⟩ := hcells
  exact ⟨_, bind_eq_ok.mpr ⟨inits, hinits, bind_eq_ok.mpr ⟨cells, hcells, rfl⟩⟩⟩

theorem readable_of_updateAggState (hshape : t.map Prod.fst = prevCols) {state state' : AggState}
    (h : updateAggState clause prevCols state t = .ok state') : ∀ f ∈ clause.aggFuncs, Readable prevCols f := by
  rw [updateAggState_eq] at h
  obtain ⟨inits, hinits, h⟩ := bind_eq_ok.mp h
  obtain ⟨cells, hcells, -⟩ := bind_eq_ok.mp h
  intro f hf
  have hlength : clause.aggFuncs.length ≤ (state.aggValues ++ inits).length := by
    have hnew := (mapM_eq_ok_iff.mp hinits).length_eq
    rw [List.length_drop] at hnew
    rw [List.length_append]
    omega
  rw [← List.map_fst_zip hlength] at hf
  obtain ⟨entry, hentry, rfl⟩ := List.mem_map.mp hf
  obtain ⟨cell, -, hcell⟩ := exists_of_mem_mapM hcells hentry
  cases hstar : entry.1.isCountStar with
  | true => exact .inl hstar
  | false =>
    unfold updateCell at hcell
    rw [hstar] at hcell
    obtain ⟨v, hv, -⟩ := bind_eq_ok.mp hcell
    exact readable_of_read hshape hv

theorem updateGroup_eq (groups : List (Bytes × AggState)) (key : Bytes) (t : Tuple) :
    updateGroup clause prevCols groups key t =
      Grouping.upsert (updateAggState clause prevCols) ⟨0, []⟩ groups key t := by
  induction groups with
  | nil => rfl
  | cons group groups ih =>
    rw [updateGroup, Grouping.upsert, ih]

theorem groupStates_eq : groupStates stl clause prevCols records =
    (Grouping.gather (updateAggState clause prevCols) ⟨0, []⟩ (getGroupKey stl clause) records >>= fun groups =>
      pure (if groups = [] then [(globalKey, emptyState clause)] else groups)) := by
  unfold groupStates Grouping.gather
  simp only [updateGroup_eq]

/-- Without rows there is the group `global`, else there is one group for each text of a key. -/
theorem groupStates_ok {groups : List (Bytes × AggState)} (h : groupStates stl clause prevCols records = .ok groups) :
    records = [] ∧ groups = [(globalKey, emptyState clause)] ∨
      records ≠ [] ∧ Grouping.Gathered (updateAggState clause prevCols) ⟨0, []⟩ (getGroupKey stl clause) records groups := by
  rw [groupStates_eq] at h
  obtain ⟨gathered, hgather, h⟩ := bind_eq_ok.mp h
  have hgathered := Grouping.gathered hgather
  cases h
  cases records with
  | nil =>
    cases hgather
    exact .inl ⟨rfl, rfl⟩
  | cons t records =>
    obtain ⟨key, hkey⟩ := hgathered.keyed t List.mem_cons_self
    have hne : gathered ≠ [] := by
      intro hnil
      have hmem := (hgathered.mem_keys key).mpr ⟨t, List.mem_cons_self, hkey⟩
      rw [hnil] at hmem
      exact List.not_mem_nil hmem
    rw [if_neg hne]
    exact .inr ⟨List.cons_ne_nil _ _, hgathered⟩

theorem sortGroups_perm (stl : Stl) (clause : AggClause) (groups : List (Bytes × AggState)) :
    (sortGroups stl clause groups).Perm groups := by
  unfold sortGroups
  split_ifs
  · have hkeys : TransOn (fun _ => True) fun a b : Bytes × AggState => compare a.1 b.1 := .of_compare Prod.fst
    have horder := Sorting.StrictWeakOn.of_ordering hkeys.swap hkeys.trans
    exact (stl.sort_spec _ _ horder.isStrictWeakOrder).1.trans (stl.iterate_perm groups)
  · exact stl.iterate_perm groups

/-- The rows have the same grouping values. -/
def SameKey (clause : AggClause) (t t' : Tuple) : Prop :=
  ∃ vs ws, groupValues clause t = .ok vs ∧ groupValues clause t' = .ok ws ∧ List.Forall₂ Value.Agrees vs ws

/-- The rows are put together by their grouping values, there is one group for each of these, and its result has
them. -/
structure Partitions (stl : Stl) (clause : AggClause) (prevCols groupCols : List TableCol) (records : List Tuple)
    (groups : List (Bytes × AggState)) (results : List AggResult) : Prop where
  states : groupStates stl clause prevCols records = .ok groups
  computed : (sortGroups stl clause groups).mapM (computeResult stl clause groupCols) = .ok results
  together : ∀ t ∈ records, ∀ t' ∈ records,
    getGroupKey stl clause t = getGroupKey stl clause t' ↔ SameKey clause t t'
  nodup : (groups.map Prod.fst).Nodup
  keys : ∀ key, key ∈ groups.map Prod.fst ↔
    (∃ t ∈ records, getGroupKey stl clause t = .ok key) ∨ clause.groupByCols = [] ∧ key = globalKey
  values : ∀ group ∈ groups, ∀ result, computeResult stl clause groupCols group = .ok result →
    ∀ t ∈ records, getGroupKey stl clause t = .ok group.1 →
      ∃ vs, groupValues clause t = .ok vs ∧ List.Forall₂ Value.Agrees result.groupKey vs

def PartitionsByValue (stl : Stl) (clause : AggClause) (prevCols groupCols : List TableCol) (records : List Tuple) :
    Prop := ∃ groups results, Partitions stl clause prevCols groupCols records groups results

/-- There is a row or no GROUP BY, the aggregate functions find their columns, and the grouping values come back
from their text: no bar in a string, no float that six digits do not tell. No number comes with both signs. -/
structure Groupable (stl : Stl) (clause : AggClause) (prevCols : List TableCol) (records : List Tuple) : Prop where
  rows : clause.groupByCols = [] ∨ records ≠ []
  columns : records = [] ∨ ∀ f ∈ clause.aggFuncs, Readable prevCols f
  survive : ∀ t ∈ records, ∀ vs, groupValues clause t = .ok vs → ∀ v ∈ vs, Survives stl v
  signs : ∀ t ∈ records, ∀ t' ∈ records, ∀ vs ws, groupValues clause t = .ok vs → groupValues clause t' = .ok ws →
    List.Forall₂ Value.Agrees vs ws → List.Forall₂ SameSign vs ws

theorem groupCols_eq_nil_iff (h : cols clause prevCols = .ok (groupCols, aggCols)) :
    groupCols = [] ↔ clause.groupByCols = [] := by
  obtain ⟨found, hfound, htypes⟩ := groupCols_ok h
  have hlength := (mapM_eq_ok_iff.mp hfound).length_eq
  have hlength' := congrArg List.length htypes
  rw [List.length_map, List.length_map] at hlength'
  rw [← List.length_eq_zero_iff, ← List.length_eq_zero_iff, hlength', ← hlength]

theorem groupValues_nil (h : clause.groupByCols = []) : groupValues clause t = .ok [] := by
  unfold groupValues
  rw [h]
  rfl

theorem getGroupKey_nil (h : clause.groupByCols = []) : getGroupKey stl clause t = .ok globalKey := if_pos h

/-- The result of a group shows the values of a row of it exactly if they come back from their text. -/
theorem computeResult_agrees_iff (clause : AggClause) (hstl : stl.PrintsFloats) (hcols : groupCols ≠ [])
    {vs : List Value} (htypes : groupCols.map (·.type) = vs.map Value.type) (state : AggState) :
    (∃ result, computeResult stl clause groupCols (rowKey stl vs, state) = .ok result ∧
      List.Forall₂ Value.Agrees result.groupKey vs) ↔ ∀ v ∈ vs, Survives stl v := by
  rw [← parseKey_agrees_iff hstl htypes]
  unfold computeResult
  rw [if_neg hcols]
  constructor
  · intro ⟨result, hresult, hagrees⟩
    obtain ⟨ws, hws, hend⟩ := bind_eq_ok.mp hresult
    cases hend
    exact ⟨ws, hws, hagrees⟩
  · intro ⟨ws, hws, hagrees⟩
    exact ⟨_, bind_eq_ok.mpr ⟨ws, hws, rfl⟩, hagrees⟩

theorem Partitions.groupable (hstl : stl.PrintsFloats) (hfed : Fed clause prevCols groupCols aggCols records)
    {groups : List (Bytes × AggState)} {results : List AggResult}
    (h : Partitions stl clause prevCols groupCols records groups results) : Groupable stl clause prevCols records := by
  have hsurvive : ∀ t ∈ records, ∀ vs, groupValues clause t = .ok vs → ∀ v ∈ vs, Survives stl v := by
    intro t ht vs hvs
    by_cases hgroup : clause.groupByCols = []
    · rw [groupValues_nil hgroup] at hvs
      cases hvs
      exact nofun
    · have hkey : getGroupKey stl clause t = .ok (rowKey stl vs) := getGroupKey_eq hgroup hfed.named hvs
      obtain ⟨group, hmem, hfst⟩ := List.mem_map.mp ((h.keys _).mpr (.inl ⟨t, ht, hkey⟩))
      obtain ⟨result, -, hresult⟩ := exists_of_mem_mapM h.computed ((sortGroups_perm stl clause groups).mem_iff.mpr hmem)
      obtain ⟨ws, hws, hagrees⟩ := h.values group hmem result hresult t ht (hfst ▸ hkey)
      rw [hvs] at hws
      cases hws
      obtain ⟨vs', hvs', htypes⟩ := hfed.groupValues ht
      rw [hvs] at hvs'
      cases hvs'
      refine (computeResult_agrees_iff clause hstl
        (mt (groupCols_eq_nil_iff hfed.built).mp hgroup) htypes group.2).mp ⟨result, ?_, hagrees⟩
      rw [← hfst]
      exact hresult
  refine ⟨?_, ?_, hsurvive, ?_⟩
  · by_contra hnot
    rw [not_or, not_not] at hnot
    obtain ⟨hgroup, hnone⟩ := hnot
    subst hnone
    cases groupStates_ok h.states with
    | inl hempty =>
      obtain ⟨-, hgroups⟩ := hempty
      have hglobal : globalKey ∈ groups.map Prod.fst := by
        rw [hgroups]
        exact List.mem_cons_self
      cases (h.keys globalKey).mp hglobal with
      | inl hrow =>
        obtain ⟨t, ht, -⟩ := hrow
        cases ht
      | inr hnil => exact hgroup hnil.1
    | inr hrows => exact hrows.1 rfl
  · cases groupStates_ok h.states with
    | inl hempty => exact .inl hempty.1
    | inr hrows =>
      obtain ⟨hne, hgathered⟩ := hrows
      obtain ⟨t, ht⟩ := List.exists_mem_of_ne_nil records hne
      obtain ⟨key, hkey⟩ := hgathered.keyed t ht
      obtain ⟨group, hmem, hfst⟩ := List.mem_map.mp ((hgathered.mem_keys key).mpr ⟨t, ht, hkey⟩)
      have hstate := hgathered.state group hmem
      have hmember : t ∈ Grouping.members (getGroupKey stl clause) group.1 records :=
        Grouping.mem_members.mpr ⟨ht, hfst ▸ hkey⟩
      cases hmembers : Grouping.members (getGroupKey stl clause) group.1 records with
      | nil =>
        rw [hmembers] at hmember
        cases hmember
      | cons first rest =>
        have hfirst : first ∈ records := by
          have hin : first ∈ Grouping.members (getGroupKey stl clause) group.1 records := by
            rw [hmembers]
            exact List.mem_cons_self
          exact (Grouping.mem_members.mp hin).1
        rw [hmembers, List.foldlM_cons] at hstate
        obtain ⟨state, hupdate, -⟩ := bind_eq_ok.mp hstate
        exact .inr (readable_of_updateAggState (hfed.shaped first hfirst) hupdate)
  · intro t ht t' ht' vs ws hvs hws hagrees
    by_cases hgroup : clause.groupByCols = []
    · rw [groupValues_nil hgroup] at hvs hws
      cases hvs
      cases hws
      exact .nil
    · have hsame := (h.together t ht t' ht').mpr ⟨vs, ws, hvs, hws, hagrees⟩
      rw [getGroupKey_eq hgroup hfed.named hvs, getGroupKey_eq hgroup hfed.named hws, Except.ok.injEq] at hsame
      obtain ⟨vs', hvs', htypes⟩ := hfed.groupValues ht
      obtain ⟨ws', hws', htypes'⟩ := hfed.groupValues ht'
      rw [hvs] at hvs'
      rw [hws] at hws'
      cases hvs'
      cases hws'
      exact ((key_eq_iff hstl (htypes.symm.trans htypes') (hsurvive t ht vs hvs) (hsurvive t' ht' ws hws)).mp hsame).2

theorem Groupable.exists_groups (h : Groupable stl clause prevCols records)
    (hfed : Fed clause prevCols groupCols aggCols records) :
    ∃ groups, groupStates stl clause prevCols records = .ok groups := by
  have hkey : ∀ t ∈ records, ∃ key, getGroupKey stl clause t = .ok key := by
    intro t ht
    by_cases hgroup : clause.groupByCols = []
    · exact ⟨_, getGroupKey_nil hgroup⟩
    · obtain ⟨vs, hvs, -⟩ := hfed.groupValues ht
      exact ⟨_, getGroupKey_eq hgroup hfed.named hvs⟩
  have hstep : ∀ t ∈ records, ∀ state, ∃ state', updateAggState clause prevCols state t = .ok state' := by
    intro t ht
    have hread := h.columns.resolve_left (List.ne_nil_of_mem ht)
    exact exists_updateAggState hfed.built (hfed.shaped t ht) hread
  obtain ⟨gathered, hgather⟩ := Grouping.exists_gather hkey hstep
  rw [groupStates_eq]
  exact ⟨_, bind_eq_ok.mpr ⟨gathered, hgather, rfl⟩⟩

theorem Groupable.partitionsByValue (h : Groupable stl clause prevCols records) (hstl : stl.PrintsFloats)
    (hfed : Fed clause prevCols groupCols aggCols records) :
    PartitionsByValue stl clause prevCols groupCols records := by
  obtain ⟨groups, hstates⟩ := h.exists_groups hfed
  -- a key belongs to a row, or there are no rows and no GROUP BY
  have hkeys : ∀ key, key ∈ groups.map Prod.fst ↔
      (∃ t ∈ records, getGroupKey stl clause t = .ok key) ∨ clause.groupByCols = [] ∧ key = globalKey := by
    intro key
    cases groupStates_ok hstates with
    | inl hempty =>
      have hgroup := h.rows.resolve_right (not_not_intro hempty.1)
      rw [hempty.2, hempty.1, List.map_singleton, List.mem_singleton]
      exact ⟨fun heq => .inr ⟨hgroup, heq⟩, fun hor => hor.elim (fun ⟨_, ht, _⟩ => nomatch ht) And.right⟩
    | inr hrows =>
      rw [hrows.2.mem_keys]
      refine ⟨.inl, fun hor => hor.elim id fun ⟨hgroup, heq⟩ => ?_⟩
      obtain ⟨t, ht⟩ := List.exists_mem_of_ne_nil records hrows.1
      exact ⟨t, ht, heq ▸ getGroupKey_nil hgroup⟩
  have hnodup : (groups.map Prod.fst).Nodup := by
    cases groupStates_ok hstates with
    | inl hempty =>
      rw [hempty.2]
      exact List.nodup_singleton _
    | inr hrows => exact hrows.2.nodup
  have hresult : ∀ group ∈ groups, ∃ result, computeResult stl clause groupCols group = .ok result := by
    intro group hmem
    by_cases hgroup : clause.groupByCols = []
    · have hcols := (groupCols_eq_nil_iff hfed.built).mpr hgroup
      unfold computeResult
      rw [if_pos hcols]
      exact ⟨_, rfl⟩
    · obtain ⟨t, ht, hkey⟩ := ((hkeys group.1).mp (List.mem_map_of_mem hmem)).resolve_right fun hnil => hgroup hnil.1
      obtain ⟨vs, hvs, htypes⟩ := hfed.groupValues ht
      rw [getGroupKey_eq hgroup hfed.named hvs, Except.ok.injEq] at hkey
      obtain ⟨result, hresult, -⟩ := (computeResult_agrees_iff clause hstl (mt (groupCols_eq_nil_iff hfed.built).mp hgroup)
        htypes group.2).mpr (h.survive t ht vs hvs)
      rw [hkey] at hresult
      exact ⟨result, hresult⟩
  obtain ⟨results, hresults⟩ := exists_mapM fun group hmem =>
    hresult group ((sortGroups_perm stl clause groups).mem_iff.mp hmem)
  refine ⟨groups, results, hstates, hresults, ?_, hnodup, hkeys, ?_⟩
  · intro t ht t' ht'
    obtain ⟨vs, hvs, htypes⟩ := hfed.groupValues ht
    obtain ⟨ws, hws, htypes'⟩ := hfed.groupValues ht'
    have hsame : SameKey clause t t' ↔ List.Forall₂ Value.Agrees vs ws := by
      constructor
      · intro ⟨vs', ws', hvs', hws', hagrees⟩
        rw [hvs] at hvs'
        rw [hws] at hws'
        cases hvs'
        cases hws'
        exact hagrees
      · exact fun hagrees => ⟨vs, ws, hvs, hws, hagrees⟩
    rw [hsame]
    by_cases hgroup : clause.groupByCols = []
    · rw [groupValues_nil hgroup] at hvs hws
      cases hvs
      cases hws
      exact iff_of_true ((getGroupKey_nil hgroup).trans (getGroupKey_nil hgroup).symm) .nil
    · rw [getGroupKey_eq hgroup hfed.named hvs, getGroupKey_eq hgroup hfed.named hws, Except.ok.injEq,
        key_eq_iff hstl (htypes.symm.trans htypes') (h.survive t ht vs hvs) (h.survive t' ht' ws hws)]
      exact and_iff_left_of_imp (h.signs t ht t' ht' vs ws hvs hws)
  · intro group hmem result hcomputed t ht hkey
    obtain ⟨vs, hvs, htypes⟩ := hfed.groupValues ht
    refine ⟨vs, hvs, ?_⟩
    by_cases hgroup : clause.groupByCols = []
    · rw [groupValues_nil hgroup] at hvs
      cases hvs
      have hcols := (groupCols_eq_nil_iff hfed.built).mpr hgroup
      unfold computeResult at hcomputed
      rw [if_pos hcols] at hcomputed
      cases hcomputed
      exact .nil
    · rw [getGroupKey_eq hgroup hfed.named hvs, Except.ok.injEq] at hkey
      obtain ⟨result', hresult', hagrees⟩ := (computeResult_agrees_iff clause hstl
        (mt (groupCols_eq_nil_iff hfed.built).mp hgroup) htypes group.2).mpr (h.survive t ht vs hvs)
      rw [hkey] at hresult'
      have heq := hcomputed.symm.trans hresult'
      cases heq
      exact hagrees

/-- GROUP BY goes by value exactly if there is a row or no GROUP BY, the columns are found, and the text of the
grouping values tells what they are. -/
theorem partitionsByValue_iff (hstl : stl.PrintsFloats) (hfed : Fed clause prevCols groupCols aggCols records) :
    PartitionsByValue stl clause prevCols groupCols records ↔ Groupable stl clause prevCols records :=
  ⟨fun ⟨_, _, h⟩ => h.groupable hstl hfed, fun h => h.partitionsByValue hstl hfed⟩

/-- A library that knows the zeros. -/
def zeroStl : Stl :=
  .stable (fun f => if f.msb then [45, 48] else [48]) fun text => if text = [45, 48] then some 0x80000000 else some 0

theorem printsFloats_zeroStl : zeroStl.PrintsFloats where
  noBar f := by
    change 124 ∉ if f.msb then [45, 48] else [48]
    split_ifs <;> decide
  sign f g h := by
    change (if f.msb then [45, 48] else [48]) = (if g.msb then [45, 48] else [48] : Bytes) at h
    cases hf : f.msb <;> cases hg : g.msb <;> simp_all
  number f g _ hsign := by
    change (if f.msb then [45, 48] else [48]) = (if g.msb then [45, 48] else [48] : Bytes)
    rw [hsign]

/-- Two columns `a CHAR(2)` and `b CHAR(2)`. -/
def pairCols : List TableCol := [⟨⟨"a", .string, 2, 0⟩, "t"⟩, ⟨⟨"b", .string, 2, 2⟩, "t"⟩]

def byPair : AggClause := ⟨[], [⟨"t", "a"⟩, ⟨"t", "b"⟩], [], [], [], -1⟩

def pairRow (a b : Bytes) : Tuple := pairCols.zip [a, b]

theorem fed_pair (rows : List (Bytes × Bytes)) :
    Fed byPair pairCols pairCols [] (rows.map fun row => pairRow row.1 row.2) where
  built := rfl
  shaped t ht := by
    obtain ⟨row, -, rfl⟩ := List.mem_map.mp ht
    rfl
  named := by decide

/-- The pairs `x|`, `y` and `x`, `|y` have one text. -/
theorem not_partitionsByValue_bar : ¬∀ stl clause prevCols groupCols aggCols records, stl.PrintsFloats →
    Fed clause prevCols groupCols aggCols records → PartitionsByValue stl clause prevCols groupCols records := by
  intro h
  obtain ⟨groups, results, hp⟩ := h zeroStl byPair pairCols pairCols [] _ printsFloats_zeroStl
    (fed_pair [([120, 124], [121, 0]), ([120, 0], [124, 121])])
  obtain ⟨vs, ws, hvs, hws, hagrees⟩ := (hp.together (pairRow [120, 124] [121, 0]) List.mem_cons_self
    (pairRow [120, 0] [124, 121]) (List.mem_cons_of_mem _ List.mem_cons_self)).mp rfl
  cases hvs
  cases hws
  have hfirst : trimString [120, 124] = trimString [120, 0] := (List.forall₂_cons.mp hagrees).1
  exact absurd hfirst (by decide)

theorem partitionsByValue_iff_pair :
    PartitionsByValue zeroStl byPair pairCols pairCols [pairRow [120, 0] [121, 0]] ↔
      Groupable zeroStl byPair pairCols [pairRow [120, 0] [121, 0]] :=
  partitionsByValue_iff printsFloats_zeroStl (fed_pair [([120, 0], [121, 0])])

end AggregationExecutor
end Rmdb
