import Rmdb.Execution.CheckedConditions
import Rmdb.Execution.Scans

/-! The range of keys that the conditions on an index give. -/
namespace Rmdb
namespace IndexScanExecutor

open Program ScanKeys

def minKey (cols : List ColMeta) : Bytes := (cols.map (·.minBytes)).flatten

def maxKey (cols : List ColMeta) : Bytes := (cols.map (·.maxBytes)).flatten

variable (first : String → Option (CompOp × Option Bytes))

/-- The operator of the first column that is not compared by `<>`, as long as every column before it
is. -/
def boundingOp : List ColMeta → Option CompOp
  | [] => none
  | col :: cols =>
    match first col.name with
    | none => none
    | some (.ne, _) => boundingOp cols
    | some (op, _) => some op

/-- The keys that bound a scan: equalities fix the leading columns, which differ, and then nothing bounds the
next one from below; without an equality the first column may be bounded from below. -/
inductive SearchRange : List ColMeta → Option Bytes → Option Bytes → Prop
  | unbounded {cols : List ColMeta} : boundingOp first cols = none → SearchRange cols none none
  | below {cols : List ColMeta} {op : CompOp} : boundingOp first cols = some op → op = .lt ∨ op = .le →
      SearchRange cols none (some (maxKey cols))
  | above {col : ColMeta} {cols : List ColMeta} {op : CompOp} {raw : Bytes} :
      first col.name = some (op, some raw) → op = .gt ∨ op = .ge →
      SearchRange (col :: cols) (some (raw ++ minKey cols)) none
  | equal {eqs : List (ColMeta × Bytes)} {cols : List ColMeta} : eqs ≠ [] → (eqs.map (·.1.name)).Nodup →
      (∀ e ∈ eqs, first e.1.name = some (.eq, some e.2)) →
      (∀ op ∈ boundingOp first cols, op = .lt ∨ op = .le) →
      SearchRange (eqs.map (·.1) ++ cols) (some ((eqs.map (·.2)).flatten ++ minKey cols))
        (some ((eqs.map (·.2)).flatten ++ maxKey cols))

variable {first} {index cols rest : List ColMeta} {col found : ColMeta} {keys keys' : ScanKeys} {i j : ℕ}
  {lower upper : Option Bytes}

/-! ### The loop -/

/-- The keys after equalities on the leading columns. -/
def equalKeys (eqs : List (ColMeta × Bytes)) : ScanKeys :=
  ⟨fun i => eqs[i]?.map (·.2), fun i => eqs[i]?.map (·.2), eqs.length, eqs.length⟩

private theorem equalKeys_append (eqs : List (ColMeta × Bytes)) (col : ColMeta) (raw : Bytes) :
    ((equalKeys eqs).setLower eqs.length raw).setUpper eqs.length raw = equalKeys (eqs ++ [(col, raw)]) := by
  have hupdate : Function.update (fun i => eqs[i]?.map (·.2)) eqs.length (some raw) =
      fun i => (eqs ++ [(col, raw)])[i]?.map (·.2) := by
    funext i
    rcases Nat.lt_trichotomy i eqs.length with h | rfl | h
    · rw [Function.update_of_ne (by omega), List.getElem?_append_left h]
    · simp
    · rw [Function.update_of_ne (by omega), List.getElem?_eq_none (by omega), List.getElem?_eq_none (by simp; omega)]
  unfold equalKeys ScanKeys.setLower ScanKeys.setUpper
  simp only [hupdate, List.length_append, List.length_singleton]

private theorem place_append {eqs : List (ColMeta × Bytes)} (h : col.name ∉ eqs.map (·.1.name)) :
    place (eqs.map (·.1) ++ rest) col = place rest col + eqs.length := by
  have hnone : (eqs.map (·.1)).findIdx (·.name = col.name) = (eqs.map (·.1)).length := by
    rw [List.findIdx_eq_length, List.forall_mem_map]
    exact fun e he => decide_eq_false fun hname => h (hname ▸ List.mem_map_of_mem he)
  unfold place
  rw [List.findIdx_append, hnone, if_neg (Nat.lt_irrefl _), List.length_map]

private theorem place_cons_self (col : ColMeta) (rest : List ColMeta) : place (col :: rest) col = 0 := by
  unfold place
  rw [List.findIdx_cons, decide_eq_true rfl]
  rfl

/-- At its place stands a column with its name, and none stands in front. -/
private theorem name_at_place (index : List ColMeta) (h : index[place index col]? = some found) : found.name = col.name := by
  obtain ⟨hlt, rfl⟩ := List.getElem?_eq_some_iff.mp h
  exact of_decide_eq_true (List.findIdx_getElem (p := fun c : ColMeta => c.name = col.name) (w := hlt))

private theorem place_le_of_name (h : index[i]? = some found) (hname : found.name = col.name) :
    place index col ≤ i := by
  obtain ⟨hlt, rfl⟩ := List.getElem?_eq_some_iff.mp h
  refine Nat.le_of_not_lt fun hbefore => ?_
  have hnot := List.not_of_lt_findIdx hbefore
  rw [decide_eq_true hname] at hnot
  cases hnot

private theorem keysFrom_equal (rest : List ColMeta) (eqs : List (ColMeta × Bytes)) (before : List (ColMeta × Bytes))
    (hnodup : ((before ++ eqs).map (·.1.name)).Nodup) (heqs : ∀ e ∈ eqs, first e.1.name = some (.eq, some e.2))
    (hindex : index = before.map (·.1) ++ (eqs.map (·.1) ++ rest)) :
    keysFrom index first (eqs.map (·.1) ++ rest) (equalKeys before) =
      keysFrom index first rest (equalKeys (before ++ eqs)) := by
  induction eqs generalizing before with
  | nil =>
    rw [List.append_nil]
    rfl
  | cons e eqs ih =>
    have hnew : e.1.name ∉ before.map (·.1.name) := by
      rw [List.map_append, List.map_cons] at hnodup
      exact fun hmem => (List.nodup_append.mp hnodup).2.2 _ hmem _ List.mem_cons_self rfl
    have hplace : place index e.1 = before.length := by
      rw [hindex, List.map_cons, List.cons_append, place_append hnew, place_cons_self, Nat.zero_add]
    have hrest := ih (before ++ [e]) (by simpa using hnodup) (fun e he => heqs e (List.mem_cons_of_mem _ he))
      (by simpa using hindex)
    rw [List.append_assoc, List.singleton_append] at hrest
    rw [← hrest, List.map_cons, List.cons_append, keysFrom, heqs e List.mem_cons_self]
    change keysFrom index first _ (((equalKeys before).setLower (place index e.1) e.2).setUpper (place index e.1) e.2) = _
    rw [hplace, equalKeys_append before e.1 e.2]

variable (hraw : ∀ name op raw, first name = some (op, raw) → raw ≠ none)
include hraw

/-- Columns compared by `<>` and then none, or one that is bounded from above. -/
private theorem keysFrom_upper (index : List ColMeta) (hop : ∀ op ∈ boundingOp first cols, op = .lt ∨ op = .le) :
    (boundingOp first cols = none → keysFrom index first cols keys = .ok keys) ∧
      (∀ op ∈ boundingOp first cols, ∃ col raw, first col.name = some (op, some raw) ∧
        keysFrom index first cols keys = .ok (keys.setUpper (place index col) raw)) := by
  induction cols with
  | nil => exact ⟨fun _ => rfl, nofun⟩
  | cons col cols ih =>
    unfold boundingOp at hop ⊢
    unfold keysFrom
    cases hfirst : first col.name with
    | none => exact ⟨fun _ => rfl, by simp⟩
    | some lit =>
      obtain ⟨op, raw⟩ := lit
      obtain ⟨raw, rfl⟩ := Option.ne_none_iff_exists'.mp (hraw col.name op raw hfirst)
      rw [hfirst] at hop
      cases op with
      | ne => exact ih hop
      | lt =>
        refine ⟨nofun, ?_⟩
        rintro _ ⟨⟩
        exact ⟨col, raw, hfirst, rfl⟩
      | le =>
        refine ⟨nofun, ?_⟩
        rintro _ ⟨⟩
        exact ⟨col, raw, hfirst, rfl⟩
      | eq => exact absurd (hop .eq rfl) (by decide)
      | gt => exact absurd (hop .gt rfl) (by decide)
      | ge => exact absurd (hop .ge rfl) (by decide)

/-- The loop leaves a place alone that no column has, or one compared by `<>`. -/
private theorem keysFrom_frame (h : keysFrom index first cols keys = .ok keys')
    (hj : ∀ col ∈ cols, place index col = j → ∀ op raw, first col.name = some (op, raw) → op = .ne) :
    keys'.keyStart j = keys.keyStart j ∧ keys'.keyEnd j = keys.keyEnd j := by
  induction cols generalizing keys with
  | nil =>
    cases h
    exact ⟨rfl, rfl⟩
  | cons col cols ih =>
    have hlater : ∀ col ∈ cols, place index col = j → ∀ op raw, first col.name = some (op, raw) → op = .ne :=
      fun col hcol => hj col (List.mem_cons_of_mem _ hcol)
    unfold keysFrom at h
    cases hfirst : first col.name with
    | none =>
      rw [hfirst] at h
      cases h
      exact ⟨rfl, rfl⟩
    | some lit =>
      obtain ⟨op, raw⟩ := lit
      obtain ⟨raw, rfl⟩ := Option.ne_none_iff_exists'.mp (hraw col.name op raw hfirst)
      rw [hfirst] at h
      have hother : op ≠ .ne → j ≠ place index col := fun hop hplace =>
        hop (hj col List.mem_cons_self hplace.symm op _ hfirst)
      have hlower : op ≠ .ne → (keys.setLower (place index col) raw).keyStart j = keys.keyStart j := fun hop =>
        Function.update_of_ne (hother hop) _ _
      have hupper : op ≠ .ne → (keys.setUpper (place index col) raw).keyEnd j = keys.keyEnd j := fun hop =>
        Function.update_of_ne (hother hop) _ _
      cases op with
      | ne => exact ih h hlater
      | eq =>
        obtain ⟨hstart, hend⟩ := ih h hlater
        exact ⟨hstart.trans (hlower nofun), hend.trans (hupper nofun)⟩
      | lt =>
        cases h
        exact ⟨rfl, hupper nofun⟩
      | le =>
        cases h
        exact ⟨rfl, hupper nofun⟩
      | gt =>
        cases h
        exact ⟨hlower nofun, rfl⟩
      | ge =>
        cases h
        exact ⟨hlower nofun, rfl⟩

/-- The bounds below are counted: the equalities in front, and the column behind them if it is bounded from
below. -/
private theorem keysFrom_lowerCol (h : keysFrom index first cols keys = .ok keys') :
    keys.lowerCol ≤ keys'.lowerCol ∧
      (∀ op ∈ boundingOp first cols, op ≠ .lt → op ≠ .le → keys.lowerCol < keys'.lowerCol) := by
  induction cols generalizing keys with
  | nil =>
    cases h
    exact ⟨Nat.le_refl _, nofun⟩
  | cons col cols ih =>
    unfold boundingOp
    unfold keysFrom at h
    cases hfirst : first col.name with
    | none =>
      rw [hfirst] at h
      cases h
      exact ⟨Nat.le_refl _, nofun⟩
    | some lit =>
      obtain ⟨op, raw⟩ := lit
      obtain ⟨raw, rfl⟩ := Option.ne_none_iff_exists'.mp (hraw col.name op raw hfirst)
      rw [hfirst] at h
      cases op with
      | ne => exact ih h
      | eq =>
        have hlt : keys.lowerCol < keys'.lowerCol := (ih h).1
        exact ⟨hlt.le, fun _ _ _ _ => hlt⟩
      | lt =>
        cases h
        refine ⟨Nat.le_refl _, ?_⟩
        rintro _ ⟨⟩ hnot
        exact absurd rfl hnot
      | le =>
        cases h
        refine ⟨Nat.le_refl _, ?_⟩
        rintro _ ⟨⟩ - hnot
        exact absurd rfl hnot
      | gt =>
        cases h
        exact ⟨Nat.le_succ _, fun _ _ _ _ => Nat.lt_succ_self _⟩
      | ge =>
        cases h
        exact ⟨Nat.le_succ _, fun _ _ _ _ => Nat.lt_succ_self _⟩

private theorem length_le_lowerCol {eqs : List (ColMeta × Bytes)}
    (heqs : ∀ e ∈ eqs, first e.1.name = some (.eq, some e.2))
    (h : keysFrom index first (eqs.map (·.1) ++ rest) keys = .ok keys') :
    keys.lowerCol + eqs.length ≤ keys'.lowerCol := by
  induction eqs generalizing keys with
  | nil => exact (keysFrom_lowerCol hraw h).1
  | cons e eqs ih =>
    rw [List.map_cons, List.cons_append, keysFrom, heqs e List.mem_cons_self] at h
    have hrest : keys.lowerCol + 1 + eqs.length ≤ keys'.lowerCol :=
      ih (fun e he => heqs e (List.mem_cons_of_mem _ he)) h
    rw [List.length_cons]
    omega

/-! ### The buffers -/

omit hraw in
private theorem bytes_eq {key : ℕ → Option Bytes} {parts : List Bytes}
    (h : ∀ i, i < parts.length → key i = parts[i]?) : ScanKeys.bytes key parts.length = .ok parts.flatten := by
  induction parts using List.reverseRecOn with
  | nil => rfl
  | append_singleton parts part ih =>
    have hdone := ih fun i hi => by
      rw [h i (by simp; omega), List.getElem?_append_left hi]
    rw [List.length_append, List.length_singleton]
    unfold ScanKeys.bytes
    rw [hdone, h parts.length (by simp), List.getElem?_concat_length, List.flatten_append, List.flatten_singleton]
    rfl

omit hraw in
private theorem bytes_ne_ok {key : ℕ → Option Bytes} {n i : ℕ} (hi : i < n) (h : key i = none) (b : Bytes) :
    ScanKeys.bytes key n ≠ .ok b := by
  induction n generalizing b with
  | zero => omega
  | succ n ih =>
    intro hb
    unfold ScanKeys.bytes at hb
    obtain ⟨done, hdone, hb⟩ := bind_eq_ok.mp hb
    rcases Nat.lt_succ_iff_lt_or_eq.mp hi with hlt | rfl
    · exact ih hlt done hdone
    · rw [h] at hb
      cases hb

omit hraw in
private theorem side_ne_ok {count : ℕ} {key : ℕ → Option Bytes} {n i : ℕ} (hcount : count ≠ 0) (hi : i < n)
    (h : key i = none) (b : Option Bytes) : ScanKeys.side count key n ≠ .ok b := by
  intro hb
  unfold ScanKeys.side at hb
  rw [if_neg hcount] at hb
  cases hbytes : ScanKeys.bytes key n with
  | ok buf => exact bytes_ne_ok hi h buf hbytes
  | error e =>
    rw [hbytes] at hb
    cases hb

omit hraw in
/-- After equalities on the leading columns the defaults complete both keys. -/
private theorem bytes_fill (rest : List ColMeta) (eqs : List (ColMeta × Bytes)) (hlower : keys.lowerCol = eqs.length)
    (hstart : ∀ i < eqs.length, keys.keyStart i = eqs[i]?.map (·.2))
    (hend : ∀ i < eqs.length, keys.keyEnd i = eqs[i]?.map (·.2)) :
    let filled := keys.fill (eqs.map (·.1) ++ rest)
    ScanKeys.bytes filled.keyStart (eqs.map (·.1) ++ rest).length = .ok ((eqs.map (·.2)).flatten ++ minKey rest) ∧
      ScanKeys.bytes filled.keyEnd (eqs.map (·.1) ++ rest).length = .ok ((eqs.map (·.2)).flatten ++ maxKey rest) := by
  intro filled
  have hpart : ∀ (key : ℕ → Option Bytes) (default : ColMeta → Bytes),
      (∀ i < eqs.length, key i = eqs[i]?.map (·.2)) →
      ScanKeys.bytes (fun i => if keys.lowerCol ≤ i then (eqs.map (·.1) ++ rest)[i]?.map default else key i)
        (eqs.map (·.1) ++ rest).length = .ok ((eqs.map (·.2)).flatten ++ (rest.map default).flatten) := by
    intro key default hkey
    have hlen : (eqs.map (·.1) ++ rest).length = (eqs.map (·.2) ++ rest.map default).length := by simp
    rw [hlen, bytes_eq, List.flatten_append]
    intro i hi
    rw [hlower]
    split
    · rename_i hle
      rw [List.getElem?_append_right (by simpa using hle), List.getElem?_append_right (by simpa using hle)]
      simp
    · rename_i hlt
      rw [hkey i (Nat.lt_of_not_le hlt), List.getElem?_append_left (by simp; omega), List.getElem?_map]
  exact ⟨hpart _ _ hstart, hpart _ _ hend⟩

private theorem searchKeys_equal (eqs : List (ColMeta × Bytes)) (rest : List ColMeta)
    (hnodup : (eqs.map (·.1.name)).Nodup) (heqs : ∀ e ∈ eqs, first e.1.name = some (.eq, some e.2))
    (hop : ∀ op ∈ boundingOp first rest, op = .lt ∨ op = .le) :
    searchKeys first (eqs.map (·.1) ++ rest) = .ok
      (if eqs = [] then none else some ((eqs.map (·.2)).flatten ++ minKey rest),
        if eqs = [] ∧ boundingOp first rest = none then none
        else some ((eqs.map (·.2)).flatten ++ maxKey rest)) := by
  have hloop : keysFrom (eqs.map (·.1) ++ rest) first _ ScanKeys.empty = _ :=
    keysFrom_equal rest eqs [] hnodup heqs rfl
  rw [List.nil_append] at hloop
  obtain ⟨hnone, hsome⟩ := keysFrom_upper hraw (eqs.map (·.1) ++ rest) hop
  obtain ⟨keys, hkeys, hlower, hstart, hend, hupper⟩ : ∃ keys : ScanKeys,
      keysFrom (eqs.map (·.1) ++ rest) first rest (equalKeys eqs) = .ok keys ∧ keys.lowerCol = eqs.length ∧
      (∀ i < eqs.length, keys.keyStart i = eqs[i]?.map (·.2)) ∧
      (∀ i < eqs.length, keys.keyEnd i = eqs[i]?.map (·.2)) ∧
      (keys.upperCol = 0 ↔ eqs = [] ∧ boundingOp first rest = none) := by
    cases hbound : boundingOp first rest with
    | none =>
      refine ⟨_, hnone hbound, rfl, fun _ _ => rfl, fun _ _ => rfl, ?_⟩
      change eqs.length = 0 ↔ _
      simp
    | some op =>
      obtain ⟨col, raw, hfirst, heq⟩ := hsome op hbound
      -- the bounded column is none of the leading ones, and so the defaults overwrite its bound
      have hnew : col.name ∉ eqs.map (·.1.name) := by
        intro hmem
        obtain ⟨e, he, hname⟩ := List.mem_map.mp hmem
        have hequal := heqs e he
        rw [hname, hfirst] at hequal
        cases hequal
        exact absurd (hop .eq hbound) (by decide)
      have hplace : eqs.length ≤ place (eqs.map (·.1) ++ rest) col := by
        rw [place_append hnew]
        exact Nat.le_add_left _ _
      refine ⟨_, heq, rfl, fun _ _ => rfl, fun i hi => Function.update_of_ne (by omega) _ _, ?_⟩
      change eqs.length + 1 = 0 ↔ _
      simp
  obtain ⟨hlow, hup⟩ := bytes_fill rest eqs hlower hstart hend
  have hside : ∀ {count key n b}, ScanKeys.bytes key n = .ok b →
      ScanKeys.side count key n = .ok (if count = 0 then none else some b) := by
    intro count key n b hb
    unfold ScanKeys.side
    rw [hb]
    split <;> rfl
  unfold searchKeys
  rw [hloop, hkeys]
  change (ScanKeys.side _ _ _ >>= fun lower => ScanKeys.side _ _ _ >>= fun upper => pure (lower, upper)) = _
  rw [hside hlow, hside hup, hlower, if_congr List.length_eq_zero_iff rfl rfl, if_congr hupper rfl rfl]
  rfl

omit hraw in
private theorem searchKeys_above {op : CompOp} {raw : Bytes} (hfirst : first col.name = some (op, some raw))
    (hop : op = .gt ∨ op = .ge) :
    searchKeys first (col :: rest) = .ok (some (raw ++ minKey rest), none) := by
  have hloop : keysFrom (col :: rest) first (col :: rest) ScanKeys.empty = .ok (ScanKeys.empty.setLower 0 raw) := by
    unfold keysFrom
    rw [hfirst, ← place_cons_self col rest]
    cases hop with
    | inl h => rw [h]; rfl
    | inr h => rw [h]; rfl
  have hbytes : ScanKeys.bytes ((ScanKeys.empty.setLower 0 raw).fill (col :: rest)).keyStart
      (raw :: rest.map (·.minBytes)).length = .ok (raw :: rest.map (·.minBytes)).flatten := by
    refine bytes_eq fun i _ => ?_
    cases i with
    | zero => rfl
    | succ i =>
      change (if 1 ≤ i + 1 then (col :: rest)[i + 1]?.map (·.minBytes) else
        (ScanKeys.empty.setLower 0 raw).keyStart (i + 1)) = _
      rw [if_pos (by omega), List.getElem?_cons_succ, List.getElem?_cons_succ, List.getElem?_map]
  rw [List.length_cons, List.length_map] at hbytes
  unfold searchKeys
  rw [hloop]
  change (ScanKeys.side 1 _ (rest.length + 1) >>= fun lower => _) = _
  unfold ScanKeys.side
  rw [if_neg Nat.one_ne_zero, hbytes]
  rfl

omit hraw in
private theorem exists_equal_front (first : String → Option (CompOp × Option Bytes)) (cols : List ColMeta) :
    ∃ (eqs : List (ColMeta × Bytes)) (rest : List ColMeta),
      cols = eqs.map (·.1) ++ rest ∧ (∀ e ∈ eqs, first e.1.name = some (.eq, some e.2)) ∧
        ∀ col rest', rest = col :: rest' → ∀ raw, first col.name ≠ some (.eq, some raw) := by
  induction cols with
  | nil => exact ⟨[], [], rfl, nofun, nofun⟩
  | cons col cols ih =>
    by_cases heq : ∃ raw, first col.name = some (.eq, some raw)
    · obtain ⟨raw, hcol⟩ := heq
      obtain ⟨eqs, rest, rfl, heqs, hrest⟩ := ih
      refine ⟨(col, raw) :: eqs, rest, rfl, fun e he => ?_, hrest⟩
      cases List.mem_cons.mp he with
      | inl he =>
        rw [he]
        exact hcol
      | inr he => exact heqs e he
    · refine ⟨[], col :: cols, rfl, nofun, ?_⟩
      rintro _ _ ⟨⟩ raw hcol
      exact heq ⟨raw, hcol⟩

omit hraw in
/-- The sides that a search ends with come from the keys that the loop set. -/
private theorem sides_of_searchKeys (h : searchKeys first cols = .ok (lower, upper)) :
    ∃ keys, keysFrom cols first cols ScanKeys.empty = .ok keys ∧
      ScanKeys.side keys.lowerCol (keys.fill cols).keyStart cols.length = .ok lower ∧
      ScanKeys.side keys.upperCol (keys.fill cols).keyEnd cols.length = .ok upper := by
  unfold searchKeys at h
  obtain ⟨keys, hkeys, h⟩ := bind_eq_ok.mp h
  obtain ⟨low, hlower, h⟩ := bind_eq_ok.mp h
  obtain ⟨up, hupper, h⟩ := bind_eq_ok.mp h
  cases h
  exact ⟨keys, hkeys, hlower, hupper⟩

/-- A leading column that the index repeats leaves a part of the keys unwritten. -/
private theorem nodup_of_searchKeys {eqs : List (ColMeta × Bytes)}
    (heqs : ∀ e ∈ eqs, first e.1.name = some (.eq, some e.2))
    (h : searchKeys first (eqs.map (·.1) ++ rest) = .ok (lower, upper)) : (eqs.map (·.1.name)).Nodup := by
  obtain ⟨keys, hkeys, hlower, -⟩ := sides_of_searchKeys h
  have hcount : 0 + eqs.length ≤ keys.lowerCol := length_le_lowerCol hraw heqs hkeys
  rw [List.nodup_iff_getElem?_ne_getElem?]
  intro i j hij hj heq
  rw [List.length_map] at hj
  have hnone : ∀ col ∈ eqs.map (·.1) ++ rest, place (eqs.map (·.1) ++ rest) col ≠ j := by
    intro col _ hplace
    have hget : ∀ {n} (hn : n < eqs.length), (eqs.map (·.1) ++ rest)[n]? = some eqs[n].1 := by
      intro n hn
      rw [List.getElem?_append_left (by simpa using hn), List.getElem?_map, List.getElem?_eq_getElem hn]
      rfl
    have hhere : eqs[j].1.name = col.name := by
      refine name_at_place (eqs.map (·.1) ++ rest) ?_
      rw [hplace]
      exact hget hj
    have hsame : eqs[i].1.name = eqs[j].1.name := by
      simpa [List.getElem?_eq_getElem hj, List.getElem?_eq_getElem (hij.trans hj)] using heq
    have hle := place_le_of_name (hget (hij.trans hj)) (hsame.trans hhere)
    omega
  refine side_ne_ok (i := j) (by omega) (by simp; omega) ?_ _ hlower
  change (if keys.lowerCol ≤ j then _ else _) = none
  rw [if_neg (by omega), (keysFrom_frame hraw hkeys fun col hcol hplace => absurd hplace (hnone col hcol)).1]
  rfl

/-- The keys that the scan searches for are those of the range. -/
theorem searchKeys_iff : searchKeys first cols = .ok (lower, upper) ↔ SearchRange first cols lower upper := by
  constructor
  · intro h
    obtain ⟨eqs, rest, rfl, heqs, hhead⟩ := exists_equal_front first cols
    have hnodup := nodup_of_searchKeys hraw heqs h
    by_cases hop : ∀ op ∈ boundingOp first rest, op = .lt ∨ op = .le
    · rw [searchKeys_equal hraw eqs rest hnodup heqs hop] at h
      cases h
      by_cases hnil : eqs = []
      · subst hnil
        cases hbound : boundingOp first rest with
        | none => exact .unbounded hbound
        | some op => exact .below hbound (hop op hbound)
      · rw [if_neg hnil, if_neg fun hnot => hnil hnot.1]
        exact .equal hnil hnodup heqs hop
    · obtain ⟨op, hbound, hlow⟩ : ∃ op, boundingOp first rest = some op ∧ op ≠ .lt ∧ op ≠ .le := by
        by_contra hnot
        refine hop fun op hmem => ?_
        by_contra hor
        exact hnot ⟨op, hmem, fun h => hor (.inl h), fun h => hor (.inr h)⟩
      have hloop : keysFrom (eqs.map (·.1) ++ rest) first _ ScanKeys.empty = _ :=
        keysFrom_equal rest eqs [] hnodup heqs rfl
      rw [List.nil_append] at hloop
      have hkeep := h
      obtain ⟨keys, hkeys, hlower, hupper⟩ := sides_of_searchKeys h
      rw [hloop] at hkeys
      have hcount : eqs.length < keys.lowerCol := (keysFrom_lowerCol hraw hkeys).2 op hbound hlow.1 hlow.2
      cases rest with
      | nil => cases hbound
      | cons col rest =>
        have hhere : eqs.length < (eqs.map (·.1) ++ col :: rest).length := by simp
        -- the next column is compared by something other than an equality and so is none of the leading ones
        have hnew : col.name ∉ eqs.map (·.1.name) := by
          intro hmem
          obtain ⟨e, he, hname⟩ := List.mem_map.mp hmem
          exact hhead col rest rfl e.2 (hname ▸ heqs e he)
        have hplace : place (eqs.map (·.1) ++ col :: rest) col = eqs.length := by
          rw [place_append hnew, place_cons_self, Nat.zero_add]
        unfold boundingOp at hbound
        have hloop := hkeys
        unfold keysFrom at hkeys
        cases hfirst : first col.name with
        | none =>
          rw [hfirst] at hbound
          cases hbound
        | some lit =>
          obtain ⟨op', raw⟩ := lit
          obtain ⟨raw, rfl⟩ := Option.ne_none_iff_exists'.mp (hraw col.name op' raw hfirst)
          rw [hfirst] at hkeys hbound
          have hgreater : op' = .gt ∨ op' = .ge → keys = (equalKeys eqs).setLower eqs.length raw →
              SearchRange first (eqs.map (·.1) ++ col :: rest) lower upper := by
            rintro hgt rfl
            cases eqs with
            | nil =>
              have hrange : searchKeys first (col :: rest) = .ok (lower, upper) := hkeep
              rw [searchKeys_above hfirst hgt] at hrange
              cases hrange
              exact .above hfirst hgt
            | cons e eqs =>
              refine absurd hupper (side_ne_ok (by simp [equalKeys, ScanKeys.setLower]) hhere ?_ _)
              change (if (e :: eqs).length + 1 ≤ (e :: eqs).length then _ else _) = none
              rw [if_neg (by omega)]
              change Option.map _ (e :: eqs)[(e :: eqs).length]? = none
              rw [List.getElem?_eq_none (Nat.le_refl _)]
              rfl
          cases op' with
          | eq => exact absurd hfirst (hhead col rest rfl raw)
          | lt =>
            cases hbound
            exact absurd rfl hlow.1
          | le =>
            cases hbound
            exact absurd rfl hlow.2
          | gt => exact hgreater (.inl rfl) (hplace ▸ (Except.ok.inj hkeys).symm)
          | ge => exact hgreater (.inr rfl) (hplace ▸ (Except.ok.inj hkeys).symm)
          | ne =>
            have hunset := (keysFrom_frame hraw (j := eqs.length) hloop fun other _ hat op₂ raw₂ hother => by
              have hname : col.name = other.name := name_at_place (eqs.map (·.1) ++ col :: rest) (by
                rw [hat]
                simp)
              rw [← hname, hfirst] at hother
              cases hother
              rfl).1
            refine absurd hlower (side_ne_ok (by omega) hhere ?_ _)
            change (if keys.lowerCol ≤ eqs.length then _ else _) = none
            rw [if_neg (by omega), hunset]
            change Option.map _ eqs[eqs.length]? = none
            rw [List.getElem?_eq_none (Nat.le_refl _)]
            rfl
  · intro h
    cases h with
    | unbounded hbound =>
      have := searchKeys_equal hraw [] cols List.nodup_nil nofun (by simp [hbound])
      simpa [hbound] using this
    | below hbound hop =>
      have := searchKeys_equal hraw [] cols List.nodup_nil nofun (by
        rw [hbound]
        rintro _ ⟨⟩
        exact hop)
      simpa [hbound] using this
    | above hfirst hop => exact searchKeys_above hfirst hop
    | @equal eqs rest hnil hnodup heqs hop =>
      rw [searchKeys_equal hraw eqs rest hnodup heqs hop, if_neg hnil, if_neg fun hnot => hnil hnot.1]

end IndexScanExecutor

/-! ### The order of the two keys -/

/-- The bytes of a column in a key. -/
structure ColMeta.Fits (col : ColMeta) (part : Bytes) : Prop where
  length : part.length = col.len
  number : col.type ≠ .string → col.len = 4
  notNaN : col.type = .float → floatIsNaN (readWord part) = false

def IndexMeta.ixCols (index : IndexMeta) : IxCols := index.cols.map fun col => (col.type, col.len)

private theorem naNFree_flatten (parts : List (ColMeta × Bytes)) (h : ∀ p ∈ parts, p.1.Fits p.2) :
    NaNFree ((parts.map (·.1)).map fun col => (col.type, col.len)) (parts.map (·.2)).flatten := by
  induction parts with
  | nil => trivial
  | cons p parts ih =>
    have hfits := h p List.mem_cons_self
    rw [List.map_cons, List.map_cons, List.map_cons, List.flatten_cons]
    constructor
    · intro hfloat
      have hfour := hfits.number (by rw [show p.1.type = .float from hfloat]; nofun)
      rw [readWord_append _ (by rw [hfits.length]; omega)]
      exact hfits.notNaN hfloat
    · rw [List.drop_left' hfits.length]
      exact ih fun q hq => h q (List.mem_cons_of_mem _ hq)

/-- A key none of whose columns is above the other's is not above it. -/
private theorem ixCompare_flatten (parts : List (ColMeta × Bytes × Bytes))
    (hlower : ∀ p ∈ parts, p.1.Fits p.2.1) (hupper : ∀ p ∈ parts, p.1.Fits p.2.2)
    (hle : ∀ p ∈ parts, ixCompareCol p.1.type p.1.len p.2.1 p.2.2 ≠ .gt) :
    ixCompare ((parts.map (·.1)).map fun col => (col.type, col.len)) (parts.map (·.2.1)).flatten
      (parts.map (·.2.2)).flatten ≠ .gt := by
  induction parts with
  | nil => simp [ixCompare]
  | cons p parts ih =>
    have hlow := hlower p List.mem_cons_self
    have hup := hupper p List.mem_cons_self
    have hcol := hle p List.mem_cons_self
    have hrest := ih (fun q hq => hlower q (List.mem_cons_of_mem _ hq))
      (fun q hq => hupper q (List.mem_cons_of_mem _ hq)) fun q hq => hle q (List.mem_cons_of_mem _ hq)
    rw [List.map_cons, List.map_cons, List.map_cons, List.map_cons, List.flatten_cons, List.flatten_cons, ixCompare,
      ixCompareCol_append _ _ hlow.length hup.length hlow.number, List.drop_left' hlow.length,
      List.drop_left' hup.length]
    cases hc : ixCompareCol p.1.type p.1.len p.2.1 p.2.2 with
    | lt => simp
    | eq => exact hrest
    | gt => exact absurd hc hcol

private theorem fits_minBytes {col : ColMeta} (hnumber : col.type ≠ .string → col.len = 4) :
    col.Fits col.minBytes := by
  refine ⟨?_, hnumber, ?_⟩
  · unfold ColMeta.minBytes
    cases htype : col.type with
    | int => exact (hnumber (by rw [htype]; nofun)).symm
    | float => exact (hnumber (by rw [htype]; nofun)).symm
    | string => exact List.length_replicate
  · intro hfloat
    unfold ColMeta.minBytes
    rw [hfloat, readWord_wordBytes]
    decide

private theorem fits_maxBytes {col : ColMeta} (hnumber : col.type ≠ .string → col.len = 4) :
    col.Fits col.maxBytes := by
  refine ⟨?_, hnumber, ?_⟩
  · unfold ColMeta.maxBytes
    cases htype : col.type with
    | int => exact (hnumber (by rw [htype]; nofun)).symm
    | float => exact (hnumber (by rw [htype]; nofun)).symm
    | string => exact List.length_replicate
  · intro hfloat
    unfold ColMeta.maxBytes
    rw [hfloat, readWord_wordBytes]
    decide

private theorem minBytes_le_maxBytes (col : ColMeta) :
    ixCompareCol col.type col.len col.minBytes col.maxBytes ≠ .gt := by
  unfold ColMeta.minBytes ColMeta.maxBytes
  cases col.type with
  | int =>
    change compare (readWord _).toInt (readWord _).toInt ≠ .gt
    rw [readWord_wordBytes, readWord_wordBytes]
    decide
  | float =>
    change floatCompare (readWord _) (readWord _) ≠ .gt
    rw [readWord_wordBytes, readWord_wordBytes]
    decide
  | string =>
    change strncmp _ _ _ ≠ .gt
    cases col.len with
    | zero => nofun
    | succ n => exact (by decide : compare (0 : UInt8) 127 ≠ .gt)

namespace IndexScanExecutor

variable {first : String → Option (CompOp × Option Bytes)} {index : IndexMeta} {lower upper : Option Bytes}

/-- The keys of a range are ordered and hold no NaN. -/
theorem SearchRange.ordered (h : SearchRange first index.cols lower upper)
    (hnumber : ∀ col ∈ index.cols, col.type ≠ .string → col.len = 4)
    (hfits : ∀ col ∈ index.cols, ∀ op raw, first col.name = some (op, some raw) → col.Fits raw) :
    (∀ key ∈ lower, NaNFree index.ixCols key) ∧ (∀ key ∈ upper, NaNFree index.ixCols key) ∧
      ∀ low ∈ lower, ∀ up ∈ upper, index.compare low up ≠ .gt := by
  unfold IndexMeta.compare IndexMeta.ixCols
  generalize index.cols = cols at h hnumber hfits
  -- the columns `eqs` with their literals, then defaults for the rest
  have hkey : ∀ (eqs : List (ColMeta × Bytes)) (rest : List ColMeta) (default : ColMeta → Bytes),
      (∀ e ∈ eqs, e.1.Fits e.2) → (∀ col ∈ rest, col.Fits (default col)) →
      NaNFree ((eqs.map (·.1) ++ rest).map fun col => (col.type, col.len))
        ((eqs.map (·.2)).flatten ++ (rest.map default).flatten) := by
    intro eqs rest default heqs hrest
    have := naNFree_flatten (eqs ++ rest.map fun col => (col, default col)) (by
      rw [List.forall_mem_append, List.forall_mem_map]
      exact ⟨heqs, hrest⟩)
    simpa [Function.comp_def] using this
  cases h with
  | unbounded => exact ⟨nofun, nofun, nofun⟩
  | below =>
    refine ⟨nofun, ?_, nofun⟩
    rintro _ ⟨⟩
    exact hkey [] cols ColMeta.maxBytes nofun fun col hcol => fits_maxBytes (hnumber col hcol)
  | @above col rest op raw hfirst hop =>
    refine ⟨?_, nofun, fun _ _ => nofun⟩
    rintro _ ⟨⟩
    have := hkey [(col, raw)] rest ColMeta.minBytes
      (by
        intro e he
        rw [List.mem_singleton.mp he]
        exact hfits col List.mem_cons_self op raw hfirst)
      fun col hcol => fits_minBytes (hnumber col (List.mem_cons_of_mem _ hcol))
    simpa [minKey] using this
  | @equal eqs rest hnil hnodup heqs hop =>
    have hequal : ∀ e ∈ eqs, e.1.Fits e.2 := fun e he =>
      hfits e.1 (List.mem_append_left _ (List.mem_map_of_mem he)) .eq e.2 (heqs e he)
    have hrest : ∀ col ∈ rest, col.type ≠ .string → col.len = 4 := fun col hcol =>
      hnumber col (List.mem_append_right _ hcol)
    refine ⟨?_, ?_, ?_⟩
    · rintro _ ⟨⟩
      exact hkey eqs rest ColMeta.minBytes hequal fun col hcol => fits_minBytes (hrest col hcol)
    · rintro _ ⟨⟩
      exact hkey eqs rest ColMeta.maxBytes hequal fun col hcol => fits_maxBytes (hrest col hcol)
    · rintro _ ⟨⟩ _ ⟨⟩
      have := ixCompare_flatten (eqs.map (fun e => (e.1, e.2, e.2)) ++
        rest.map fun col => (col, col.minBytes, col.maxBytes)) ?_ ?_ ?_
      · simpa [Function.comp_def, minKey, maxKey] using this
      · rw [List.forall_mem_append, List.forall_mem_map, List.forall_mem_map]
        exact ⟨hequal, fun col hcol => fits_minBytes (hrest col hcol)⟩
      · rw [List.forall_mem_append, List.forall_mem_map, List.forall_mem_map]
        exact ⟨hequal, fun col hcol => fits_maxBytes (hrest col hcol)⟩
      · rw [List.forall_mem_append, List.forall_mem_map, List.forall_mem_map]
        refine ⟨fun e he hgt => ?_, fun col _ => minBytes_le_maxBytes col⟩
        have hself := (ixCompareCol_transOn e.1.type e.1.len).swap e.2 e.2 (hequal e he).notNaN (hequal e he).notNaN
        dsimp only at hgt
        rw [hgt] at hself
        cases hself

end IndexScanExecutor
end Rmdb
