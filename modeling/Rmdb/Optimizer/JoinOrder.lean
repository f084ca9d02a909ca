import Rmdb.Execution.SelectAnswer

/-! Which conditions the planner gives to which scan and to which join. -/
namespace Rmdb.Planner

open Query

/-! ### The greedy order -/

section
variable {rowCount : String → ℤ} {entry : String × Plan} {entries rest : List (String × Plan)} {n : ℕ}

theorem takeMin_perm :
    ((takeMin rowCount entry rest).1 :: (takeMin rowCount entry rest).2).Perm (entry :: rest) := by
  induction rest generalizing entry with
  | nil => exact .refl _
  | cons next rest ih =>
    rw [takeMin]
    dsimp only
    split
    · exact (List.Perm.swap _ _ _).trans (ih.cons entry)
    · exact .refl _

theorem greedyFrom_perm (h : entries.length ≤ n) : (greedyFrom rowCount n entries).Perm entries := by
  induction n generalizing entries with
  | zero =>
    obtain rfl : entries = [] := List.length_eq_zero_iff.mp (by omega)
    exact .refl _
  | succ n ih =>
    cases entries with
    | nil => exact .refl _
    | cons entry rest =>
      have hperm : ((takeMin rowCount entry rest).1 :: (takeMin rowCount entry rest).2).Perm (entry :: rest) := takeMin_perm
      have hlen := hperm.length_eq
      rw [List.length_cons, List.length_cons] at hlen
      rw [List.length_cons] at h
      rw [greedyFrom]
      exact ((ih (by omega)).cons _).trans hperm

/-- The greedy order loses no table. -/
theorem greedyOrder_perm : (greedyOrder rowCount entries).Perm entries := greedyFrom_perm le_rfl

/-- Only the tables' names count. -/
theorem greedyOrder_map {g : String × Plan → String × Plan} (hg : ∀ entry, (g entry).1 = entry.1) :
    greedyOrder rowCount (entries.map g) = (greedyOrder rowCount entries).map g := by
  have htake : ∀ rest entry, takeMin rowCount (g entry) (rest.map g) =
      (g (takeMin rowCount entry rest).1, (takeMin rowCount entry rest).2.map g) := by
    intro rest
    induction rest with
    | nil => exact fun _ => rfl
    | cons next rest ih =>
      intro entry
      rw [List.map_cons, takeMin, takeMin, ih]
      dsimp only
      rw [hg, hg]
      split
      · rfl
      · rfl
  have hfrom : ∀ n entries, greedyFrom rowCount n (entries.map g) = (greedyFrom rowCount n entries).map g := by
    intro n
    induction n with
    | zero => exact fun _ => rfl
    | succ n ih =>
      intro entries
      cases entries with
      | nil => rfl
      | cons entry rest =>
        rw [List.map_cons, greedyFrom, greedyFrom, htake]
        dsimp only
        rw [ih, List.map_cons]
  unfold greedyOrder
  rw [hfrom, List.length_map]

end

/-! ### The conditions of the scans -/

section
variable {tab : String} {tabs : List String} {cond : Condition} {conds : List Condition}

theorem popped_eq : popped tab cond =
    (!crossTable cond && if isColCond cond then true else cond.lhsCol.tabName = tab) := by
  unfold popped crossTable isColCond
  cases cond.rhs with
  | val val raw => simp
  | col rhsCol => simp

/-- The first table takes every condition between columns of one table, the later ones only their literals. -/
theorem popConds_fst (hnodup : tabs.Nodup) : (popConds tabs conds).1 = tabs.map fun tab => (tab, conds.filter fun cond =>
    !crossTable cond && if isColCond cond then tabs.head? = some tab else cond.lhsCol.tabName = tab) := by
  induction tabs generalizing conds with
  | nil => rfl
  | cons tab tabs ih =>
    rw [List.nodup_cons] at hnodup
    rw [popConds]
    dsimp only
    rw [List.map_cons, ih hnodup.2]
    congr 1
    · rw [Prod.mk.injEq]
      refine ⟨rfl, List.filter_congr fun cond _ => ?_⟩
      rw [popped_eq]
      simp
    · refine List.map_congr_left fun tab' htab' => ?_
      have hne : tab ≠ tab' := fun heq => hnodup.1 (heq ▸ htab')
      rw [Prod.mk.injEq, List.filter_filter]
      refine ⟨rfl, List.filter_congr fun cond _ => ?_⟩
      rw [popped_eq]
      cases crossTable cond with
      | true => rfl
      | false =>
        cases isColCond cond with
        | true => simp [hne]
        | false =>
          by_cases htab : cond.lhsCol.tabName = tab'
          · simp [htab, hne.symm]
          · simp [htab]

/-- What is left is between tables. -/
theorem popConds_snd (h : ∀ cond ∈ conds, crossTable cond = false →
      isColCond cond = true ∧ tabs ≠ [] ∨ cond.lhsCol.tabName ∈ tabs) :
    (popConds tabs conds).2 = conds.filter crossTable := by
  induction tabs generalizing conds with
  | nil =>
    refine (List.filter_eq_self.mpr fun cond hcond => ?_).symm
    cases hcross : crossTable cond with
    | true => rfl
    | false =>
      rcases h cond hcond hcross with ⟨-, hne⟩ | hmem
      · exact absurd rfl hne
      · cases hmem
  | cons tab tabs ih =>
    rw [popConds]
    dsimp only
    rw [ih, List.filter_filter]
    · refine List.filter_congr fun cond _ => ?_
      rw [popped_eq]
      cases crossTable cond with
      | true => rfl
      | false => rfl
    · intro cond hcond hcross
      obtain ⟨hmem, hpopped⟩ := List.mem_filter.mp hcond
      rw [popped_eq, hcross] at hpopped
      cases hcol : isColCond cond with
      | true =>
        rw [hcol] at hpopped
        cases hpopped
      | false =>
        rw [hcol] at hpopped
        refine .inr ?_
        rcases h cond hmem hcross with ⟨hcol', -⟩ | hmem
        · rw [hcol] at hcol'
          cases hcol'
        · exact (List.mem_cons.mp hmem).resolve_left (by simpa using hpopped)

end

/-! ### The conditions of the joins -/

theorem between_iff {tabs : List String} {cond : Condition} :
    between tabs cond = true ↔ crossTable cond = true ∧ ∀ col ∈ condCols cond, col.tabName ∈ tabs := by
  simp [between]

section
variable {tab : String} {lefts tabs : List String} {cond : Condition} {conds : List Condition}
  {plan : Plan} {entries : List (String × Plan)}

theorem crossTable_eq_true : crossTable cond = true ↔
    ∃ rhsCol, cond.rhs = .col rhsCol ∧ cond.lhsCol.tabName ≠ rhsCol.tabName := by
  unfold crossTable
  cases cond.rhs with
  | val val raw => simp
  | col rhsCol => simp

theorem between_singleton : between [tab] cond = false := by
  cases h : between [tab] cond with
  | false => rfl
  | true =>
    obtain ⟨hcross, hcols⟩ := between_iff.mp h
    obtain ⟨rhsCol, hrhs, hne⟩ := crossTable_eq_true.mp hcross
    unfold condCols at hcols
    rw [hrhs] at hcols
    have hlhs := List.mem_singleton.mp (hcols cond.lhsCol List.mem_cons_self)
    have hrhs := List.mem_singleton.mp (hcols rhsCol (List.mem_cons_of_mem _ List.mem_cons_self))
    exact absurd (hlhs.trans hrhs.symm) hne

/-- A join gets the conditions that its new table completes. -/
theorem connects_eq (htab : tab ∉ lefts) :
    connects tab lefts cond = (!between lefts cond && between (lefts ++ [tab]) cond) := by
  unfold connects between crossTable condCols
  cases cond.rhs with
  | val val raw => rfl
  | col rhsCol =>
    rw [Bool.eq_iff_iff]
    by_cases hlhs : cond.lhsCol.tabName = tab
    · by_cases hrhs : rhsCol.tabName = tab
      · simp [hlhs, hrhs, htab]
      · simp [hlhs, hrhs, htab, Ne.symm hrhs]
    · by_cases hrhs : rhsCol.tabName = tab
      · simp [hlhs, hrhs, htab]
      · simp only [hlhs, hrhs, List.contains_append, List.contains_cons, List.contains_nil]
        simp
        tauto

theorem between_append (h : between lefts cond = true) : between (lefts ++ tabs) cond = true := by
  rw [between_iff] at h ⊢
  exact ⟨h.1, fun col hcol => List.mem_append_left _ (h.2 col hcol)⟩

/-- Taking the conditions away as they are used leaves each join the same ones. -/
theorem joinFrom_eq_joinOn (hnodup : (lefts ++ entries.map (·.1)).Nodup)
    (hwithin : ∀ cond ∈ conds, between (lefts ++ entries.map (·.1)) cond = true) :
    joinFrom (conds.filter fun cond => !between lefts cond) plan lefts entries = joinOn conds plan lefts entries := by
  induction entries generalizing plan lefts with
  | nil => rfl
  | cons entry rest ih =>
    obtain ⟨tab, scan⟩ := entry
    rw [List.map_cons, List.append_cons] at hnodup hwithin
    have htab : tab ∉ lefts := by
      have hleft := (List.nodup_append.mp hnodup).1
      exact fun h => (List.nodup_append.mp hleft).2.2 tab h tab List.mem_cons_self rfl
    have hjoin : (conds.filter fun cond => !between lefts cond).filter (connects tab lefts) =
        conds.filter (connects tab lefts) := by
      rw [List.filter_filter]
      refine List.filter_congr fun cond _ => ?_
      rw [connects_eq htab]
      cases between lefts cond with
      | true => rfl
      | false => simp
    have hleft : ((conds.filter fun cond => !between lefts cond).filter fun cond => !connects tab lefts cond) =
        conds.filter fun cond => !between (lefts ++ [tab]) cond := by
      rw [List.filter_filter]
      refine List.filter_congr fun cond _ => ?_
      rw [connects_eq htab]
      cases hbetween : between lefts cond with
      | true => simp [between_append hbetween]
      | false => simp
    cases rest with
    | nil =>
      have hnil : (conds.filter fun cond => !between (lefts ++ [tab]) cond) = [] := by
        refine List.filter_eq_nil_iff.mpr fun cond hcond => ?_
        have hbetween := hwithin cond hcond
        rw [List.map_nil, List.append_nil] at hbetween
        simp [hbetween]
      rw [joinFrom, joinOn, joinOn]
      rw [hjoin, hleft, hnil, List.filter_nil, List.append_nil]
    | cons next rest =>
      rw [joinFrom, joinOn]
      rw [hjoin, hleft]
      exact ih hnodup hwithin

end
end Rmdb.Planner
