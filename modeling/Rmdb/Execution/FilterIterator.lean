import Rmdb.Execution.Iterators

/-! The filter over a child whose current row can be read again. -/
namespace Rmdb
namespace FilterExecutor

section
variable {σ : Type} (prev : AbstractExecutor σ) (conds : List Condition)

def evalConds (record : Bytes) : Except DbError Bool := conds.allM (evalCond prev.cols record)

/-- The conditions on the current row of the child. -/
def evalCurrent (s : σ) : Call DbError (Bool × σ) :=
  if prev.isEnd s then return (false, s)
  else do
    let (record, s) ← prev.get s
    match record with
    | none => return (false, s)
    | some record => return (← Call.ofExcept (evalConds prev conds record), s)

def nextTuple : ℕ → σ → Call DbError σ
  | 0, _ => .unfinished
  | n + 1, s => do
    let s ← prev.advance s
    if prev.isEnd s then return s
    else
      let (passes, s) ← evalCurrent prev conds s
      if passes then return s else nextTuple n s

/-- The child may have begun on a row that does not pass. -/
def next (n : ℕ) (s : σ) : Call DbError (Option Bytes × σ) := do
  let (record, s) ← prev.get s
  match record with
  | none => return (none, s)
  | some record =>
    if ← Call.ofExcept (evalConds prev conds record) then return (some record, s)
    else
      let s ← nextTuple prev conds n s
      if prev.isEnd s then return (none, s) else prev.get s

/-- The filter, whose loop may go on for `n` rounds. -/
def executor (n : ℕ) : AbstractExecutor σ where
  start := prev.start
  isEnd := prev.isEnd
  get := next prev conds n
  advance := nextTuple prev conds n
  cols := prev.cols
  tupleLen := prev.tupleLen

/-! ### What a filter is -/

def Returns (record : Bytes) : Prop := ∃ b, evalConds prev conds record = .ok b

def passes (record : Bytes) : Bool := evalConds prev conds record = .ok true

/-- No row, or else one on which the filter can stop. -/
def Positioned (l : List Bytes) : Prop := ∀ record ∈ l.head?, passes prev conds record = true

end

variable {σ : Type} {prev : AbstractExecutor σ} {conds : List Condition} {rows l : List Bytes} {row : Bytes}
  {Ready : σ → Prop} {At : List Bytes → σ → Prop} {s s' : σ} {n m : ℕ}

theorem passes_iff : passes prev conds row = true ↔ evalConds prev conds row = .ok true := decide_eq_true_iff

theorem evalConds_of_not_passes (h : Returns prev conds row) (hrow : passes prev conds row = false) :
    evalConds prev conds row = .ok false := by
  obtain ⟨b, hb⟩ := h
  cases b with
  | true => exact absurd (passes_iff.mpr hb) (Bool.eq_false_iff.mp hrow)
  | false => exact hb

theorem evalCurrent_eq (conds : List Condition) (h : prev.Obeys rows Ready At At) (hs : At (row :: l) s) :
    ∃ s', At (row :: l) s' ∧ evalCurrent prev conds s =
      (do return (← Call.ofExcept (evalConds prev conds row), s')) := by
  obtain ⟨s', hget, hs'⟩ := h.get row l s hs
  refine ⟨s', hs', ?_⟩
  unfold evalCurrent
  rw [if_neg (Bool.eq_false_iff.mp (h.isEnd_cons hs)), Call.bind_of_eq hget]

section

variable (h : prev.Obeys rows Ready At At)
include h

/-- The loop leaves behind rows that do not pass. -/
theorem nextTuple_inv (hs : At (row :: l) s) (hrun : nextTuple prev conds n s = pure s') :
    ∃ skipped rest, l = skipped ++ rest ∧ (∀ r ∈ skipped, evalConds prev conds r = .ok false) ∧ At rest s' ∧
      Positioned prev conds rest := by
  induction n generalizing row l s with
  | zero => cases hrun
  | succ n ih =>
    obtain ⟨s₁, hadvance, hs₁⟩ := h.advance row l s hs
    unfold nextTuple at hrun
    rw [Call.bind_of_eq hadvance] at hrun
    cases l with
    | nil =>
      rw [if_pos (h.isEnd_nil hs₁)] at hrun
      obtain rfl := Call.pure_inj hrun
      exact ⟨[], [], rfl, List.forall_mem_nil _, hs₁, fun _ hr => nomatch hr⟩
    | cons r l =>
      obtain ⟨s₂, hs₂, hcurrent⟩ := evalCurrent_eq conds h hs₁
      rw [if_neg (Bool.eq_false_iff.mp (h.isEnd_cons hs₁)), hcurrent, bind_assoc, Call.bind_eq_pure] at hrun
      obtain ⟨b, heval, hrun⟩ := hrun
      rw [Call.ofExcept_eq_pure] at heval
      rw [pure_bind] at hrun
      cases b with
      | true =>
        obtain rfl := Call.pure_inj hrun
        refine ⟨[], r :: l, rfl, List.forall_mem_nil _, hs₂, ?_⟩
        intro record hrecord
        obtain rfl := Option.some.inj hrecord
        exact passes_iff.mpr heval
      | false =>
        obtain ⟨skipped, rest, rfl, hskipped, hrest, hpos⟩ := ih hs₂ hrun
        exact ⟨r :: skipped, rest, rfl, List.forall_mem_cons.mpr ⟨heval, hskipped⟩, hrest, hpos⟩

theorem nextTuple_returns (hs : At (row :: l) s) (hl : ∀ r ∈ l, Returns prev conds r) (hn : l.length < n) :
      ∃ s', nextTuple prev conds n s = pure s' := by
  induction l generalizing row s n with
  | nil =>
    obtain ⟨n, rfl⟩ := Nat.exists_eq_succ_of_ne_zero (Nat.ne_of_gt hn)
    obtain ⟨s₁, hadvance, hs₁⟩ := h.advance row [] s hs
    unfold nextTuple
    rw [Call.bind_of_eq hadvance, if_pos (h.isEnd_nil hs₁)]
    exact ⟨s₁, rfl⟩
  | cons r l ih =>
    obtain ⟨n, rfl⟩ := Nat.exists_eq_succ_of_ne_zero (Nat.ne_of_gt (Nat.zero_lt_of_lt hn))
    obtain ⟨s₁, hadvance, hs₁⟩ := h.advance row (r :: l) s hs
    obtain ⟨s₂, hs₂, hcurrent⟩ := evalCurrent_eq conds h hs₁
    obtain ⟨b, hb⟩ := hl r List.mem_cons_self
    unfold nextTuple
    rw [Call.bind_of_eq hadvance, if_neg (Bool.eq_false_iff.mp (h.isEnd_cons hs₁)), hcurrent, hb, Call.ofExcept_ok]
    cases b with
    | true => exact ⟨s₂, rfl⟩
    | false => exact ih hs₂ (fun r' hr' => hl r' (List.mem_cons_of_mem r hr')) (Nat.lt_of_succ_lt_succ hn)

theorem next_of_passes (hs : At (row :: l) s) (hrow : passes prev conds row = true) :
    ∃ s', next prev conds n s = pure (some row, s') ∧ At (row :: l) s' := by
  obtain ⟨s', hget, hs'⟩ := h.get row l s hs
  refine ⟨s', ?_, hs'⟩
  unfold next
  rw [Call.bind_of_eq hget]
  dsimp only
  rw [passes_iff.mp hrow, Call.ofExcept_ok, pure_bind, if_pos rfl]

theorem next_of_not_passes (hs : At (row :: l) s) (heval : evalConds prev conds row = .ok false) :
    ∃ s₁, At (row :: l) s₁ ∧ next prev conds n s = (do
      let s ← nextTuple prev conds n s₁
      if prev.isEnd s then return (none, s) else prev.get s) := by
  obtain ⟨s₁, hget, hs₁⟩ := h.get row l s hs
  refine ⟨s₁, hs₁, ?_⟩
  unfold next
  rw [Call.bind_of_eq hget]
  dsimp only
  rw [heval, Call.ofExcept_ok, pure_bind, if_neg Bool.false_ne_true]

/-- What `Next` returns passes, and all rows before it do not. -/
theorem next_inv (hs : At (row :: l) s) {res : Option Bytes} (hrun : next prev conds n s = pure (res, s')) :
    ∃ skipped rest, row :: l = skipped ++ rest ∧ (∀ r ∈ skipped, evalConds prev conds r = .ok false) ∧ At rest s' ∧
      Positioned prev conds rest ∧ res = rest.head? := by
  cases heval : evalConds prev conds row with
  | error e =>
    obtain ⟨s₁, hget, -⟩ := h.get row l s hs
    unfold next at hrun
    rw [Call.bind_of_eq hget] at hrun
    dsimp only at hrun
    rw [heval] at hrun
    cases hrun
  | ok b =>
    cases b with
    | true =>
      obtain ⟨s₁, hnext, hs₁⟩ := next_of_passes (n := n) h hs (passes_iff.mpr heval)
      obtain ⟨rfl, rfl⟩ := Prod.mk.inj (Call.pure_inj (hnext.symm.trans hrun))
      refine ⟨[], row :: l, rfl, List.forall_mem_nil _, hs₁, ?_, rfl⟩
      intro record hrecord
      rw [← Option.some.inj hrecord]
      exact passes_iff.mpr heval
    | false =>
      obtain ⟨s₁, hs₁, hnext⟩ := next_of_not_passes (n := n) h hs heval
      rw [hnext, Call.bind_eq_pure] at hrun
      obtain ⟨s₂, hloop, hrun⟩ := hrun
      obtain ⟨skipped, rest, rfl, hskipped, hs₂, hpos⟩ := nextTuple_inv h hs₁ hloop
      refine ⟨row :: skipped, rest, rfl, List.forall_mem_cons.mpr ⟨heval, hskipped⟩, ?_⟩
      cases rest with
      | nil =>
        rw [if_pos (h.isEnd_nil hs₂)] at hrun
        obtain ⟨rfl, rfl⟩ := Prod.mk.inj (Call.pure_inj hrun)
        exact ⟨hs₂, hpos, rfl⟩
      | cons r rest =>
        obtain ⟨s₃, hget, hs₃⟩ := h.get r rest s₂ hs₂
        rw [if_neg (Bool.eq_false_iff.mp (h.isEnd_cons hs₂))] at hrun
        obtain ⟨rfl, rfl⟩ := Prod.mk.inj (Call.pure_inj (hget.symm.trans hrun))
        exact ⟨hs₃, hpos, rfl⟩

theorem next_returns (hs : At (row :: l) s) (hl : ∀ r ∈ row :: l, Returns prev conds r) (hn : l.length < n) :
    ∃ res s', next prev conds n s = pure (res, s') := by
  cases hrow : passes prev conds row with
  | true =>
    obtain ⟨s', hnext, -⟩ := next_of_passes (n := n) h hs hrow
    exact ⟨some row, s', hnext⟩
  | false =>
    have heval := evalConds_of_not_passes (hl row List.mem_cons_self) hrow
    obtain ⟨s₁, hs₁, hnext⟩ := next_of_not_passes (n := n) h hs heval
    obtain ⟨s₂, hloop⟩ := nextTuple_returns h hs₁ (fun r hr => hl r (List.mem_cons_of_mem row hr)) hn
    obtain ⟨skipped, rest, -, -, hs₂, -⟩ := nextTuple_inv h hs₁ hloop
    rw [hnext, Call.bind_of_eq hloop]
    cases rest with
    | nil =>
      rw [if_pos (h.isEnd_nil hs₂)]
      exact ⟨none, s₂, rfl⟩
    | cons r rest =>
      obtain ⟨s₃, hget, -⟩ := h.get r rest s₂ hs₂
      rw [if_neg (Bool.eq_false_iff.mp (h.isEnd_cons hs₂))]
      exact ⟨some r, s₃, hget⟩

end

theorem filter_skipped {skipped : List Bytes} (h : ∀ r ∈ skipped, evalConds prev conds r = .ok false)
    (rest : List Bytes) : (skipped ++ rest).filter (passes prev conds) = rest.filter (passes prev conds) := by
  have hnone : skipped.filter (passes prev conds) = [] := by
    apply List.filter_eq_nil_iff.mpr
    intro r hr hpass
    rw [passes_iff, h r hr] at hpass
    cases hpass
  rw [List.filter_append, hnone, List.nil_append]

/-- `Next` shows the first row of what is left of the child's rows. -/
def FilterAt (prev : AbstractExecutor σ) (conds : List Condition) (rows : List Bytes) (At : List Bytes → σ → Prop)
    (n : ℕ) (l : List Bytes) (s : σ) : Prop :=
  prev.isEnd s = true ∧ l = [] ∨ ∃ row rest s', row :: rest <:+ rows ∧ prev.isEnd s = false ∧
    next prev conds n s = pure (some row, s') ∧ At (row :: rest) s' ∧ l = row :: rest.filter (passes prev conds)

def FilterTaken (prev : AbstractExecutor σ) (conds : List Condition) (rows : List Bytes) (At : List Bytes → σ → Prop)
    (l : List Bytes) (s : σ) : Prop :=
  ∃ row rest, row :: rest <:+ rows ∧ At (row :: rest) s ∧ l = row :: rest.filter (passes prev conds)

section

variable (h : prev.Obeys rows Ready At At)
include h

theorem filterAt_of_at {rest : List Bytes} (hs : At rest s) (hrest : rest <:+ rows)
    (hpos : Positioned prev conds rest) : FilterAt prev conds rows At n (rest.filter (passes prev conds)) s := by
  cases rest with
  | nil => exact Or.inl ⟨h.isEnd_nil hs, rfl⟩
  | cons row rest =>
    have hrow := hpos row rfl
    obtain ⟨s', hnext, hs'⟩ := next_of_passes (n := n) h hs hrow
    exact Or.inr ⟨row, rest, s', hrest, h.isEnd_cons hs, hnext, hs', List.filter_cons_of_pos hrow⟩

theorem filterAt_first (hreturns : ∀ r ∈ rows, Returns prev conds r)
    (hsome : rows = [] ∨ ∃ r ∈ rows, passes prev conds r = true) (hs : At rows s) (hn : rows.length < n) :
    FilterAt prev conds rows At n (rows.filter (passes prev conds)) s := by
  cases rows with
  | nil => exact Or.inl ⟨h.isEnd_nil hs, rfl⟩
  | cons row l =>
    obtain ⟨res, s', hnext⟩ := next_returns h hs hreturns (Nat.lt_of_succ_lt hn)
    obtain ⟨skipped, rest, hsplit, hskipped, hs', hpos, rfl⟩ := next_inv h hs hnext
    have hfilter : (row :: l).filter (passes prev conds) = rest.filter (passes prev conds) := by
      rw [hsplit]
      exact filter_skipped hskipped rest
    cases rest with
    | nil =>
      obtain ⟨r, hr, hpass⟩ := hsome.resolve_left (List.cons_ne_nil row l)
      have hmem := List.mem_filter.mpr ⟨hr, hpass⟩
      rw [hfilter] at hmem
      exact absurd hmem List.not_mem_nil
    | cons r rest =>
      refine Or.inr ⟨r, rest, s', ⟨skipped, hsplit.symm⟩, h.isEnd_cons hs, hnext, hs', ?_⟩
      rw [hfilter]
      exact List.filter_cons_of_pos (hpos r rfl)

theorem obeys_executor (hreturns : ∀ r ∈ rows, Returns prev conds r)
    (hsome : rows = [] ∨ ∃ r ∈ rows, passes prev conds r = true) (hn : rows.length < n) :
    (executor prev conds n).Obeys (rows.filter (passes prev conds)) Ready (FilterAt prev conds rows At n)
      (FilterTaken prev conds rows At) where
  start s hs := by
    obtain ⟨s', hstart, hs'⟩ := h.start s hs
    exact ⟨s', hstart, filterAt_first h hreturns hsome hs' hn⟩
  isEnd l s hs := by
    cases hs with
    | inl hend => exact iff_of_true hend.1 hend.2
    | inr hrow =>
      obtain ⟨row, rest, s', -, hend, -, -, rfl⟩ := hrow
      exact iff_of_false (Bool.eq_false_iff.mp hend) (List.cons_ne_nil _ _)
  get r l s hs := by
    cases hs with
    | inl hend => exact absurd hend.2 (List.cons_ne_nil r l)
    | inr hrow =>
      obtain ⟨row, rest, s', hsuffix, -, hnext, hs', hl⟩ := hrow
      obtain ⟨rfl, rfl⟩ := List.cons.inj hl
      exact ⟨s', hnext, r, rest, hsuffix, hs', rfl⟩
  advance r l s hs := by
    obtain ⟨row, rest, hsuffix, hs, hl⟩ := hs
    obtain ⟨rfl, rfl⟩ := List.cons.inj hl
    have hlen := hsuffix.length_le
    have hrest : ∀ r' ∈ rest, Returns prev conds r' :=
      fun r' hr' => hreturns r' (hsuffix.subset (List.mem_cons_of_mem r hr'))
    obtain ⟨s', hloop⟩ := nextTuple_returns h hs hrest (Nat.lt_trans (Nat.lt_of_succ_le hlen) hn)
    obtain ⟨skipped, left, rfl, hskipped, hs', hpos⟩ := nextTuple_inv h hs hloop
    refine ⟨s', hloop, ?_⟩
    rw [filter_skipped hskipped]
    exact filterAt_of_at h hs' (((List.suffix_append skipped left).trans (List.suffix_cons r _)).trans hsuffix) hpos

/-- Callers reach states with the child at its first row, or at a row that passes, or at its end. -/
theorem at_of_reached (hs : Ready s) (hreached : (executor prev conds n).Reached s s') :
    ∃ l, At l s' ∧ l <:+ rows ∧ (l = rows ∨ Positioned prev conds l) := by
  induction hreached with
  | start hstart =>
    obtain ⟨s₁, hs₁, hat⟩ := h.start s hs
    obtain rfl := Call.pure_inj (hs₁.symm.trans hstart)
    exact ⟨rows, hat, List.suffix_rfl, Or.inl rfl⟩
  | get _ hend hget ih =>
    obtain ⟨l, hat, hsuffix, -⟩ := ih
    cases l with
    | nil => exact absurd (h.isEnd_nil hat) (Bool.eq_false_iff.mp hend)
    | cons row l =>
      obtain ⟨skipped, rest, hsplit, -, hat', hpos, -⟩ := next_inv h hat hget
      exact ⟨rest, hat', List.IsSuffix.trans ⟨skipped, hsplit.symm⟩ hsuffix, Or.inr hpos⟩
  | advance _ hend hadvance ih =>
    obtain ⟨l, hat, hsuffix, -⟩ := ih
    cases l with
    | nil => exact absurd (h.isEnd_nil hat) (Bool.eq_false_iff.mp hend)
    | cons row l =>
      obtain ⟨skipped, rest, rfl, -, hat', hpos⟩ := nextTuple_inv h hat hadvance
      exact ⟨rest, hat', ((List.suffix_append skipped rest).trans (List.suffix_cons row _)).trans hsuffix, Or.inr hpos⟩

theorem shows_of_reached (hreturns : ∀ r ∈ rows, Returns prev conds r)
    (hsome : rows = [] ∨ ∃ r ∈ rows, passes prev conds r = true) (hn : rows.length < n) (hs : Ready s)
    (hreached : (executor prev conds n).Reached s s') (hend : prev.isEnd s' = false) :
    ∃ row t, next prev conds n s' = pure (some row, t) ∧ passes prev conds row = true := by
  obtain ⟨l, hat, hsuffix, hpos⟩ := at_of_reached h hs hreached
  have hshows : FilterAt prev conds rows At n (l.filter (passes prev conds)) s' := by
    cases hpos with
    | inl hall =>
      subst hall
      exact filterAt_first h hreturns hsome hat hn
    | inr hpos => exact filterAt_of_at h hat hsuffix hpos
  cases hshows with
  | inl hnone => exact absurd hnone.1 (Bool.eq_false_iff.mp hend)
  | inr hrow =>
    obtain ⟨row, rest, t, -, -, hnext, -, hl⟩ := hrow
    have hmem : row ∈ l.filter (passes prev conds) := by
      rw [hl]
      exact List.mem_cons_self
    exact ⟨row, t, hnext, (List.mem_filter.mp hmem).2⟩

theorem returns_of_collect (hs : At l s) {out : List (Option Bytes)}
    (hrun : (executor prev conds n).collect m s = pure out) : ∀ r ∈ l, Returns prev conds r := by
  induction m generalizing l s out with
  | zero => cases hrun
  | succ m ih =>
    cases l with
    | nil => exact List.forall_mem_nil _
    | cons row l =>
      unfold Cursor.collect at hrun
      have hend : (executor prev conds n).isEnd s = false := h.isEnd_cons hs
      rw [if_neg (Bool.eq_false_iff.mp hend), Call.bind_eq_pure] at hrun
      obtain ⟨⟨res, s₁⟩, hnext, hrun⟩ := hrun
      rw [Call.bind_eq_pure] at hrun
      obtain ⟨s₂, hadvance, hrun⟩ := hrun
      rw [Call.bind_eq_pure] at hrun
      obtain ⟨out, hcollect, -⟩ := hrun
      obtain ⟨skipped, rest, hsplit, hskipped, hs₁, hpos, -⟩ := next_inv h hs hnext
      rw [hsplit, List.forall_mem_append]
      refine ⟨fun r hr => ⟨false, hskipped r hr⟩, ?_⟩
      cases rest with
      | nil => exact List.forall_mem_nil _
      | cons r rest =>
        obtain ⟨skipped', rest', rfl, hskipped', hs₂, -⟩ := nextTuple_inv h hs₁ hadvance
        rw [List.forall_mem_cons, List.forall_mem_append]
        exact ⟨⟨true, passes_iff.mp (hpos r rfl)⟩, fun r hr => ⟨false, hskipped' r hr⟩, ih hs₂ hcollect⟩

end

/-- The filter keeps to the protocol if no condition throws and there is a row that passes, or no row at all. -/
theorem keeps_protocol_iff (h : prev.Obeys rows Ready At At) (hs : Ready s) (hn : rows.length < n)
    (hm : rows.length < m) :
    ((∀ t, (executor prev conds n).Reached s t → (executor prev conds n).isEnd t = false →
        ∃ row t', (executor prev conds n).get t = pure (some row, t') ∧ evalConds prev conds row = .ok true) ∧
      (executor prev conds n).drive m s = pure ((rows.filter fun row =>
        evalConds prev conds row = .ok true).map some)) ↔
    (∀ row ∈ rows, ∃ b, evalConds prev conds row = .ok b) ∧
      (rows = [] ∨ ∃ row ∈ rows, evalConds prev conds row = .ok true) := by
  constructor
  · rintro ⟨hshows, hdrive⟩
    obtain ⟨s₁, hstart, hs₁⟩ := h.start s hs
    unfold Cursor.drive at hdrive
    rw [Call.bind_eq_pure] at hdrive
    obtain ⟨s₂, hstart', hcollect⟩ := hdrive
    obtain rfl := Call.pure_inj (hstart.symm.trans hstart')
    refine ⟨returns_of_collect h hs₁ hcollect, ?_⟩
    cases rows with
    | nil => exact Or.inl rfl
    | cons r l =>
      right
      obtain ⟨row, t, hnext, hrow⟩ := hshows s₁ (.start hstart) (h.isEnd_cons hs₁)
      obtain ⟨skipped, rest, hsplit, -, -, -, hhead⟩ := next_inv h hs₁ hnext
      refine ⟨row, ?_, hrow⟩
      rw [hsplit]
      exact List.mem_append_right skipped (List.mem_of_head? hhead.symm)
  · rintro ⟨hreturns, hsome⟩
    have hpass : rows = [] ∨ ∃ r ∈ rows, passes prev conds r = true := by
      apply hsome.imp_right
      rintro ⟨r, hr, heval⟩
      exact ⟨r, hr, passes_iff.mpr heval⟩
    constructor
    · intro t ht hend
      obtain ⟨row, t', hnext, hrow⟩ := shows_of_reached h hreturns hpass hn hs ht hend
      exact ⟨row, t', hnext, passes_iff.mp hrow⟩
    · apply (obeys_executor h hreturns hpass hn).drive hs
      exact Nat.lt_of_le_of_lt (List.length_filter_le _ rows) hm

/-- The first of two rows does not pass, and the second one is shown in its place. -/
theorem keeps_protocol_two :
    let prev := AbstractExecutor.ofRows [⟨⟨"a", .int, 4, 0⟩, "t"⟩] 4 [wordBytes 1, wordBytes 2]
    let conds : List Condition := [⟨⟨"t", "a"⟩, .eq, .val (.int 2) (some (wordBytes 2))⟩]
    (∀ t, (executor prev conds 3).Reached [] t → (executor prev conds 3).isEnd t = false →
        ∃ row t', (executor prev conds 3).get t = pure (some row, t') ∧ evalConds prev conds row = .ok true) ∧
      (executor prev conds 3).drive 3 [] = pure [some (wordBytes 2)] := by
  intro prev conds
  have hprev : prev.Obeys [wordBytes 1, wordBytes 2] (fun _ => True) (fun l s => s = l) (fun l s => s = l) :=
    Cursor.obeys_ofList DbError [wordBytes 1, wordBytes 2]
  have hone : evalConds prev conds (wordBytes 1) = .ok false := rfl
  have htwo : evalConds prev conds (wordBytes 2) = .ok true := rfl
  have hfilter :
      ([wordBytes 1, wordBytes 2].filter fun row => evalConds prev conds row = .ok true) = [wordBytes 2] := by
    rw [List.filter_cons_of_neg, List.filter_cons_of_pos, List.filter_nil]
    · exact decide_eq_true htwo
    · rw [hone]
      decide
  have h := (keeps_protocol_iff (s := []) (n := 3) (m := 3) hprev trivial (by decide) (by decide)).mpr
    ⟨List.forall_mem_cons.mpr ⟨⟨false, hone⟩, List.forall_mem_singleton.mpr ⟨true, htwo⟩⟩,
      Or.inr ⟨wordBytes 2, List.mem_cons_of_mem _ List.mem_cons_self, htwo⟩⟩
  rw [hfilter] at h
  exact h

/-- A single row does not pass. The filter says that it is not at its end, and `Next` returns nothing. -/
theorem not_keeps_protocol_one :
    let prev := AbstractExecutor.ofRows [⟨⟨"a", .int, 4, 0⟩, "t"⟩] 4 [wordBytes 1]
    let conds : List Condition := [⟨⟨"t", "a"⟩, .eq, .val (.int 2) (some (wordBytes 2))⟩]
    ¬((∀ t, (executor prev conds 3).Reached [] t → (executor prev conds 3).isEnd t = false →
        ∃ row t', (executor prev conds 3).get t = pure (some row, t') ∧ evalConds prev conds row = .ok true) ∧
      (executor prev conds 3).drive 3 [] =
        pure (([wordBytes 1].filter fun row => evalConds prev conds row = .ok true).map some)) := by
  intro prev conds
  rintro ⟨hshows, -⟩
  obtain ⟨row, t', hget, -⟩ := hshows [wordBytes 1] (.start rfl) rfl
  have hnone : (executor prev conds 3).get [wordBytes 1] = pure (none, []) := rfl
  exact Option.some_ne_none row (Prod.mk.inj (Call.pure_inj (hget.symm.trans hnone))).1

end FilterExecutor
end Rmdb
