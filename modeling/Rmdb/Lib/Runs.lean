import Mathlib.Tactic.Common

/-! Runs of a machine that takes one call after another and may fail to return from one. -/
namespace Runs

variable {σ ι : Type*} {step : ι → σ → Option σ} {good : σ → ι → σ → Prop} {meets : ι → σ → Prop}
  {s : σ} {call : ι} {calls : List ι}

def run (step : ι → σ → Option σ) : List ι → σ → Option σ
  | [], s => some s
  | call :: calls, s => (step call s).bind (run step calls)

/-- Every call returns, and each is good between the states before and after it. -/
def Throughout (step : ι → σ → Option σ) (good : σ → ι → σ → Prop) : List ι → σ → Prop
  | [], _ => True
  | call :: calls, s => ∃ s', step call s = some s' ∧ good s call s' ∧ Throughout step good calls s'

/-- Every call meets a condition in the state before it. -/
def AllMeet (step : ι → σ → Option σ) (meets : ι → σ → Prop) : List ι → σ → Prop
  | [], _ => True
  | call :: calls, s => meets call s ∧ ∀ s', step call s = some s' → AllMeet step meets calls s'

instance decidableAllMeet [∀ call s, Decidable (meets call s)] :
    ∀ (calls : List ι) (s : σ), Decidable (AllMeet step meets calls s)
  | [], _ => isTrue trivial
  | call :: calls, s =>
    match hstep : step call s with
    | none => decidable_of_iff (meets call s) <| by
        simp only [AllMeet, hstep, reduceCtorEq, false_imp_iff, implies_true, and_true]
    | some s' =>
      have := decidableAllMeet calls s'
      decidable_of_iff (meets call s ∧ AllMeet step meets calls s') <| by
        simp only [AllMeet, hstep, Option.some.injEq, forall_eq']

theorem allMeet_cons {next : ι → σ → σ} (hmeets : meets call s)
    (hrest : AllMeet (fun call s => some (next call s)) meets calls (next call s)) :
    AllMeet (fun call s => some (next call s)) meets (call :: calls) s :=
  ⟨hmeets, fun _ hs' => Option.some.inj hs' ▸ hrest⟩

/-- Where calls that meet the condition are good and keep the invariant, and the others are not good,
a run of allowed calls is good throughout just when all its calls meet the condition. -/
theorem throughout_iff_of_allowed {inv : σ → Prop} {allowed : ι → σ → Prop}
    (hgood : ∀ s call, inv s → allowed call s → meets call s → ∃ s', step call s = some s' ∧ good s call s' ∧ inv s')
    (hbad : ∀ s call, inv s → allowed call s → ¬meets call s → ∀ s', step call s = some s' → ¬good s call s')
    (calls : List ι) (hinv : inv s) (hallowed : AllMeet step allowed calls s) :
    Throughout step good calls s ↔ AllMeet step meets calls s := by
  induction calls generalizing s with
  | nil => exact iff_of_true trivial trivial
  | cons call calls ih =>
    by_cases hmeets : meets call s
    · obtain ⟨s', hstep, hcall, hinv'⟩ := hgood s call hinv hallowed.1 hmeets
      have hrest := ih hinv' (hallowed.2 s' hstep)
      constructor
      · intro ⟨t, ht, _, h⟩
        refine ⟨hmeets, fun u hu => ?_⟩
        obtain rfl := Option.some.inj (hstep.symm.trans ht)
        obtain rfl := Option.some.inj (hstep.symm.trans hu)
        exact hrest.mp h
      · intro ⟨_, h⟩
        exact ⟨s', hstep, hcall, hrest.mpr (h s' hstep)⟩
    · constructor
      · intro ⟨t, ht, hcall, _⟩
        exact absurd hcall (hbad s call hinv hallowed.1 hmeets t ht)
      · intro ⟨h, _⟩
        exact absurd h hmeets

theorem allMeet_true (calls : List ι) (s : σ) : AllMeet step (fun _ _ => True) calls s := by
  induction calls generalizing s with
  | nil => trivial
  | cons call calls ih => exact ⟨trivial, fun s' _ => ih s'⟩

theorem throughout_iff {inv : σ → Prop}
    (hgood : ∀ s call, inv s → meets call s → ∃ s', step call s = some s' ∧ good s call s' ∧ inv s')
    (hbad : ∀ s call, inv s → ¬meets call s → ∀ s', step call s = some s' → ¬good s call s')
    (calls : List ι) (hinv : inv s) : Throughout step good calls s ↔ AllMeet step meets calls s :=
  throughout_iff_of_allowed (fun s call hinv _ => hgood s call hinv) (fun s call hinv _ => hbad s call hinv) calls hinv
    (allMeet_true calls s)

/-- Where the calls that meet a condition return, keep an invariant and are good, so are the runs of them. -/
theorem throughout_of_allMeet {inv : σ → Prop}
    (hgood : ∀ s call, inv s → meets call s → ∃ s', step call s = some s' ∧ good s call s' ∧ inv s') (hinv : inv s)
    (hmeets : AllMeet step meets calls s) : Throughout step good calls s := by
  induction calls generalizing s with
  | nil => trivial
  | cons call calls ih =>
    obtain ⟨s', hs', hcall, hinv'⟩ := hgood s call hinv hmeets.1
    exact ⟨s', hs', hcall, ih hinv' (hmeets.2 s' hs')⟩

/-- Every call that returns is good. -/
def Along (step : ι → σ → Option σ) (good : σ → ι → σ → Prop) : List ι → σ → Prop
  | [], _ => True
  | call :: calls, s => ∀ s', step call s = some s' → good s call s' ∧ Along step good calls s'

/-- Where the calls that meet a condition keep an invariant and are good, a run of them is good. -/
theorem along_of_allMeet {inv : σ → Prop}
    (hstep : ∀ s call s', inv s → meets call s → step call s = some s' → good s call s' ∧ inv s') (hinv : inv s)
    (hmeets : AllMeet step meets calls s) : Along step good calls s := by
  induction calls generalizing s with
  | nil => trivial
  | cons call calls ih =>
    intro s' hs'
    obtain ⟨hgood, hinv'⟩ := hstep s call s' hinv hmeets.1 hs'
    exact ⟨hgood, ih hinv' (hmeets.2 s' hs')⟩

/-- Where the calls that meet a condition keep an invariant and are good, and the others return and are not good,
a run is good as far as it goes just when all its calls meet the condition. -/
theorem along_iff {inv : σ → Prop}
    (hgood : ∀ s call s', inv s → meets call s → step call s = some s' → good s call s' ∧ inv s')
    (hbad : ∀ s call, inv s → ¬meets call s → ∃ s', step call s = some s' ∧ ¬good s call s') (hinv : inv s) :
    Along step good calls s ↔ AllMeet step meets calls s := by
  constructor
  · intro halong
    induction calls generalizing s with
    | nil => trivial
    | cons call calls ih =>
      by_cases hmeets : meets call s
      · exact ⟨hmeets, fun s' hs' => ih (hgood s call s' hinv hmeets hs').2 (halong s' hs').2⟩
      · obtain ⟨s', hs', hnot⟩ := hbad s call hinv hmeets
        exact absurd (halong s' hs').1 hnot
  · exact along_of_allMeet hgood hinv

/-- Calls that keep an invariant where they meet a condition all return. -/
theorem run_inv {inv : σ → Prop}
    (hstep : ∀ s call, inv s → meets call s → ∃ s', step call s = some s' ∧ inv s') (hinv : inv s)
    (hmeets : AllMeet step meets calls s) : ∃ s', run step calls s = some s' ∧ inv s' := by
  induction calls generalizing s with
  | nil => exact ⟨s, rfl, hinv⟩
  | cons call calls ih =>
    obtain ⟨hcall, hrest⟩ := hmeets
    obtain ⟨s', hs', hinv'⟩ := hstep s call hinv hcall
    obtain ⟨t, hrun, ht⟩ := ih hinv' (hrest s' hs')
    refine ⟨t, ?_, ht⟩
    rw [run, hs', Option.bind_some, hrun]

theorem run_append (calls calls' : List ι) (s : σ) :
    run step (calls ++ calls') s = (run step calls s).bind (run step calls') := by
  induction calls generalizing s with
  | nil => rfl
  | cons call calls ih =>
    rw [List.cons_append, run, run]
    cases step call s with
    | none => rfl
    | some s' => exact ih s'

/-- What every call that returns keeps, holds after a run. -/
theorem run_preserves {inv : σ → Prop} {t : σ} (hstep : ∀ s call s', inv s → step call s = some s' → inv s')
    (hinv : inv s) (h : run step calls s = some t) : inv t := by
  induction calls generalizing s with
  | nil => exact Option.some.inj h ▸ hinv
  | cons call calls ih =>
    obtain ⟨s', hs', hrest⟩ := Option.bind_eq_some_iff.mp h
    exact ih (hstep s call s' hinv hs') hrest

end Runs
