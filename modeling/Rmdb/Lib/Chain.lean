import Mathlib.Data.Finset.Card
import Mathlib.Tactic.Common
import Rmdb.Lib.Loops

/-! Chains of nodes in a partial heap: each node names the next one, and a walk goes along the chain
until a node decides or the chain ends. -/
namespace Chain

variable {L N β : Type} {get get' : L → Option N} {next : N → L} {decision decision' : N → Option β}
  {l : L} {n : N} {fuel fuel' : ℕ}

/-- The first decision on the way from `l`, in at most `fuel` nodes. -/
def walk (get : L → Option N) (next : N → L) (decision : N → Option β) : ℕ → L → Option β
  | 0, _ => none
  | fuel + 1, l =>
    match get l with
    | none => none
    | some n =>
      match decision n with
      | some b => some b
      | none => walk get next decision fuel (next n)

theorem walk_of_none (h : get l = none) : walk get next decision fuel l = none := by
  cases fuel with
  | zero => rfl
  | succ fuel => simp only [walk, h]

/-- The ranks of the nodes fall along every chain. -/
def Ranked (get : L → Option N) (next : N → L) (rank : L → ℕ) : Prop :=
  ∀ l n, get l = some n → ∀ n', get (next n) = some n' → rank (next n) < rank l

section loops
variable {rank : L → ℕ} {f : L → Option L} {l' : L}

open StateTransition

/-- A loop that goes from a node to the next one, if it goes on. -/
def Goes (get : L → Option N) (next : N → L) (f : L → Option L) : Prop :=
  ∀ l l', f l = some l' → ∃ n, get l = some n ∧ next n = l'

/-- A loop does not leave a set that contains the next node of each of its nodes. -/
theorem Goes.of_reaches {Q : L → Prop} (hf : Goes get next f) (hnext : ∀ l n, Q l → get l = some n → Q (next n))
    (hreach : Reaches f l l') (hl : Q l) : Q l' := by
  induction hreach with
  | refl => exact hl
  | tail _ hstep ih =>
    obtain ⟨n, hget, rfl⟩ := hf _ _ hstep
    exact hnext _ n ih hget

theorem Ranked.rank_lt (h : Ranked get next rank) (hf : Goes get next f) (hreach : Reaches₁ f l l') (hl' : get l' = some n) :
    rank l' < rank l := by
  induction hreach generalizing n with
  | single hstep =>
    obtain ⟨m, hget, rfl⟩ := hf _ _ hstep
    exact h l m hget n hl'
  | tail _ hstep ih =>
    obtain ⟨m, hget, rfl⟩ := hf _ _ hstep
    exact (h _ m hget n hl').trans (ih hget)

/-- No node is visited again. -/
theorem Ranked.not_reaches (h : Ranked get next rank) (hf : Goes get next f) : ¬Reaches₁ f l l := by
  intro hreach
  obtain ⟨l', hstep, -⟩ := Relation.TransGen.head'_iff.mp hreach
  obtain ⟨n, hget, -⟩ := hf _ _ hstep
  exact Nat.lt_irrefl _ (h.rank_lt hf hreach hget)

theorem Ranked.stops (h : Ranked get next rank) (hf : Goes get next f) (l : L) : Loops.Stops f l := by
  induction hrank : rank l using Nat.strong_induction_on generalizing l with
  | h r ih =>
    cases hstep : f l with
    | none => exact ⟨l, .refl, hstep⟩
    | some l' =>
      have hreach : Reaches₁ f l l' := .single hstep
      apply Loops.Stops.of_reaches hreach.to_reflTransGen
      cases hget : get l' with
      | some n =>
        have hlt := h.rank_lt hf hreach hget
        rw [hrank] at hlt
        exact ih _ hlt l' rfl
      | none =>
        refine ⟨l', .refl, ?_⟩
        cases hnext : f l' with
        | none => rfl
        | some l'' =>
          obtain ⟨n, hn, -⟩ := hf _ _ hnext
          rw [hget] at hn
          cases hn

end loops

section finite
variable {rank : L → ℕ} {nodes : Finset L}

/-- The nodes that a walk from `l` can still visit. -/
private def ahead (nodes : Finset L) (rank : L → ℕ) (l : L) : Finset L :=
  nodes.filter fun m => rank m ≤ rank l

private theorem ahead_next (h : Ranked get next rank) (hl : get l = some n) (hmem : l ∈ nodes) {n' : N}
    (hn : get (next n) = some n') : (ahead nodes rank (next n)).card < (ahead nodes rank l).card := by
  have hlt := h l n hl n' hn
  apply Finset.card_lt_card
  constructor
  · intro m hm
    rw [ahead, Finset.mem_filter] at hm ⊢
    exact ⟨hm.1, by omega⟩
  · intro hsub
    have hself : l ∈ ahead nodes rank (next n) := hsub (Finset.mem_filter.mpr ⟨hmem, le_refl _⟩)
    rw [ahead, Finset.mem_filter] at hself
    omega

private theorem walk_ahead (h : Ranked get next rank) (hnodes : ∀ l n, get l = some n → l ∈ nodes)
    (hf : (ahead nodes rank l).card < fuel) (hf' : (ahead nodes rank l).card < fuel') :
    walk get next decision fuel l = walk get next decision fuel' l := by
  induction fuel generalizing l fuel' with
  | zero => omega
  | succ fuel ih =>
    cases fuel' with
    | zero => omega
    | succ fuel' =>
      simp only [walk]
      cases hl : get l with
      | none => rfl
      | some n =>
        dsimp only
        cases decision n with
        | some b => rfl
        | none =>
          dsimp only
          cases hn : get (next n) with
          | none => rw [walk_of_none hn, walk_of_none hn]
          | some n' =>
            have hlt := ahead_next h hl (hnodes l n hl) hn
            exact ih (by omega) (by omega)

/-- With more steps than there are nodes, a walk has seen everything. -/
theorem walk_fuel (h : Ranked get next rank) (nodes : Finset L) (hnodes : ∀ l n, get l = some n → l ∈ nodes)
    (hf : nodes.card < fuel) (hf' : nodes.card < fuel') :
    walk get next decision fuel l = walk get next decision fuel' l := by
  have hle : (ahead nodes rank l).card ≤ nodes.card := Finset.card_filter_le _ _
  exact walk_ahead h hnodes (by omega) (by omega)

/-- A new node that no old one names keeps the ranks falling. -/
theorem Ranked.insert [DecidableEq L] {new : L} (h : Ranked get next rank)
    (hget : ∀ l, get' l = if l = new then some n else get l) (hnext : next n ≠ new)
    (hold : ∀ l m, get l = some m → next m ≠ new) : ∃ rank', Ranked get' next rank' := by
  refine ⟨Function.update rank new (rank (next n) + 1), fun l m hl m' hm => ?_⟩
  rw [hget] at hl
  split at hl
  · rename_i heq
    obtain rfl := Option.some.inj hl
    subst heq
    rw [Function.update_self, Function.update_of_ne hnext]
    omega
  · rename_i hne
    have hother := hold l m hl
    rw [hget, if_neg hother] at hm
    rw [Function.update_of_ne hne, Function.update_of_ne hother]
    exact h l m hl m' hm

end finite

/-! ### Chains with a deciding node -/

/-- Some node on the chain from `l` has the property. -/
inductive Holds (get : L → Option N) (next : N → L) (P : N → Prop) : L → Prop
  | here {l : L} {n : N} (hget : get l = some n) (hP : P n) : Holds get next P l
  | there {l : L} {n : N} (hget : get l = some n) (hnext : Holds get next P (next n)) : Holds get next P l

theorem Holds.exists_get {P : N → Prop} (h : Holds get next P l) : ∃ n, get l = some n := by
  cases h with
  | here hget => exact ⟨_, hget⟩
  | there hget => exact ⟨_, hget⟩

/-- The nodes may change as long as they keep the property and the way. -/
theorem Holds.mono {P : N → Prop} (h : Holds get next P l)
    (hget : ∀ l n, get l = some n → ∃ n', get' l = some n' ∧ next n' = next n ∧ (P n → P n')) :
    Holds get' next P l := by
  induction h with
  | here hl hP =>
    obtain ⟨n', hl', -, hkeeps⟩ := hget _ _ hl
    exact .here hl' (hkeeps hP)
  | there hl _ ih =>
    obtain ⟨n', hl', hnext, -⟩ := hget _ _ hl
    exact .there hl' (hnext ▸ ih)

theorem walk_le {b : β} (h : walk get next decision fuel l = some b) (hle : fuel ≤ fuel') :
    walk get next decision fuel' l = some b := by
  induction fuel generalizing l fuel' with
  | zero => cases h
  | succ fuel ih =>
    cases fuel' with
    | zero => omega
    | succ fuel' =>
      simp only [walk] at h ⊢
      cases hl : get l with
      | none =>
        rw [hl] at h
        cases h
      | some n =>
        rw [hl] at h
        dsimp only at h ⊢
        cases hd : decision n with
        | some d =>
          rw [hd] at h
          exact h
        | none =>
          rw [hd] at h
          exact ih h (by omega)

/-- A walk that has enough steps comes to a decision where a node on the chain makes one. -/
theorem Holds.walk {P : N → Prop} (h : Holds get next P l) (hP : ∀ n, P n → (decision n).isSome) :
    ∃ fuel b, walk get next decision fuel l = some b := by
  induction h with
  | here hl hn =>
    obtain ⟨b, hb⟩ := Option.isSome_iff_exists.mp (hP _ hn)
    exact ⟨1, b, by simp only [Chain.walk, hl, hb]⟩
  | @there l n hl _ ih =>
    obtain ⟨fuel, b, hwalk⟩ := ih
    cases hd : decision n with
    | some d => exact ⟨1, d, by simp only [Chain.walk, hl, hd]⟩
    | none => exact ⟨fuel + 1, b, by simp only [Chain.walk, hl, hd, hwalk]⟩

/-- What a walk finds, a node has decided. -/
theorem exists_of_walk {b : β} (h : walk get next decision fuel l = some b) :
    ∃ l' n, get l' = some n ∧ decision n = some b := by
  induction fuel generalizing l with
  | zero => cases h
  | succ fuel ih =>
    rw [walk] at h
    cases hl : get l with
    | none =>
      rw [hl] at h
      cases h
    | some n =>
      rw [hl] at h
      dsimp only at h
      cases hd : decision n with
      | some d =>
        rw [hd] at h
        exact ⟨l, n, hl, hd.trans h⟩
      | none =>
        rw [hd] at h
        exact ih h

/-- Two walks that decide at the same nodes find what one node says to each. -/
theorem walk_rel {β' : Type} {decides : N → Option β'} {R : N → β → β' → Prop} {b : β}
    (hR : ∀ n, decision n = none ∧ decides n = none ∨
      ∃ b b', decision n = some b ∧ decides n = some b' ∧ R n b b')
    (h : walk get next decision fuel l = some b) :
    ∃ l' n b', get l' = some n ∧ walk get next decides fuel l = some b' ∧ R n b b' := by
  induction fuel generalizing l with
  | zero => cases h
  | succ fuel ih =>
    simp only [walk] at h ⊢
    cases hl : get l with
    | none =>
      rw [hl] at h
      cases h
    | some n =>
      rw [hl] at h
      dsimp only at h ⊢
      rcases hR n with ⟨hnone, hnone'⟩ | ⟨d, d', hd, hd', hrel⟩
      · rw [hnone] at h
        rw [hnone']
        exact ih h
      · rw [hd] at h
        rw [hd']
        obtain rfl := Option.some.inj h
        exact ⟨l, n, d', hl, rfl, hrel⟩

/-- `P` holds of every node on the way from `l` up to the one that decides. -/
def Along (get : L → Option N) (next : N → L) (decision : N → Option β) (P : L → N → Prop) :
    ℕ → L → Prop
  | 0, _ => True
  | fuel + 1, l =>
    match get l with
    | none => True
    | some n => P l n ∧ (decision n = none → Along get next decision P fuel (next n))

instance Along.decidable {P : L → N → Prop} [∀ l n, Decidable (P l n)] :
    (fuel : ℕ) → (l : L) → Decidable (Along get next decision P fuel l)
  | 0, _ => .isTrue trivial
  | fuel + 1, l =>
    have rest : ∀ l, Decidable (Along get next decision P fuel l) := Along.decidable fuel
    match h : get l with
    | none => decidable_of_iff True (by simp [Along, h])
    | some n => decidable_of_iff (P l n ∧ ((decision n).isNone → Along get next decision P fuel (next n)))
        (by simp [Along, h])

/-- Two heaps that agree on the nodes of a walk give the same decision. -/
theorem walk_congr {P : L → N → Prop} (h : Along get next decision P fuel l)
    (hnone : ∀ l, get l = none → get' l = none)
    (hP : ∀ l n, get l = some n → P l n → get' l = some n ∧ decision' n = decision n) :
    walk get' next decision' fuel l = walk get next decision fuel l := by
  induction fuel generalizing l with
  | zero => rfl
  | succ fuel ih =>
    simp only [walk]
    cases hl : get l with
    | none => rw [hnone l hl]
    | some n =>
      simp only [Along, hl] at h
      obtain ⟨hget, hdecision⟩ := hP l n hl h.1
      rw [hget]
      dsimp only
      rw [hdecision]
      cases hd : decision n with
      | some b => rfl
      | none => exact ih (h.2 hd)

/-- Two heaps that agree on a set of links which no chain leaves. -/
theorem walk_congr_closed {Q : L → Prop} (hget : ∀ l, Q l → get' l = get l)
    (hnext : ∀ l n, Q l → get l = some n → Q (next n)) (hdecision : ∀ n, decision' n = decision n)
    (hl : Q l) : walk get' next decision' fuel l = walk get next decision fuel l := by
  induction fuel generalizing l with
  | zero => rfl
  | succ fuel ih =>
    simp only [walk, hget l hl]
    cases hn : get l with
    | none => rfl
    | some n =>
      dsimp only
      rw [hdecision]
      cases decision n with
      | some b => rfl
      | none => exact ih (hnext l n hl hn)

end Chain
