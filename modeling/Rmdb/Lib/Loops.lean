import Mathlib.Computability.StateTransition
import Mathlib.Data.Finite.Sum
import Mathlib.Order.WellFounded
import Mathlib.Tactic.Common

/-! Loops, as partial functions that are applied as long as they are defined. -/
namespace Loops

open Relation StateTransition

variable {σ : Type*} {f : σ → Option σ} {a b : σ}

def Stops (f : σ → Option σ) (a : σ) : Prop := ∃ b, Reaches f a b ∧ f b = none

theorem Stops.of_reaches (h : Reaches f a b) (hb : Stops f b) : Stops f a := by
  obtain ⟨c, hbc, hc⟩ := hb
  exact ⟨c, h.trans hbc, hc⟩

/-- A loop that stops does so from every state on its way. -/
theorem Stops.reaches (ha : Stops f a) (h : Reaches f a b) : Stops f b := by
  obtain ⟨c, hac, hc⟩ := ha
  rcases reaches_total hac h with hcb | hbc
  · rcases reflTransGen_iff_eq_or_transGen.mp hcb with rfl | hcb
    · exact ⟨b, .refl, hc⟩
    · obtain ⟨d, hcd, -⟩ := TransGen.head'_iff.mp hcb
      exact absurd (hc.symm.trans hcd) nofun
  · exact ⟨c, hbc, hc⟩

/-- A loop does not stop where it always comes to such a state again. -/
theorem not_stops_of_recurs {P : σ → Prop} (hP : ∀ b, P b → ∃ b', P b' ∧ Reaches₁ f b b') (ha : P a) : ¬Stops f a := by
  intro ⟨c, hac, hc⟩
  have hnone : ∀ b, P b → ¬Reaches f a b := by
    clear ha
    induction hac using ReflTransGen.head_induction_on with
    | refl =>
      intro b hb hcb
      obtain ⟨b', -, hbb'⟩ := hP b hb
      obtain ⟨d, hcd, -⟩ := TransGen.head'_iff.mp (hbb'.trans_right hcb)
      exact absurd (hc.symm.trans hcd) nofun
    | @head a a' hstep _ ih =>
      intro b hb hab
      obtain ⟨b', hb', hbb'⟩ := hP b hb
      exact ih b' hb' (reaches₁_fwd (hbb'.trans_right hab) hstep)
  exact hnone a ha .refl

/-- Where there are finitely many states, a loop stops just when no state on its way comes back. -/
theorem stops_iff [Finite σ] : Stops f a ↔ ∀ b, Reaches f a b → ¬Reaches₁ f b b := by
  constructor
  · intro h b hab hbb
    have hrecurs : ∀ b', b' = b → ∃ b'', b'' = b ∧ Reaches₁ f b' b'' := by
      rintro b' rfl
      exact ⟨b', rfl, hbb⟩
    exact not_stops_of_recurs hrecurs rfl (h.reaches hab)
  · intro h
    let later : {b // Reaches f a b} → {b // Reaches f a b} → Prop := fun b c => Reaches₁ f c.1 b.1
    have : IsTrans _ later := ⟨fun _ _ _ hbc hcd => TransGen.trans hcd hbc⟩
    have : Std.Irrefl later := ⟨fun b => h b.1 b.2⟩
    obtain ⟨b, -, hmin⟩ := (Finite.wellFounded_of_trans_of_irrefl later).has_min Set.univ ⟨⟨a, .refl⟩, trivial⟩
    refine ⟨b.1, b.2, ?_⟩
    cases hb : f b.1 with
    | none => rfl
    | some c =>
      have hstep : Reaches₁ f b.1 c := .single hb
      exact absurd hstep (hmin ⟨c, b.2.trans hstep.to_reflTransGen⟩ trivial)

end Loops
