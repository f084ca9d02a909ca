import Mathlib.Data.List.Basic
import Mathlib.Tactic.Common

/-! Streams of frames, each of which tells its own length at its front. -/
namespace Frames

variable {α β : Type*} {size : List α → ℕ} {encode : β → List α} {ok : β → Prop}

/-- Cut a stream frame by frame. It fails where a frame claims no length or more than is left.
The length of the stream is always enough fuel. -/
def cut (size : List α → ℕ) : ℕ → List α → Option (List (List α))
  | 0, stream => if stream = [] then some [] else none
  | fuel + 1, stream =>
    if stream = [] then some []
    else if 0 < size stream ∧ size stream ≤ stream.length then
      (cut size fuel (stream.drop (size stream))).map (stream.take (size stream) :: ·)
    else none

/-- Whatever follows an encoding, its length is what is read at its front. -/
structure Sized (size : List α → ℕ) (encode : β → List α) (ok : β → Prop) : Prop where
  pos : ∀ b, ok b → 0 < (encode b).length
  size_append : ∀ b, ok b → ∀ rest, size (encode b ++ rest) = (encode b).length

theorem Sized.length_le (h : Sized size encode ok) {frames : List β} (hok : ∀ b ∈ frames, ok b) :
    frames.length ≤ (frames.flatMap encode).length := by
  induction frames with
  | nil => exact Nat.le_refl 0
  | cons b frames ih =>
    have hpos := h.pos b (hok b List.mem_cons_self)
    have hrest := ih fun b hmem => hok b (List.mem_cons_of_mem _ hmem)
    rw [List.flatMap_cons, List.length_append, List.length_cons]
    omega

/-- A stream of encodings is cut into just these. -/
theorem Sized.cut_flatMap (h : Sized size encode ok) {frames : List β} (hok : ∀ b ∈ frames, ok b) {fuel : ℕ}
    (hfuel : (frames.flatMap encode).length ≤ fuel) :
    cut size fuel (frames.flatMap encode) = some (frames.map encode) := by
  induction frames generalizing fuel with
  | nil => cases fuel <;> rfl
  | cons b frames ih =>
    have hb := hok b List.mem_cons_self
    have hpos := h.pos b hb
    have hsize := h.size_append b hb (frames.flatMap encode)
    have hrest : ∀ b ∈ frames, ok b := fun b hmem => hok b (List.mem_cons_of_mem _ hmem)
    rw [List.flatMap_cons] at hfuel ⊢
    rw [List.length_append] at hfuel
    cases fuel with
    | zero => omega
    | succ fuel =>
      have hne : encode b ++ frames.flatMap encode ≠ [] := by
        intro hnil
        rw [(List.append_eq_nil_iff.mp hnil).1] at hpos
        exact absurd hpos (Nat.lt_irrefl 0)
      have hlen : (encode b).length ≤ (encode b ++ frames.flatMap encode).length := by
        rw [List.length_append]
        omega
      have hcut := ih hrest (show (frames.flatMap encode).length ≤ fuel by omega)
      unfold cut
      rw [if_neg hne, hsize, if_pos ⟨hpos, hlen⟩, List.drop_left' rfl, List.take_left' rfl, hcut]
      rfl

end Frames
