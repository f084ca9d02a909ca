import Mathlib.Data.List.Basic
import Mathlib.Tactic.Common

/-! Lists that are kept as a first node and a link from each node to the next one. -/
namespace NextLinks

variable {ι : Type*} {next next' : ι → ι} {live live' : ι → Prop} {last p q n : ι} {l l' pre post : List ι}

/-- The nodes from `p` along `next` to the mark `last` at the end. -/
def Path (next : ι → ι) (live : ι → Prop) (last : ι) : ι → List ι → Prop
  | p, [] => p = last
  | p, q :: l => p = q ∧ live q ∧ Path next live last (next q) l

namespace Path

theorem forall_live (h : Path next live last p l) : ∀ q ∈ l, live q := by
  induction l generalizing p with
  | nil => nofun
  | cons r l ih =>
    obtain ⟨-, hr, hrest⟩ := h
    intro q hq
    cases List.mem_cons.mp hq with
    | inl heq => exact heq ▸ hr
    | inr hmem => exact ih hrest q hmem

/-- The links leave no choice. -/
theorem unique (hlast : ¬live last) (h : Path next live last p l) (h' : Path next live last p l') : l = l' := by
  induction l generalizing p l' with
  | nil =>
    cases l' with
    | nil => rfl
    | cons r l' =>
      obtain ⟨rfl, hr, -⟩ := h'
      exact absurd (h ▸ hr) hlast
  | cons r l ih =>
    obtain ⟨rfl, hr, hrest⟩ := h
    cases l' with
    | nil => exact absurd (h' ▸ hr) hlast
    | cons r' l' =>
      obtain ⟨rfl, -, hrest'⟩ := h'
      rw [ih hrest hrest']

theorem congr (h : Path next live last p l) (hnext : ∀ q ∈ l, next' q = next q) (hlive : ∀ q ∈ l, live' q) :
    Path next' live' last p l := by
  induction l generalizing p with
  | nil => exact h
  | cons r l ih =>
    obtain ⟨hp, -, hrest⟩ := h
    refine ⟨hp, hlive r List.mem_cons_self, ?_⟩
    rw [hnext r List.mem_cons_self]
    exact ih hrest (fun q hq => hnext q (List.mem_cons_of_mem _ hq)) fun q hq => hlive q (List.mem_cons_of_mem _ hq)

/-- A node that no link names is not in the list behind another node. -/
theorem notMem (h : Path next live last p l) (hp : p ≠ n) (hnext : ∀ q, live q → next q ≠ n) : n ∉ l := by
  induction l generalizing p with
  | nil => exact List.not_mem_nil
  | cons r l ih =>
    obtain ⟨rfl, hr, hrest⟩ := h
    rw [List.mem_cons, not_or]
    exact ⟨hp.symm, ih hrest (hnext p hr)⟩

/-- Where only the link of `q` is changed, the way to `q` stays. -/
theorem mem_of_append (hlast : ¬live' last) (h : Path next live last p (pre ++ q :: post))
    (hnext : ∀ r ∈ pre, next' r = next r) (hlive : ∀ r ∈ pre ++ [q], live' r) (h' : Path next' live' last p l') :
    q ∈ l' := by
  induction pre generalizing p l' with
  | nil =>
    obtain ⟨rfl, -, -⟩ := h
    cases l' with
    | nil =>
      have hq := hlive p List.mem_cons_self
      exact absurd (h' ▸ hq) hlast
    | cons r l' =>
      rw [h'.1]
      exact List.mem_cons_self
  | cons r pre ih =>
    obtain ⟨rfl, -, hrest⟩ := h
    cases l' with
    | nil =>
      have hp := hlive p List.mem_cons_self
      exact absurd (h' ▸ hp) hlast
    | cons r' l' =>
      obtain ⟨rfl, -, hrest'⟩ := h'
      rw [hnext p List.mem_cons_self] at hrest'
      apply List.mem_cons_of_mem
      exact ih hrest (fun r hr => hnext r (List.mem_cons_of_mem _ hr)) (fun r hr => hlive r (List.mem_cons_of_mem _ hr))
        hrest'

end Path
end NextLinks
