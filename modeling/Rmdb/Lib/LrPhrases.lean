import Rmdb.Lib.LrParser

/-! Words that are built together with their derivations: a phrase is the word of a symbol and the room that a stack needs to
read it. -/
namespace LrParser

structure Phrase (V : Type) where
  word : List (Token V)
  room : ℕ

variable {V : Type}

namespace Phrase

def token (t : Token V) : Phrase V := ⟨[t], 1⟩

/-- The phrases of several symbols, one after the other. -/
def join : List (Phrase V) → Phrase V
  | [] => ⟨[], 0⟩
  | f :: phrases => ⟨f.word ++ (join phrases).word, max f.room ((join phrases).room + 1)⟩

/-- The phrase of a rule, from those of its right-hand side. -/
def node (phrases : List (Phrase V)) : Phrase V := ⟨(join phrases).word, max 1 (join phrases).room⟩

/-- More items behind a list, each with something in front of it. The rule takes the list so far. -/
def chain (sep : List (Phrase V)) (f : Phrase V) : List (Phrase V) → Phrase V
  | [] => f
  | item :: items => chain sep (node (f :: (sep ++ [item]))) items

/-- A list of items with something between them. -/
def list (sep : List (Phrase V)) : List (Phrase V) → Phrase V
  | [] => node []
  | f :: items => chain sep f items

/-- The phrase is one of the symbol, with the value. -/
def Of (rules : List (Rule V)) (X : ℕ) (v : V) (f : Phrase V) : Prop := Derives rules f.room [X] f.word [v]

variable {rules : List (Rule V)}

theorem of_token (t : Token V) : Of rules t.kind t.val (token t) := .token t .nil

/-- A rule with one symbol needs no more room than its symbol. -/
theorem Of.unit {rule : Rule V} {X : ℕ} {v w : V} {f : Phrase V} (h : Of rules X v f) (hrule : rule ∈ rules)
    (hrhs : rule.rhs = [X]) (hact : rule.act [v] = some w) : Of rules rule.lhs w f := by
  have hderives : Derives rules f.room ([] ++ rule.rhs) f.word ([] ++ [v]) := by rwa [hrhs]
  have hroom : 1 ≤ f.room := by
    by_contra hzero
    rw [Of, Nat.lt_one_iff.mp (not_le.mp hzero)] at h
    cases h
  exact hderives.reduce hrule rfl hact hroom

theorem of_chain {α : Type} {X : ℕ} {sep : List (Phrase V)} {wrap : List α → V} {Item : α → Phrase V → Prop}
    (hstep : ∀ xs x f item, Of rules X (wrap xs) f → Item x item → Of rules X (wrap (xs ++ [x])) (node (f :: (sep ++ [item]))))
    {xs ys : List α} {f : Phrase V} {items : List (Phrase V)} (hf : Of rules X (wrap xs) f)
    (hitems : List.Forall₂ Item ys items) : Of rules X (wrap (xs ++ ys)) (chain sep f items) := by
  induction hitems generalizing xs f with
  | nil => rwa [List.append_nil]
  | @cons y item ys items hitem _ ih =>
    rw [List.append_cons]
    exact ih (hstep xs y f item hf hitem)

theorem of_list {α : Type} {X : ℕ} {sep : List (Phrase V)} {wrap : List α → V} {Item : α → Phrase V → Prop}
    (hone : ∀ x item, Item x item → Of rules X (wrap [x]) item)
    (hstep : ∀ xs x f item, Of rules X (wrap xs) f → Item x item → Of rules X (wrap (xs ++ [x])) (node (f :: (sep ++ [item]))))
    {ys : List α} {items : List (Phrase V)} (hne : ys ≠ []) (hitems : List.Forall₂ Item ys items) :
    Of rules X (wrap ys) (list sep items) := by
  cases hitems with
  | nil => exact absurd rfl hne
  | cons hitem hrest => exact of_chain hstep (hone _ _ hitem) hrest

end Phrase

/-- Phrases of the symbols, with their values. -/
inductive Phrases (rules : List (Rule V)) : List ℕ → List V → List (Phrase V) → Prop
  | nil : Phrases rules [] [] []
  | cons {X : ℕ} {v : V} {f : Phrase V} {symbols : List ℕ} {vals : List V} {phrases : List (Phrase V)}
      (h : f.Of rules X v) (hrest : Phrases rules symbols vals phrases) :
    Phrases rules (X :: symbols) (v :: vals) (f :: phrases)

namespace Phrases

variable {rules : List (Rule V)} {symbols symbols' : List ℕ} {vals vals' : List V} {phrases phrases' : List (Phrase V)}

theorem derives (h : Phrases rules symbols vals phrases) :
    Derives rules (Phrase.join phrases).room symbols (Phrase.join phrases).word vals := by
  induction h with
  | nil => exact .nil
  | @cons X v f symbols vals phrases h _ ih =>
    refine (h.mono (le_max_left _ _)).append ih ?_
    rw [List.length_singleton, Nat.add_comm]
    exact le_max_right _ _

theorem node {rule : Rule V} {v : V} (h : Phrases rules rule.rhs vals phrases) (hrule : rule ∈ rules)
    (hact : rule.act vals = some v) : (Phrase.node phrases).Of rules rule.lhs v := by
  have hderives : Derives rules _ ([] ++ rule.rhs) _ ([] ++ vals) := h.derives.mono (le_max_right 1 _)
  exact hderives.reduce hrule rfl hact (le_max_left 1 _)

end Phrases
end LrParser
