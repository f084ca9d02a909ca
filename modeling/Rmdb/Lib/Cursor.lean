import Mathlib.Data.List.Destutter
import Mathlib.Tactic.Common

/-! Iterators that are started, asked for their current row and moved on, until they are at their end. -/

/-- What a call does: it returns or it throws, or neither in the steps that it was given. -/
abbrev Call (ε α : Type) := ExceptT ε Option α

namespace Call

variable {ε α β : Type}

def unfinished : Call ε α := (none : Option (Except ε α))

def ofExcept (x : Except ε α) : Call ε α := some x

@[simp] theorem ofExcept_ok (a : α) : ofExcept (.ok a : Except ε α) = pure a := rfl

theorem bind_of_eq {x : Call ε α} {a : α} (h : x = pure a) (f : α → Call ε β) : x >>= f = f a := by
  rw [h, pure_bind]

theorem pure_inj {a b : α} (h : (pure a : Call ε α) = pure b) : a = b := Except.ok.inj (Option.some.inj h)

theorem ofExcept_eq_pure {x : Except ε α} {a : α} : ofExcept x = pure a ↔ x = .ok a := by
  constructor
  · intro h
    exact Option.some.inj h
  · intro h
    rw [h, ofExcept_ok]

theorem bind_eq_pure {x : Call ε α} {f : α → Call ε β} {b : β} : x >>= f = pure b ↔ ∃ a, x = pure a ∧ f a = pure b := by
  constructor
  · intro h
    cases x with
    | none => cases h
    | some r =>
      cases r with
      | error e => cases h
      | ok a => exact ⟨a, rfl, h⟩
  · rintro ⟨a, rfl, h⟩
    rwa [pure_bind]

end Call

/-- `get` may return nothing, and it may change the row that it returns. -/
structure Cursor (ε σ α : Type) where
  start : σ → Call ε σ
  isEnd : σ → Bool
  get : σ → Call ε (Option α × σ)
  advance : σ → Call ε σ

namespace Cursor

variable {ε σ α : Type} {c : Cursor ε σ α} {Ready : σ → Prop} {At Taken : List α → σ → Prop} {rows l : List α}
  {s s' : σ} {n : ℕ}

/-- What `get` returns from here to the end. -/
def collect (c : Cursor ε σ α) : ℕ → σ → Call ε (List (Option α))
  | 0, _ => .unfinished
  | n + 1, s =>
    if c.isEnd s then return []
    else do
      let (row, s) ← c.get s
      let s ← c.advance s
      return row :: (← collect c n s)

def drive (c : Cursor ε σ α) (n : ℕ) (s : σ) : Call ε (List (Option α)) := do c.collect n (← c.start s)

/-- The states of callers that begin once, and then ask and move on as they like until the end. -/
inductive Reached (c : Cursor ε σ α) (s : σ) : σ → Prop
  | start {t : σ} (h : c.start s = pure t) : Reached c s t
  | get {t u : σ} {row : Option α} (ht : Reached c s t) (hend : c.isEnd t = false) (h : c.get t = pure (row, u)) :
    Reached c s u
  | advance {t u : σ} (ht : Reached c s t) (hend : c.isEnd t = false) (h : c.advance t = pure u) : Reached c s u

/-- The rows come one after another. `At l` says that `l` is left, `Taken l` that its first row has been returned. -/
structure Obeys (c : Cursor ε σ α) (rows : List α) (Ready : σ → Prop) (At Taken : List α → σ → Prop) : Prop where
  start : ∀ s, Ready s → ∃ s', c.start s = pure s' ∧ At rows s'
  isEnd : ∀ l s, At l s → (c.isEnd s = true ↔ l = [])
  get : ∀ a l s, At (a :: l) s → ∃ s', c.get s = pure (some a, s') ∧ Taken (a :: l) s'
  advance : ∀ a l s, Taken (a :: l) s → ∃ s', c.advance s = pure s' ∧ At l s'

theorem Obeys.isEnd_nil (h : c.Obeys rows Ready At Taken) (hs : At [] s) : c.isEnd s = true := (h.isEnd _ s hs).mpr rfl

theorem Obeys.isEnd_cons (h : c.Obeys rows Ready At Taken) {a : α} (hs : At (a :: l) s) : c.isEnd s = false :=
  Bool.eq_false_iff.mpr fun hend => List.cons_ne_nil a l ((h.isEnd _ s hs).mp hend)

theorem Obeys.collect (h : c.Obeys rows Ready At Taken) (hs : At l s) (hn : l.length < n) :
    c.collect n s = pure (l.map some) := by
  induction l generalizing s n with
  | nil =>
    obtain ⟨n, rfl⟩ := Nat.exists_eq_succ_of_ne_zero (Nat.ne_of_gt hn)
    unfold Cursor.collect
    rw [if_pos (h.isEnd_nil hs)]
    rfl
  | cons a l ih =>
    obtain ⟨n, rfl⟩ := Nat.exists_eq_succ_of_ne_zero (Nat.ne_of_gt (Nat.zero_lt_of_lt hn))
    obtain ⟨s₁, hget, hs₁⟩ := h.get a l s hs
    obtain ⟨s₂, hadvance, hs₂⟩ := h.advance a l s₁ hs₁
    unfold Cursor.collect
    rw [if_neg (Bool.eq_false_iff.mp (h.isEnd_cons hs)), Call.bind_of_eq hget]
    dsimp only
    rw [Call.bind_of_eq hadvance, Call.bind_of_eq (ih hs₂ (Nat.lt_of_succ_lt_succ hn))]
    rfl

/-- Whoever goes through an obedient cursor gets its rows. -/
theorem Obeys.drive (h : c.Obeys rows Ready At Taken) (hs : Ready s) (hn : rows.length < n) :
    c.drive n s = pure (rows.map some) := by
  obtain ⟨s', hstart, hs'⟩ := h.start s hs
  unfold Cursor.drive
  rw [Call.bind_of_eq hstart]
  exact h.collect hs' hn

/-! ### Positions -/

/-- The cursor together with how often it has moved on since it was started. -/
def counted (c : Cursor ε σ α) : Cursor ε (σ × ℕ) α where
  start s := do return (← c.start s.1, 0)
  isEnd s := c.isEnd s.1
  get s := do
    let (row, t) ← c.get s.1
    return (row, t, s.2)
  advance s := do return (← c.advance s.1, s.2 + 1)

/-- The cursor whose rows come with what `f` sees when they are asked for. -/
def tagged {β : Type} (c : Cursor ε σ α) (f : σ → β) : Cursor ε σ (α × β) where
  start := c.start
  isEnd := c.isEnd
  get s := do
    let (row, t) ← c.get s
    return (row.map (·, f s), t)
  advance := c.advance

/-- The count and the rows that are left make up all rows. -/
theorem Obeys.counted (h : c.Obeys rows Ready At Taken) :
    c.counted.Obeys rows (fun s => Ready s.1) (fun l s => At l s.1 ∧ s.2 + l.length = rows.length)
      (fun l s => Taken l s.1 ∧ s.2 + l.length = rows.length) where
  start s hs := by
    obtain ⟨t, hstart, ht⟩ := h.start s.1 hs
    refine ⟨(t, 0), ?_, ht, Nat.zero_add _⟩
    unfold Cursor.counted
    dsimp only
    rw [Call.bind_of_eq hstart]
  isEnd l s hs := h.isEnd l s.1 hs.1
  get a l s hs := by
    obtain ⟨t, hget, ht⟩ := h.get a l s.1 hs.1
    refine ⟨(t, s.2), ?_, ht, hs.2⟩
    unfold Cursor.counted
    dsimp only
    rw [Call.bind_of_eq hget]
  advance a l s hs := by
    obtain ⟨t, hadvance, ht⟩ := h.advance a l s.1 hs.1
    have hcount := hs.2
    rw [List.length_cons] at hcount
    refine ⟨(t, s.2 + 1), ?_, ht, by omega⟩
    unfold Cursor.counted
    dsimp only
    rw [Call.bind_of_eq hadvance]

/-- Of rows with the same tag one after another the first stays. -/
theorem destutter_block {β : Type} [DecidableEq β] (f : α → β) {a : α} {block rest : List α}
    (hblock : ∀ b ∈ block, f b = f a) (hrest : ∀ b ∈ rest, f b ≠ f a) :
    (a :: (block ++ rest)).destutter (f · ≠ f ·) = a :: rest.destutter (f · ≠ f ·) := by
  rw [List.destutter_cons']
  induction block with
  | nil =>
    cases rest with
    | nil => rfl
    | cons b rest =>
      have hne : f a ≠ f b := (hrest b List.mem_cons_self).symm
      exact List.destutter'_cons_pos (R := (f · ≠ f ·)) rest hne
  | cons b block ih =>
    have hsame : ¬f a ≠ f b := not_not.mpr (hblock b List.mem_cons_self).symm
    have hskip := List.destutter'_cons_neg (R := (f · ≠ f ·)) (block ++ rest) hsame
    exact hskip.trans (ih fun c hc => hblock c (List.mem_cons_of_mem b hc))

/-! ### Lists -/

def ofList (ε : Type) (rows : List α) : Cursor ε (List α) α where
  start _ := pure rows
  isEnd := List.isEmpty
  get l := pure (l.head?, l)
  advance l := pure l.tail

theorem obeys_ofList (ε : Type) (rows : List α) :
    (ofList ε rows).Obeys rows (fun _ => True) (fun l s => s = l) (fun l s => s = l) where
  start _ _ := ⟨rows, rfl, rfl⟩
  isEnd l s hs := by
    rw [hs]
    exact List.isEmpty_iff
  get a l s hs := by
    rw [hs]
    exact ⟨a :: l, rfl, rfl⟩
  advance a l s hs := by
    rw [hs]
    exact ⟨l, rfl, rfl⟩

end Cursor
