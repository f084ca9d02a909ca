import Mathlib.Algebra.Order.Ring.Int
import Mathlib.Data.List.Basic
import Mathlib.Tactic.Common

/-! Formatted text: words with white space between them, and the readers that take them one after
the other. -/
namespace TextStream

/-- The white space of the C locale. -/
def isSpace (c : Char) : Bool :=
  c == ' ' || c == '\t' || c == '\n' || c == '\r' || c.toNat == 11 || c.toNat == 12

/-- What is left of the input, unless a read has failed before. -/
abbrev IStream := StateT (List Char) Option

def skipSpace : IStream Unit := modify (·.dropWhile isSpace)

def takeWord : IStream String := fun s =>
  let word := s.takeWhile (!isSpace ·)
  if word = [] then none else some (String.ofList word, s.dropWhile (!isSpace ·))

def readString : IStream String := do
  skipSpace
  takeWord

def takeMinus : IStream Bool
  | '-' :: s => some (true, s)
  | '+' :: s => some (false, s)
  | s => some (false, s)

def takeDigits : IStream ℕ := fun s =>
  let digits := s.takeWhile Char.isDigit
  if digits = [] then none else some (Nat.ofDigitChars 10 digits 0, s.dropWhile Char.isDigit)

def takeNumber : IStream ℤ := do
  let minus ← takeMinus
  let n ← takeDigits
  return if minus then -n else n

def readNumber : IStream ℤ := do
  skipSpace
  takeNumber

/-- A number outside of the range fails. -/
def readInt (bits : ℕ) : IStream ℤ := do
  let v ← readNumber
  guard (-2 ^ (bits - 1) ≤ v ∧ v < 2 ^ (bits - 1))
  return v

def readInt32 : IStream Int32 := Int32.ofInt <$> readInt 32

def readInt64 : IStream Int64 := Int64.ofInt <$> readInt 64

/-- A negative number within the range is taken modulo the range. -/
def readSize : IStream ℕ := do
  let v ← readNumber
  guard (-2 ^ 64 < v ∧ v < 2 ^ 64)
  return (v % 2 ^ 64).toNat

def readBool : IStream Bool := do
  let v ← readInt 64
  guard (v = 0 ∨ v = 1)
  return v == 1

/-- As many values as a count before them says. -/
def readMany {α : Type} (read : IStream α) : ℕ → IStream (List α)
  | 0 => return []
  | n + 1 => do
    let a ← read
    let l ← readMany read n
    return a :: l

def showInt (v : ℤ) : List Char := v.repr.toList

def showNat (n : ℕ) : List Char := n.repr.toList

def showBool (b : Bool) : List Char := showNat b.toNat

structure Word (w : List Char) : Prop where
  ne_nil : w ≠ []
  not_space : ∀ c ∈ w, isSpace c = false

/-- A word that was written ends where the text ends or with white space. -/
def Stops (s : List Char) : Prop := ∀ c ∈ s.head?, isSpace c = true

/-- The words of a text, in order. -/
inductive Text : List Char → List (List Char) → Prop
  | nil : Text [] []
  | space {c : Char} {s : List Char} {ws : List (List Char)} :
    isSpace c = true → Text s ws → Text (c :: s) ws
  | word {w s : List Char} {ws : List (List Char)} :
    Word w → Stops s → Text s ws → Text (w ++ s) (w :: ws)

variable {s s' w : List Char} {ws us : List (List Char)} {c : Char} {v : ℤ} {n bits : ℕ} {b : Bool}

theorem stops_nil : Stops [] := nofun

theorem stops_cons (h : isSpace c = true) : Stops (c :: s) := by
  intro d hd
  have : c = d := Option.some.inj hd
  exact this ▸ h

theorem isDigit_of_isSpace (h : isSpace c = true) : c.isDigit = false := by
  have hc : c = ' ' ∨ c = '\t' ∨ c = '\n' ∨ c = '\r' ∨ c.toNat = 11 ∨ c.toNat = 12 := by
    simpa [isSpace, or_assoc] using h
  have hsmall : c.toNat < 48 := by
    rcases hc with rfl | rfl | rfl | rfl | hc | hc
    · decide
    · decide
    · decide
    · decide
    · omega
    · omega
  have hdigit : ¬48 ≤ c.toNat := by omega
  simp [Char.isDigit, UInt32.le_iff_toNat_le, Char.toNat_val, hdigit]

theorem isSpace_of_isDigit (h : c.isDigit = true) : isSpace c = false := by
  cases hc : isSpace c with
  | false => rfl
  | true => simp [isDigit_of_isSpace hc] at h

theorem isDigit_showNat (hc : c ∈ showNat n) : c.isDigit = true := by
  rw [showNat, Nat.toList_repr] at hc
  exact Nat.isDigit_of_mem_toDigits (by decide) (by decide) hc

theorem showNat_ne_nil : showNat n ≠ [] := by
  rw [showNat, Nat.toList_repr]
  exact Nat.toDigits_ne_nil

theorem ofDigitChars_showNat : Nat.ofDigitChars 10 (showNat n) 0 = n := by
  rw [showNat, Nat.toList_repr]
  exact Nat.ofDigitChars_toDigits (by decide) (by decide)

theorem word_showNat : Word (showNat n) where
  ne_nil := showNat_ne_nil
  not_space _ hc := isSpace_of_isDigit (isDigit_showNat hc)

/-- A minus sign, or none, before the digits of the absolute value. -/
theorem showInt_eq (v : ℤ) : showInt v = if 0 ≤ v then showNat v.natAbs else '-' :: showNat v.natAbs := by
  cases v with
  | ofNat n => rfl
  | negSucc n =>
    have : ¬0 ≤ Int.negSucc n := by omega
    rw [if_neg this]
    simp [showInt, showNat, Int.repr]

theorem showInt_natCast (n : ℕ) : showInt (n : ℤ) = showNat n := rfl

theorem word_showInt : Word (showInt v) := by
  rw [showInt_eq]
  split_ifs
  · exact word_showNat
  · refine ⟨List.cons_ne_nil _ _, ?_⟩
    intro c hc
    cases List.mem_cons.mp hc with
    | inl heq => subst heq; decide
    | inr hmem => exact word_showNat.not_space c hmem

theorem word_showBool : Word (showBool b) := word_showNat

/-- A word that white space or the end of the text follows. -/
theorem Text.single (h : Word w) : Text w [w] := by
  have := Text.word h stops_nil .nil
  rwa [List.append_nil] at this

theorem Text.stops_append (h : Stops s) (hc : isSpace c = true) : Stops (s ++ c :: s') := by
  cases s with
  | nil => exact stops_cons hc
  | cons d s => exact h

theorem Text.append_space (hs : Text s ws) (hc : isSpace c = true) (hs' : Text s' us) :
    Text (s ++ c :: s') (ws ++ us) := by
  induction hs with
  | nil => exact .space hc hs'
  | space hd _ ih => exact .space hd ih
  | word hw hstops _ ih =>
    rw [List.append_assoc]
    exact .word hw (stops_append hstops hc) ih

/-- A text that ends in white space, so that any text can follow. -/
def Line (s : List Char) (ws : List (List Char)) : Prop := ∀ s' us, Text s' us → Text (s ++ s') (ws ++ us)

theorem Line.nil : Line [] [] := fun _ _ hs => hs

theorem Line.append (hs : Line s ws) (hs' : Line s' us) : Line (s ++ s') (ws ++ us) := by
  intro u vs hu
  rw [List.append_assoc, List.append_assoc]
  exact hs _ _ (hs' _ _ hu)

theorem Line.text (hs : Line s ws) : Text s ws := by
  have := hs [] [] .nil
  rwa [List.append_nil, List.append_nil] at this

theorem Text.line (hs : Text s ws) (hc : isSpace c = true) : Line (s ++ [c]) ws := by
  intro s' us hs'
  rw [List.append_assoc]
  exact hs.append_space hc hs'

theorem Line.flatMap {α : Type} {l : List α} {text : α → List Char} {words : α → List (List Char)}
    (h : ∀ a ∈ l, Line (text a) (words a)) : Line (l.flatMap text) (l.flatMap words) := by
  induction l with
  | nil => exact .nil
  | cons a l ih => exact (h a List.mem_cons_self).append (ih fun b hb => h b (List.mem_cons_of_mem a hb))

/-- Words with one white space character between them. -/
theorem Text.intercalate (h : ∀ w ∈ ws, Word w) (hc : isSpace c = true) : Text ([c].intercalate ws) ws := by
  induction ws with
  | nil => exact .nil
  | cons w ws ih =>
    have hrest := ih fun w' hw' => h w' (List.mem_cons_of_mem w hw')
    cases ws with
    | nil =>
      rw [List.intercalate_singleton]
      exact .single (h w List.mem_cons_self)
    | cons w' ws =>
      rw [List.intercalate_cons_cons, List.append_assoc]
      exact (Text.single (h w List.mem_cons_self)).append_space hc hrest

/-- Texts that start on a new line each. -/
theorem Text.append_flatMap {α : Type} {l : List α} {text : α → List Char} {words : α → List (List Char)}
    (hs : Text s ws) (hc : isSpace c = true) (h : ∀ a ∈ l, Text (text a) (words a)) :
    Text (s ++ l.flatMap fun a => c :: text a) (ws ++ l.flatMap words) := by
  induction l generalizing s ws with
  | nil => simpa using hs
  | cons a l ih =>
    have hfirst := hs.append_space hc (h a List.mem_cons_self)
    have := ih hfirst fun b hb => h b (List.mem_cons_of_mem a hb)
    simpa using this

/-- White space before the first word, the word, and the text after it. -/
theorem Text.uncons (h : Text s (w :: ws)) :
    ∃ pre rest, s = pre ++ (w ++ rest) ∧ (∀ c ∈ pre, isSpace c = true) ∧ Word w ∧ Stops rest ∧ Text rest ws := by
  generalize hus : w :: ws = us at h
  induction h with
  | nil => exact absurd hus (List.cons_ne_nil _ _)
  | @space c s us hc _ ih =>
    obtain ⟨pre, rest, hs, hpre, hrest⟩ := ih hus
    refine ⟨c :: pre, rest, by rw [hs]; rfl, ?_, hrest⟩
    intro d hd
    cases List.mem_cons.mp hd with
    | inl heq => exact heq ▸ hc
    | inr hmem => exact hpre d hmem
  | @word w' s us hw hstops hs _ =>
    obtain ⟨rfl, rfl⟩ := List.cons.inj hus
    exact ⟨[], s, rfl, nofun, hw, hstops, hs⟩

theorem takeWhile_stops {p : Char → Bool} (hw : ∀ c ∈ w, p c = true)
    (hp : ∀ c, isSpace c = true → p c = false) (hs : Stops s) :
    (w ++ s).takeWhile p = w ∧ (w ++ s).dropWhile p = s := by
  rw [List.takeWhile_append_of_pos hw, List.dropWhile_append_of_pos hw]
  cases s with
  | nil => simp
  | cons c s =>
    have : p c = false := hp c (hs c rfl)
    simp [this]

/-- The reader takes the words `ws` off the text and makes `a` of them. -/
def Reads {α : Type} (read : IStream α) (ws : List (List Char)) (a : α) : Prop :=
  ∀ s us, Text s (ws ++ us) → ∃ s', read s = some (a, s') ∧ Text s' us

/-- The words `ws` are not what the reader expects. -/
def Fails {α : Type} (read : IStream α) (ws : List (List Char)) : Prop :=
  ∀ s us, Text s (ws ++ us) → read s = none

variable {α β : Type} {read : IStream α} {next : α → IStream β} {a : α} {d : β} {l : List α}
  {words : α → List (List Char)}

theorem Fails.bind (h : Fails read ws) : Fails (read >>= next) (ws ++ us) := by
  intro s vs hs
  rw [List.append_assoc] at hs
  show (read s).bind _ = _
  rw [h s _ hs]
  rfl

namespace Reads

theorem pure (a : α) : Reads (pure a) [] a := fun s _ hs => ⟨s, rfl, hs⟩

theorem bind (h : Reads read ws a) (hnext : Reads (next a) us d) : Reads (read >>= next) (ws ++ us) d := by
  intro s vs hs
  rw [List.append_assoc] at hs
  obtain ⟨s₁, hread, hs₁⟩ := h s _ hs
  obtain ⟨s₂, hread', hs₂⟩ := hnext s₁ vs hs₁
  refine ⟨s₂, ?_, hs₂⟩
  show (read s).bind _ = _
  rw [hread]
  exact hread'

theorem bind_fails (h : Reads read ws a) (hnext : Fails (next a) us) : Fails (read >>= next) (ws ++ us) := by
  intro s vs hs
  rw [List.append_assoc] at hs
  obtain ⟨s₁, hread, hs₁⟩ := h s _ hs
  show (read s).bind _ = _
  rw [hread]
  exact hnext s₁ vs hs₁

theorem map (g : α → β) (h : Reads read ws a) : Reads (g <$> read) ws (g a) := by
  intro s us hs
  obtain ⟨s', hread, hs'⟩ := h s us hs
  refine ⟨s', ?_, hs'⟩
  show (read s).bind _ = _
  rw [hread]
  rfl

/-- A reader that starts with a word passes over the white space before it. -/
theorem skipSpace (h : ∀ rest, Stops rest → read (w ++ rest) = some (a, rest)) :
    Reads (do skipSpace; read) [w] a := by
  intro s us hs
  obtain ⟨pre, rest, rfl, hpre, hw, hstops, hrest⟩ := hs.uncons
  refine ⟨rest, ?_, hrest⟩
  have hskip : (pre ++ (w ++ rest)).dropWhile isSpace = w ++ rest := by
    rw [List.dropWhile_append_of_pos hpre]
    cases w with
    | nil => exact absurd rfl hw.ne_nil
    | cons c w => simp [hw.not_space c List.mem_cons_self]
  show read ((pre ++ (w ++ rest)).dropWhile isSpace) = _
  rw [hskip]
  exact h rest hstops

theorem string {name : String} (h : Word name.toList) : Reads readString [name.toList] name := by
  apply skipSpace
  intro rest hrest
  have hword : ∀ c ∈ name.toList, (!isSpace c) = true := fun c hc => by simp [h.not_space c hc]
  obtain ⟨htake, hdrop⟩ := takeWhile_stops hword (fun c hc => by simp [hc]) hrest
  simp [takeWord, htake, hdrop, h.ne_nil]

theorem takeDigits (n : ℕ) (hs : Stops s) : takeDigits (showNat n ++ s) = some (n, s) := by
  obtain ⟨htake, hdrop⟩ := takeWhile_stops (fun c hc => isDigit_showNat (n := n) hc)
    (fun c hc => isDigit_of_isSpace hc) hs
  simp [TextStream.takeDigits, htake, hdrop, showNat_ne_nil, ofDigitChars_showNat]

theorem takeMinus_digit (h : c.isDigit = true) : takeMinus (c :: s) = some (false, c :: s) := by
  unfold takeMinus
  split
  · simp_all [Char.isDigit]
  · simp_all [Char.isDigit]
  · rfl

theorem takeNumber (v : ℤ) (hs : Stops s) : takeNumber (showInt v ++ s) = some (v, s) := by
  rw [showInt_eq]
  split_ifs with hv
  · have hminus : takeMinus (showNat v.natAbs ++ s) = some (false, showNat v.natAbs ++ s) := by
      cases hd : showNat v.natAbs with
      | nil => exact absurd hd showNat_ne_nil
      | cons c w => exact takeMinus_digit (isDigit_showNat (hd ▸ List.mem_cons_self))
    show (takeMinus _).bind _ = _
    rw [hminus]
    show (TextStream.takeDigits _).bind _ = _
    rw [takeDigits _ hs]
    exact congrArg (fun v => some (v, s)) (by simp [abs_of_nonneg hv])
  · show (TextStream.takeDigits (showNat v.natAbs ++ s)).bind _ = _
    rw [takeDigits _ hs]
    have habs : |v| = -v := abs_of_neg (lt_of_not_ge hv)
    exact congrArg (fun v => some (v, s)) (by simp [habs])

theorem number (v : ℤ) : Reads readNumber [showInt v] v := skipSpace fun _ hs => takeNumber v hs

theorem guard_pos {p : Prop} [Decidable p] (h : p) : Reads (guard p) [] () := by
  rw [guard, if_pos h]
  exact pure ()

theorem int (bits : ℕ) (hlow : -2 ^ (bits - 1) ≤ v) (hhigh : v < 2 ^ (bits - 1)) :
    Reads (readInt bits) [showInt v] v :=
  (number v).bind ((guard_pos ⟨hlow, hhigh⟩).bind (pure v))

theorem int_fails (bits : ℕ) (hhigh : 2 ^ (bits - 1) ≤ v) : Fails (readInt bits) [showInt v] := by
  have hguard : ¬(-2 ^ (bits - 1) ≤ v ∧ v < 2 ^ (bits - 1)) := fun h => absurd h.2 (not_lt.mpr hhigh)
  apply (number v).bind_fails
  intro s us _
  rw [guard, if_neg hguard]
  rfl

theorem int32 (v : Int32) : Reads readInt32 [showInt v.toInt] v := by
  have := (int 32 v.le_toInt v.toInt_lt).map Int32.ofInt
  rwa [Int32.ofInt_toInt] at this

theorem int64 (v : Int64) : Reads readInt64 [showInt v.toInt] v := by
  have := (int 64 v.le_toInt v.toInt_lt).map Int64.ofInt
  rwa [Int64.ofInt_toInt] at this

theorem size (h : n < 2 ^ 64) : Reads readSize [showNat n] n := by
  have hrange : -2 ^ 64 < (n : ℤ) ∧ (n : ℤ) < 2 ^ 64 := by omega
  have hmod : ((n : ℤ) % 2 ^ 64).toNat = n := by omega
  have hread : Reads readSize [showInt n] ((n : ℤ) % 2 ^ 64).toNat :=
    (number n).bind ((guard_pos hrange).bind (pure _))
  rwa [hmod] at hread

theorem bool (b : Bool) : Reads readBool [showBool b] b := by
  have hint : Reads (readInt 64) [showInt b.toNat] b.toNat := by
    apply int 64
    · cases b <;> decide
    · cases b <;> decide
  have hbit : (b.toNat : ℤ) = 0 ∨ (b.toNat : ℤ) = 1 := by cases b <;> decide
  have hread : Reads readBool [showInt b.toNat] ((b.toNat : ℤ) == 1) := hint.bind ((guard_pos hbit).bind (pure _))
  have hb : ((b.toNat : ℤ) == 1) = b := by cases b <;> decide
  rwa [hb] at hread

/-- The values of a list, each with the words it was written as. -/
theorem many (h : ∀ a ∈ l, Reads read (words a) a) : Reads (readMany read l.length) (l.flatMap words) l := by
  induction l with
  | nil => exact pure []
  | cons a l ih =>
    have hrest : Reads (readMany read l.length) (l.flatMap words) l :=
      ih fun c hc => h c (List.mem_cons_of_mem a hc)
    have hlist : Reads (do let l ← readMany read l.length; return a :: l) (l.flatMap words ++ []) (a :: l) :=
      hrest.bind (pure (a :: l))
    rw [List.append_nil] at hlist
    exact (h a List.mem_cons_self).bind hlist

end Reads

end TextStream
