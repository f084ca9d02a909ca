import Mathlib.Data.List.Chain
import Mathlib.Data.List.Forall2
import Mathlib.Logic.Relation
import Mathlib.Tactic.Common
import Mathlib.Algebra.Order.Ring.Nat

/-! Parsers that shift and reduce by tables. Symbols, states and rules are numbers, and the stack holds a bounded number of
frames. Under conditions that can be checked on the tables, what a parser accepts is derived by its rules, and it comes to an
end. -/
namespace LrParser

inductive Action where
  | shift (state : ℕ)
  | reduce (rule : ℕ)
  | error
deriving DecidableEq

structure Token (V : Type) where
  kind : ℕ
  val : V

/-- A rule makes the value of its left-hand side from those of its right-hand side. The parse ends with a `final` one. -/
structure Rule (V : Type) where
  lhs : ℕ
  rhs : List ℕ
  act : List V → Option V
  final : Bool

structure Parser (V : Type) where
  action : ℕ → ℕ → Action
  goto : ℕ → ℕ → ℕ
  rules : List (Rule V)
  endToken : Token V
  finalState : ℕ
  room : ℕ

structure Frame (V : Type) where
  state : ℕ
  val : V

/-- The frame on top comes first. Below all frames is the state 0. -/
structure Config (V : Type) where
  stack : List (Frame V)
  input : List (Token V)

/-- `finished` is the end in the final state, without a value; `stuck` is a rule that there is none of, or that its
values do not suit. -/
inductive Outcome (V : Type) where
  | accepted (val : V) (rest : List (Token V))
  | finished
  | rejected
  | exhausted
  | stuck

inductive Turn (V : Type) where
  | next (c : Config V)
  | done (o : Outcome V)

variable {V : Type}

def top (stack : List (Frame V)) : ℕ := (stack.head?.map Frame.state).getD 0

@[simp] theorem top_nil : top ([] : List (Frame V)) = 0 := rfl

@[simp] theorem top_cons (f : Frame V) (stack : List (Frame V)) : top (f :: stack) = f.state := rfl

/-- The values of the first frames, in the order in which they were pushed. -/
def args (n : ℕ) (stack : List (Frame V)) : List V := ((stack.take n).map Frame.val).reverse

namespace Parser

variable (p : Parser V)

/-- Behind the input come end tokens. -/
def peek (input : List (Token V)) : Token V := input.headD p.endToken

@[simp] theorem peek_cons (t : Token V) (input : List (Token V)) : p.peek (t :: input) = t := rfl

def push (f : Frame V) (stack : List (Frame V)) (input : List (Token V)) : Turn V :=
  if p.room < stack.length + 1 then .done .exhausted
  else if f.state = p.finalState then .done .finished
  else .next ⟨f :: stack, input⟩

def reduce (rule : Rule V) (c : Config V) : Turn V :=
  match rule.act (args rule.rhs.length c.stack) with
  | none => .done .stuck
  | some v =>
    if rule.final then .done (.accepted v c.input)
    else
      let stack := c.stack.drop rule.rhs.length
      p.push ⟨p.goto (top stack) rule.lhs, v⟩ stack c.input

def step (c : Config V) : Turn V :=
  match p.action (top c.stack) (p.peek c.input).kind with
  | .error => .done .rejected
  | .shift s => p.push ⟨s, (p.peek c.input).val⟩ c.stack c.input.tail
  | .reduce r =>
    match p.rules[r]? with
    | none => .done .stuck
    | some rule => p.reduce rule c

def run : ℕ → Config V → Option (Outcome V)
  | 0, _ => none
  | fuel + 1, c =>
    match p.step c with
    | .done o => some o
    | .next c' => run fuel c'

def Moves : Config V → Config V → Prop := Relation.ReflTransGen fun c c' => p.step c = .next c'

variable {p} {c c' : Config V} {o : Outcome V} {fuel : ℕ} {f : Frame V} {stack : List (Frame V)} {input : List (Token V)}

theorem push_of_fits (hroom : stack.length + 1 ≤ p.room) (hfinal : f.state ≠ p.finalState) :
    p.push f stack input = .next ⟨f :: stack, input⟩ := by
  rw [push, if_neg (not_lt.mpr hroom), if_neg hfinal]

/-- A run that ends from a later configuration has ended in the same way from the earlier one. -/
theorem run_of_moves {fuel' : ℕ} {o' : Outcome V} (hmoves : p.Moves c c') (hrun : p.run fuel c = some o)
    (hrun' : p.run fuel' c' = some o') : o = o' := by
  induction hmoves using Relation.ReflTransGen.head_induction_on generalizing fuel with
  | refl =>
    induction fuel generalizing fuel' c' with
    | zero => cases hrun
    | succ fuel ih =>
      cases fuel' with
      | zero => cases hrun'
      | succ fuel' =>
        rw [run] at hrun hrun'
        cases hstep : p.step c' with
        | done o'' =>
          rw [hstep] at hrun hrun'
          exact Option.some.inj (hrun.symm.trans hrun')
        | next c'' =>
          rw [hstep] at hrun hrun'
          exact ih hrun' hrun
  | head hstep _ ih =>
    cases fuel with
    | zero => cases hrun
    | succ fuel =>
      rw [run, hstep] at hrun
      exact ih hrun

theorem run_of_done (hmoves : p.Moves c c') (hdone : p.step c' = .done o) {o' : Outcome V} (hrun : p.run fuel c = some o') :
    o' = o :=
  run_of_moves hmoves hrun (show p.run 1 c' = some o by rw [run, hdone])

end Parser

/-! ### Derivations -/

/-- The words of a list of symbols, with their values, that a stack takes which has room for `n` more frames. -/
inductive Derives (rules : List (Rule V)) : ℕ → List ℕ → List (Token V) → List V → Prop
  | nil {n : ℕ} : Derives rules n [] [] []
  | token {n : ℕ} {symbols : List ℕ} {word : List (Token V)} {vals : List V} (t : Token V)
      (hrest : Derives rules n symbols word vals) : Derives rules (n + 1) (t.kind :: symbols) (t :: word) (t.val :: vals)
  | rule {n : ℕ} {symbols : List ℕ} {word word' : List (Token V)} {vals vals' : List V} {v : V} {rule : Rule V}
      (hrule : rule ∈ rules) (hrhs : Derives rules (n + 1) rule.rhs word' vals') (hact : rule.act vals' = some v)
      (hrest : Derives rules n symbols word vals) : Derives rules (n + 1) (rule.lhs :: symbols) (word' ++ word) (v :: vals)

namespace Derives

variable {rules : List (Rule V)} {n m : ℕ} {symbols symbols' : List ℕ} {word word' : List (Token V)} {vals vals' : List V}

theorem length_vals (h : Derives rules n symbols word vals) : vals.length = symbols.length := by
  induction h with
  | nil => rfl
  | token _ _ ih => rw [List.length_cons, List.length_cons, ih]
  | rule _ _ _ _ _ ih => rw [List.length_cons, List.length_cons, ih]

theorem mono (h : Derives rules n symbols word vals) (hle : n ≤ m) : Derives rules m symbols word vals := by
  induction h generalizing m with
  | nil => exact .nil
  | token t _ ih =>
    obtain ⟨m, rfl⟩ : ∃ m', m = m' + 1 := ⟨m - 1, by omega⟩
    exact .token t (ih (by omega))
  | rule hrule _ hact _ ihrhs ihrest =>
    obtain ⟨m, rfl⟩ : ∃ m', m = m' + 1 := ⟨m - 1, by omega⟩
    exact .rule hrule (ihrhs hle) hact (ihrest (by omega))

theorem append (h : Derives rules n symbols word vals) (h' : Derives rules m symbols' word' vals')
    (hle : symbols.length + m ≤ n) : Derives rules n (symbols ++ symbols') (word ++ word') (vals ++ vals') := by
  induction h with
  | nil => exact h'.mono (by simpa using hle)
  | token t _ ih =>
    rw [List.length_cons] at hle
    exact .token t (ih (by omega))
  | rule hrule hrhs hact _ _ ih =>
    rw [List.length_cons] at hle
    rw [List.append_assoc]
    exact .rule hrule hrhs hact (ih (by omega))

theorem split (h : Derives rules n (symbols ++ symbols') word vals) :
    ∃ word₁ word₂ vals₁ vals₂, word = word₁ ++ word₂ ∧ vals = vals₁ ++ vals₂ ∧ Derives rules n symbols word₁ vals₁ ∧
      Derives rules (n - symbols.length) symbols' word₂ vals₂ := by
  induction symbols generalizing n word vals with
  | nil => exact ⟨[], word, [], vals, rfl, rfl, .nil, h⟩
  | cons X symbols ih =>
    cases h with
    | token t hrest =>
      obtain ⟨word₁, word₂, vals₁, vals₂, rfl, rfl, h₁, h₂⟩ := ih hrest
      exact ⟨t :: word₁, word₂, t.val :: vals₁, vals₂, rfl, rfl, .token t h₁, by simpa using h₂⟩
    | @rule n _ _ word' _ _ v _ hrule hrhs hact hrest =>
      obtain ⟨word₁, word₂, vals₁, vals₂, rfl, rfl, h₁, h₂⟩ := ih hrest
      exact ⟨word' ++ word₁, word₂, v :: vals₁, vals₂, (List.append_assoc _ _ _).symm, rfl, .rule hrule hrhs hact h₁,
        by simpa using h₂⟩

/-- One more token behind the word. -/
theorem snoc_token (h : Derives rules n symbols word vals) (hlt : symbols.length + 1 ≤ n) (t : Token V) :
    Derives rules n (symbols ++ [t.kind]) (word ++ [t]) (vals ++ [t.val]) :=
  h.append (.token t .nil) hlt

/-- The right-hand side of a rule at the end becomes its left-hand side. -/
theorem reduce {rule : Rule V} {v : V} (h : Derives rules n (symbols ++ rule.rhs) word (vals ++ vals')) (hrule : rule ∈ rules)
    (hvals : vals.length = symbols.length) (hact : rule.act vals' = some v) (hlt : symbols.length + 1 ≤ n) :
    Derives rules n (symbols ++ [rule.lhs]) word (vals ++ [v]) := by
  obtain ⟨word₁, word₂, vals₁, vals₂, rfl, heq, h₁, h₂⟩ := h.split
  obtain ⟨rfl, rfl⟩ := List.append_inj heq (hvals.trans h₁.length_vals.symm)
  obtain ⟨k, hk⟩ : ∃ k, n - symbols.length = k + 1 := ⟨n - symbols.length - 1, by omega⟩
  rw [hk] at h₂
  have hlhs : Derives rules (k + 1) [rule.lhs] (word₂ ++ []) [v] := .rule hrule h₂ hact .nil
  rw [List.append_nil] at hlhs
  exact h₁.append hlhs (by omega)

/-- Where every rule keeps the kinds of the values, and the tokens have theirs, so have all values. -/
theorem forall₂ {kinds : ℕ → V → Prop} (h : Derives rules n symbols word vals)
    (hrules : ∀ rule ∈ rules, ∀ vals v, List.Forall₂ kinds rule.rhs vals → rule.act vals = some v → kinds rule.lhs v)
    (hword : ∀ t ∈ word, kinds t.kind t.val) : List.Forall₂ kinds symbols vals := by
  induction h with
  | nil => exact .nil
  | token t _ ih => exact .cons (hword t (by simp)) (ih fun t' ht' => hword t' (by simp [ht']))
  | rule hrule _ hact _ ihrhs ihrest =>
    exact .cons (hrules _ hrule _ _ (ihrhs fun t ht => hword t (by simp [ht])) hact)
      (ihrest fun t ht => hword t (by simp [ht]))

end Derives

/-! ### Safety -/

/-- What is said about the states: from which states each is entered and with which symbol, and a potential that pays for the
rules until the next token, which is worth `cost`. -/
structure Cert where
  preds : ℕ → List ℕ
  symbol : ℕ → ℕ
  pot : ℕ → ℕ
  cost : ℕ
  terminals : ℕ

namespace Cert

variable (cert : Cert)

def Live (s : ℕ) : Prop := s = 0 ∨ cert.preds s ≠ []

def Path : List (Frame V) → Prop
  | [] => True
  | f :: stack => top stack ∈ cert.preds f.state ∧ Path stack

/-- The symbols that the frames stand for, from the bottom to the top. -/
def symbols (stack : List (Frame V)) : List ℕ := (stack.map fun f => cert.symbol f.state).reverse

variable {cert}

theorem Path.live {stack : List (Frame V)} (h : cert.Path stack) : cert.Live (top stack) := by
  cases stack with
  | nil => exact .inl rfl
  | cons f stack => exact .inr (List.ne_nil_of_mem h.1)

theorem Path.drop {stack : List (Frame V)} (h : cert.Path stack) (n : ℕ) : cert.Path (stack.drop n) := by
  induction n generalizing stack with
  | zero => exact h
  | succ n ih =>
    cases stack with
    | nil => trivial
    | cons f stack => exact ih h.2

/-- Only the empty stack has the state 0 on its top. -/
theorem Path.eq_nil {stack : List (Frame V)} (h : cert.Path stack) (hstart : cert.preds 0 = []) (htop : top stack = 0) :
    stack = [] := by
  cases stack with
  | nil => rfl
  | cons f stack =>
    rw [top_cons] at htop
    have hmem := h.1
    rw [htop, hstart] at hmem
    cases hmem

@[simp] theorem length_symbols (stack : List (Frame V)) : (cert.symbols stack).length = stack.length := by simp [symbols]

theorem symbols_cons (f : Frame V) (stack : List (Frame V)) :
    cert.symbols (f :: stack) = cert.symbols stack ++ [cert.symbol f.state] := by
  simp [symbols]

end Cert

def values (stack : List (Frame V)) : List V := (stack.map Frame.val).reverse

theorem values_cons (f : Frame V) (stack : List (Frame V)) : values (f :: stack) = values stack ++ [f.val] := by simp [values]

@[simp] theorem length_values (stack : List (Frame V)) : (values stack).length = stack.length := by simp [values]

theorem values_eq (n : ℕ) (stack : List (Frame V)) : values stack = values (stack.drop n) ++ args n stack := by
  rw [values, values, args, ← List.reverse_append, ← List.map_append, List.take_append_drop]

namespace Parser

variable (p : Parser V) (cert : Cert)

/-- Whatever path leads to `s`, the symbols lie on it, and below them a frame for the rule may follow. -/
def Unwinds (rule : Rule V) (s₀ : ℕ) : List ℕ → ℕ → Prop
  | [], s =>
    if rule.final then s = 0
    else
      s ∈ cert.preds (p.goto s rule.lhs) ∧ cert.symbol (p.goto s rule.lhs) = rule.lhs ∧
        p.goto s rule.lhs ≠ p.finalState ∧ cert.pot (p.goto s rule.lhs) + 1 < cert.pot s₀ + rule.rhs.length
  | X :: rest, s => s ≠ 0 ∧ cert.symbol s = X ∧ ∀ s' ∈ cert.preds s, Unwinds rule s₀ rest s'

instance decidableUnwinds (rule : Rule V) (s₀ : ℕ) : ∀ symbols s, Decidable (p.Unwinds cert rule s₀ symbols s)
  | [], _ => by dsimp only [Unwinds]; infer_instance
  | _ :: rest, s =>
    have := decidableUnwinds rule s₀ rest
    inferInstanceAs (Decidable (_ ∧ _ ∧ ∀ s' ∈ cert.preds s, p.Unwinds cert rule s₀ rest s'))

/-- The conditions on the tables. Behind the input an end token is no gain. -/
structure Safe : Prop where
  start : cert.preds 0 = []
  room : 0 < p.room
  ends : p.endToken.kind < cert.terminals
  shift : ∀ {s t q}, cert.Live s → t < cert.terminals → p.action s t = .shift q →
    s ∈ cert.preds q ∧ cert.symbol q = t ∧ q ≠ p.finalState ∧ cert.pot q + 1 < cert.pot s + cert.cost
  shiftEnd : ∀ {s q}, cert.Live s → p.action s p.endToken.kind = .shift q → cert.pot q + 1 < cert.pot s
  reduce : ∀ {s t r}, cert.Live s → t < cert.terminals → p.action s t = .reduce r →
    ∃ rule, p.rules[r]? = some rule ∧ p.Unwinds cert rule s rule.rhs.reverse s

/-- The stack is a path, and stands for what has been read of the tokens. -/
structure Built (tokens : List (Token V)) (c : Config V) : Prop where
  path : cert.Path c.stack
  fits : c.stack.length ≤ p.room
  derived : ∃ k word, tokens ++ List.replicate k p.endToken = word ++ c.input ∧
    Derives p.rules p.room (cert.symbols c.stack) word (values c.stack)

variable {p cert} {tokens : List (Token V)} {c c' : Config V} {o : Outcome V} {rule : Rule V}

theorem built_start (tokens : List (Token V)) : p.Built cert tokens ⟨[], tokens⟩ :=
  ⟨trivial, Nat.zero_le _, 0, [], by simp, .nil⟩

theorem Unwinds.drop {s₀ : ℕ} {symbols : List ℕ} {stack : List (Frame V)} (hpath : cert.Path stack)
    (h : p.Unwinds cert rule s₀ symbols (top stack)) :
    (stack.take symbols.length).map (fun f => cert.symbol f.state) = symbols ∧
      p.Unwinds cert rule s₀ [] (top (stack.drop symbols.length)) := by
  induction symbols generalizing stack with
  | nil => exact ⟨rfl, h⟩
  | cons X rest ih =>
    obtain ⟨hne, hsymbol, hpreds⟩ := h
    cases stack with
    | nil => exact absurd rfl hne
    | cons f stack =>
      obtain ⟨hrest, hend⟩ := ih hpath.2 (hpreds _ hpath.1)
      refine ⟨?_, hend⟩
      rw [List.length_cons, List.take_succ_cons, List.map_cons, hrest]
      exact congrArg (· :: rest) hsymbol

/-- The symbols of a rule are those of the frames that it takes. -/
theorem Unwinds.symbols_eq {s₀ : ℕ} {stack : List (Frame V)} (hpath : cert.Path stack)
    (h : p.Unwinds cert rule s₀ rule.rhs.reverse (top stack)) :
    cert.symbols stack = cert.symbols (stack.drop rule.rhs.length) ++ rule.rhs ∧
      p.Unwinds cert rule s₀ [] (top (stack.drop rule.rhs.length)) := by
  obtain ⟨htake, hend⟩ := h.drop hpath
  rw [List.length_reverse] at htake hend
  refine ⟨?_, hend⟩
  have hrhs := congrArg List.reverse htake
  rw [List.reverse_reverse] at hrhs
  conv_lhs => rw [Cert.symbols, ← List.take_append_drop rule.rhs.length stack, List.map_append, List.reverse_append, hrhs]
  rfl

/-- Every value is of the kind of its symbol, and every rule makes such values. -/
structure Typed (p : Parser V) (kinds : ℕ → V → Prop) : Prop where
  endToken : kinds p.endToken.kind p.endToken.val
  rules : ∀ rule ∈ p.rules, ∀ vals, List.Forall₂ kinds rule.rhs vals → ∃ v, rule.act vals = some v ∧ kinds rule.lhs v

theorem Typed.keeps {kinds : ℕ → V → Prop} (htyped : p.Typed kinds) :
    ∀ rule ∈ p.rules, ∀ vals v, List.Forall₂ kinds rule.rhs vals → rule.act vals = some v → kinds rule.lhs v := by
  intro rule hrule vals v hvals hact
  obtain ⟨v', hact', hkind⟩ := htyped.rules rule hrule vals hvals
  obtain rfl := Option.some.inj (hact.symm.trans hact')
  exact hkind

/-- The tokens of the terminals, each with a value of its kind. -/
def Scanned (cert : Cert) (kinds : ℕ → V → Prop) (tokens : List (Token V)) : Prop :=
  ∀ t ∈ tokens, t.kind < cert.terminals ∧ kinds t.kind t.val

section
variable {kinds : ℕ → V → Prop}

theorem scanned_replicate (hsafe : p.Safe cert) (htyped : p.Typed kinds) (htokens : Scanned cert kinds tokens) (k : ℕ) :
    Scanned cert kinds (tokens ++ List.replicate k p.endToken) := by
  intro t ht
  rcases List.mem_append.mp ht with hmem | hmem
  · exact htokens t hmem
  · rw [List.eq_of_mem_replicate hmem]
    exact ⟨hsafe.ends, htyped.endToken⟩

/-- The next token, and the values on the stack, have their kinds. -/
theorem Built.scanned (hsafe : p.Safe cert) (htyped : p.Typed kinds) (htokens : Scanned cert kinds tokens)
    (h : p.Built cert tokens c) :
    (p.peek c.input).kind < cert.terminals ∧ List.Forall₂ kinds (cert.symbols c.stack) (values c.stack) := by
  obtain ⟨k, word, heq, hderives⟩ := h.derived
  have hall := scanned_replicate hsafe htyped htokens k
  rw [heq] at hall
  refine ⟨?_, hderives.forall₂ htyped.keeps fun t ht => (hall t (List.mem_append_left _ ht)).2⟩
  cases hinput : c.input with
  | nil => exact hsafe.ends
  | cons t input =>
    rw [hinput] at hall
    exact (hall t (by simp)).1

end

/-- The value was made from the tokens up to the rest, by a rule that ends the parse. -/
def Accepts (p : Parser V) (tokens : List (Token V)) (v : V) (rest : List (Token V)) : Prop :=
  ∃ k word, tokens ++ List.replicate k p.endToken = word ++ rest ∧
    ∃ rule ∈ p.rules, rule.final = true ∧ Derives p.rules p.room [rule.lhs] word [v]

/-- The value that is accepted is of the kind of a left-hand side that ends the parse. -/
theorem Accepts.kinds {kinds : ℕ → V → Prop} {v : V} {rest : List (Token V)} (hsafe : p.Safe cert) (htyped : p.Typed kinds)
    (htokens : Scanned cert kinds tokens) (h : p.Accepts tokens v rest) :
    ∃ rule ∈ p.rules, rule.final = true ∧ kinds rule.lhs v := by
  obtain ⟨k, word, heq, rule, hrule, hfinal, hderives⟩ := h
  have hall := scanned_replicate hsafe htyped htokens k
  rw [heq] at hall
  have hkinds := hderives.forall₂ htyped.keeps fun t ht => (hall t (List.mem_append_left _ ht)).2
  exact ⟨rule, hrule, hfinal, (List.forall₂_cons.mp hkinds).1⟩

/-- The frames, the potential of the state on top and the cost of the tokens that are left. -/
def measure (cert : Cert) (c : Config V) : ℕ := c.stack.length + cert.pot (top c.stack) + cert.cost * c.input.length

/-- What a step does: it pushes a frame and comes closer to the end, or it ends the parse. -/
inductive Stepped (p : Parser V) (cert : Cert) (tokens : List (Token V)) (c : Config V) : Turn V → Prop
  | next {c' : Config V} (hbuilt : p.Built cert tokens c') (hless : measure cert c' < measure cert c) :
    Stepped p cert tokens c (.next c')
  | rejected : Stepped p cert tokens c (.done .rejected)
  | exhausted : Stepped p cert tokens c (.done .exhausted)
  | accepted {v : V} (haccepts : p.Accepts tokens v c.input) : Stepped p cert tokens c (.done (.accepted v c.input))

theorem Built.push {f : Frame V} {stack : List (Frame V)} {input : List (Token V)} (hpath : cert.Path stack)
    (hpred : top stack ∈ cert.preds f.state) (hfinal : f.state ≠ p.finalState)
    (hderived : stack.length + 1 ≤ p.room → ∃ k word, tokens ++ List.replicate k p.endToken = word ++ input ∧
      Derives p.rules p.room (cert.symbols stack ++ [cert.symbol f.state]) word (values stack ++ [f.val]))
    (hless : stack.length + 1 + cert.pot f.state + cert.cost * input.length < measure cert c) :
    Stepped p cert tokens c (p.push f stack input) := by
  by_cases hroom : p.room < stack.length + 1
  · rw [Parser.push, if_pos hroom]
    exact .exhausted
  · obtain ⟨k, word, heq, hderives⟩ := hderived (not_lt.mp hroom)
    rw [push_of_fits (not_lt.mp hroom) hfinal]
    refine .next ⟨⟨hpred, hpath⟩, not_lt.mp hroom, k, word, heq, ?_⟩ hless
    rwa [Cert.symbols_cons, values_cons]

theorem Built.shift (hsafe : p.Safe cert) (h : p.Built cert tokens c) {s : ℕ}
    (hkind : (p.peek c.input).kind < cert.terminals)
    (haction : p.action (top c.stack) (p.peek c.input).kind = .shift s) :
    Stepped p cert tokens c (p.push ⟨s, (p.peek c.input).val⟩ c.stack c.input.tail) := by
  obtain ⟨hpred, hsymbol, hfinal, hpot⟩ := hsafe.shift h.path.live hkind haction
  obtain ⟨k, word, heq, hderives⟩ := h.derived
  have hsnoc := fun hroom => hderives.snoc_token (by simpa using hroom) (p.peek c.input)
  refine Built.push h.path hpred hfinal (fun hroom => ?_) ?_
  · change ∃ k word, _ ∧ Derives p.rules p.room (cert.symbols c.stack ++ [cert.symbol s]) word _
    rw [hsymbol]
    cases hinput : c.input with
    | nil =>
      rw [hinput] at heq hsnoc
      refine ⟨k + 1, word ++ [p.endToken], ?_, hsnoc hroom⟩
      rw [List.replicate_succ', ← List.append_assoc, heq, List.append_nil, List.tail_nil, List.append_nil]
    | cons t input =>
      rw [hinput] at heq hsnoc
      refine ⟨k, word ++ [t], ?_, hsnoc hroom⟩
      rw [heq, List.append_assoc]
      rfl
  · unfold measure
    dsimp only
    cases hinput : c.input with
    | nil =>
      rw [hinput] at haction
      have hend := hsafe.shiftEnd h.path.live haction
      simp only [List.tail_nil, List.length_nil]
      omega
    | cons t input =>
      simp only [List.tail_cons, List.length_cons, Nat.mul_add, Nat.mul_one]
      omega

theorem Built.reduce {kinds : ℕ → V → Prop} (hsafe : p.Safe cert) (htyped : p.Typed kinds) (h : p.Built cert tokens c)
    (hkinds : List.Forall₂ kinds (cert.symbols c.stack) (values c.stack)) (hrule : rule ∈ p.rules)
    (hunwinds : p.Unwinds cert rule (top c.stack) rule.rhs.reverse (top c.stack)) :
    Stepped p cert tokens c (p.reduce rule c) := by
  obtain ⟨hsymbols, hend⟩ := hunwinds.symbols_eq h.path
  obtain ⟨k, word, heq, hderives⟩ := h.derived
  have hlength : rule.rhs.length ≤ c.stack.length := by
    have hcount := congrArg List.length hsymbols
    simp only [Cert.length_symbols, List.length_append, List.length_drop] at hcount
    omega
  rw [hsymbols, values_eq rule.rhs.length c.stack] at hkinds hderives
  have hbelow : (values (c.stack.drop rule.rhs.length)).length = (cert.symbols (c.stack.drop rule.rhs.length)).length := by
    rw [length_values, Cert.length_symbols]
  have hargs := List.forall₂_drop_append _ _ _ hkinds
  rw [hbelow, List.drop_left] at hargs
  obtain ⟨v, hact, -⟩ := htyped.rules rule hrule _ hargs
  unfold Parser.reduce
  rw [hact]
  dsimp only
  split
  next hrulefinal =>
    rw [Unwinds, if_pos hrulefinal] at hend
    have hnil := (h.path.drop rule.rhs.length).eq_nil hsafe.start hend
    rw [hnil] at hderives hbelow
    exact .accepted ⟨k, word, heq, rule, hrule, hrulefinal, hderives.reduce hrule hbelow hact hsafe.room⟩
  next hrulefinal =>
    rw [Unwinds, if_neg hrulefinal] at hend
    obtain ⟨hpred, hsymbol, hfinal, hpot⟩ := hend
    refine Built.push (h.path.drop _) hpred hfinal (fun hroom => ⟨k, word, heq, ?_⟩) ?_
    · rw [hsymbol]
      exact hderives.reduce hrule hbelow hact (by rwa [Cert.length_symbols])
    · unfold measure
      rw [List.length_drop]
      dsimp only
      omega

/-- One step of a parse, whatever is on the stack. -/
theorem Built.step {kinds : ℕ → V → Prop} (hsafe : p.Safe cert) (htyped : p.Typed kinds)
    (htokens : Scanned cert kinds tokens) (h : p.Built cert tokens c) : Stepped p cert tokens c (p.step c) := by
  obtain ⟨hkind, hkinds⟩ := h.scanned hsafe htyped htokens
  unfold Parser.step
  cases haction : p.action (top c.stack) (p.peek c.input).kind with
  | error => exact .rejected
  | shift s => exact h.shift hsafe hkind haction
  | reduce r =>
    obtain ⟨rule, hrule, hunwinds⟩ := hsafe.reduce h.path.live hkind haction
    dsimp only
    rw [hrule]
    exact h.reduce hsafe htyped hkinds (List.mem_of_getElem? hrule) hunwinds

/-- How a parse ends: with a value that the tokens derive, with a syntax error or with a full stack. -/
inductive Ended (p : Parser V) (tokens : List (Token V)) : Outcome V → Prop
  | rejected : Ended p tokens .rejected
  | exhausted : Ended p tokens .exhausted
  | accepted {v : V} {rest : List (Token V)} (haccepts : p.Accepts tokens v rest) : Ended p tokens (.accepted v rest)

/-- As many steps as the measure says are enough. -/
theorem Built.run {kinds : ℕ → V → Prop} (hsafe : p.Safe cert) (htyped : p.Typed kinds) (htokens : Scanned cert kinds tokens)
    (h : p.Built cert tokens c) {fuel : ℕ} (hfuel : measure cert c < fuel) :
    ∃ o, p.run fuel c = some o ∧ Ended p tokens o := by
  induction fuel generalizing c with
  | zero => omega
  | succ fuel ih =>
    have hstep := h.step hsafe htyped htokens
    rw [Parser.run]
    cases hturn : p.step c with
    | next c' =>
      rw [hturn] at hstep
      cases hstep with
      | next hbuilt hless => exact ih hbuilt (by omega)
    | done o =>
      rw [hturn] at hstep
      cases hstep with
      | rejected => exact ⟨_, rfl, .rejected⟩
      | exhausted => exact ⟨_, rfl, .exhausted⟩
      | accepted haccepts => exact ⟨_, rfl, .accepted haccepts⟩

end Parser
end LrParser
