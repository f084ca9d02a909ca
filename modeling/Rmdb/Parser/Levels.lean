import Rmdb.Lib.LrComplete
import Rmdb.Parser.Yyparse

/-! The grammar without its ambiguities, and that the tables follow it. An expression has the levels of sums, terms and
factors. Of rules that come twice the first one is taken, and columns or aggregate functions in front of a comma go to the
mixed selector. -/
namespace Rmdb.Ast

open LrParser

/-- The operands of `+` and `-`; the expressions themselves are the sums. -/
def termNum : ℕ := 113

/-- The operands of `*` and `/`. -/
def factorNum : ℕ := 114

/-- A list of columns that is a single one. -/
def singleColNum : ℕ := 115

/-- A rule by its symbols and its number; without a number one symbol is another. -/
structure Level where
  lhs : ℕ
  rhs : List ℕ
  number : Option ℕ
deriving DecidableEq

def underNum (X : ℕ) : ℕ :=
  if X = termNum ∨ X = factorNum then Nonterminal.expr.num
  else if X = singleColNum then Nonterminal.colList.num
  else X

def ruleAction (r : ℕ) : List SemValue → Option SemValue := (rules[r]?.map Rule.act).getD fun _ => none

def Level.toRule (level : Level) : LayeredRule SemValue where
  lhs := level.lhs
  rhs := level.rhs
  act := level.number.elim copy ruleAction
  final := level.lhs = Nonterminal.start.num
  number := level.number

/-- The rules that stay as they are. -/
def unchangedRules : List ℕ := [
  2, 3, 4, 5, 6, 7, 8, 9, 10, 11, 12, 13, 14, 15, 16, 17, 18, 19, 20, 21, 22, 23, 27, 28, 29, 30, 31, 32, 33, 34,
  35, 36, 37, 38, 39, 40, 41, 42, 43, 44, 45, 46, 47, 48, 49, 50, 51, 52, 53, 54, 55, 56, 57, 58, 59, 60, 61, 62,
  63, 64, 65, 66, 67, 78, 79, 80, 81, 83, 84, 85, 86, 87, 88, 89, 90, 91, 92, 93, 94, 95, 96, 97, 98, 99, 100, 101,
  104, 105, 106, 107, 108, 109, 110, 111, 112, 113, 114, 115, 116, 117, 118, 119, 120, 121, 122, 123, 124, 125, 126,
  127, 128, 129, 130, 131, 102]

def sameLevel (r : ℕ) : Option Level := rules[r]?.map fun rule => ⟨rule.lhs, rule.rhs, some r⟩

/-- The rules of an operator, with the level of its right operand. -/
def operatorLevel (lhs : ℕ) (op : Terminal) (rhs r : ℕ) : Level := ⟨lhs, [lhs, op.num, rhs], some r⟩

def splitLevels : List Level := [
  ⟨Nonterminal.expr.num, [termNum], none⟩,
  operatorLevel Nonterminal.expr.num .plus termNum 72,
  operatorLevel Nonterminal.expr.num .minus termNum 73,
  ⟨termNum, [factorNum], none⟩,
  operatorLevel termNum .star factorNum 74,
  operatorLevel termNum .slash factorNum 75,
  ⟨factorNum, [Nonterminal.value.num], some 68⟩,
  ⟨factorNum, [Nonterminal.col.num], some 69⟩,
  ⟨factorNum, [Nonterminal.aggFunc.num], some 70⟩,
  ⟨factorNum, [Terminal.lparen.num, Nonterminal.dml.num, Terminal.rparen.num], some 71⟩,
  ⟨factorNum, [Terminal.minus.num, factorNum], some 76⟩,
  ⟨factorNum, [Terminal.lparen.num, Nonterminal.expr.num, Terminal.rparen.num], some 77⟩,
  ⟨Nonterminal.selector.num, [singleColNum], some 82⟩,
  ⟨singleColNum, [Nonterminal.col.num], some 60⟩]

def levels : List Level := unchangedRules.filterMap sameLevel ++ splitLevels

/-! ### What follows and what begins a word -/

/-- The numbers of `levels`. -/
def levelTable : List Level := [
  ⟨70, [71, 61], some 2⟩, ⟨70, [50, 71, 61], some 3⟩, ⟨70, [27], some 4⟩, ⟨70, [26], some 5⟩, ⟨70, [49], some 6⟩,
  ⟨71, [73], some 7⟩, ⟨71, [75], some 8⟩, ⟨71, [76], some 9⟩, ⟨71, [72], some 10⟩, ⟨71, [74], some 11⟩,
  ⟨72, [28], some 12⟩, ⟨72, [29], some 13⟩, ⟨72, [30], some 14⟩, ⟨72, [31], some 15⟩, ⟨73, [3, 4], some 16⟩,
  ⟨73, [5, 6, 109, 62, 77, 63], some 17⟩, ⟨73, [7, 6, 109], some 18⟩, ⟨73, [8, 109], some 19⟩,
  ⟨73, [5, 22, 111, 45, 109, 62, 78, 63], some 20⟩, ⟨73, [7, 22, 111, 45, 109], some 21⟩,
  ⟨73, [3, 22, 109], some 22⟩, ⟨74, [17, 101, 64, 55], some 23⟩, ⟨75, [5, 22, 109, 62, 78, 63], some 27⟩,
  ⟨75, [7, 22, 109, 62, 78, 63], some 28⟩, ⟨75, [3, 22, 13, 109], some 29⟩,
  ⟨76, [9, 10, 109, 11, 62, 81, 63], some 30⟩, ⟨76, [12, 13, 109, 84], some 31⟩,
  ⟨76, [16, 109, 17, 90, 84], some 32⟩, ⟨76, [18, 92, 13, 93, 94, 84, 105, 106, 96, 107], some 33⟩,
  ⟨76, [18, 102, 13, 93, 94, 84, 105, 106, 96, 107], some 34⟩,
  ⟨76, [18, 108, 13, 93, 94, 84, 105, 106, 96, 107], some 35⟩, ⟨77, [79], some 36⟩, ⟨77, [77, 65, 79], some 37⟩,
  ⟨78, [110], some 38⟩, ⟨78, [78, 65, 110], some 39⟩, ⟨79, [110, 80], some 40⟩, ⟨80, [19], some 41⟩,
  ⟨80, [20, 62, 53, 63], some 42⟩, ⟨80, [21], some 43⟩, ⟨81, [82], some 44⟩, ⟨81, [81, 65, 82], some 45⟩,
  ⟨82, [53], some 46⟩, ⟨82, [54], some 47⟩, ⟨82, [52], some 48⟩, ⟨82, [55], some 49⟩, ⟨83, [86, 88, 89], some 50⟩,
  ⟨83, [103, 88, 89], some 51⟩, ⟨84, [], some 52⟩, ⟨84, [15, 85], some 53⟩, ⟨85, [83], some 54⟩,
  ⟨85, [85, 23, 83], some 55⟩, ⟨86, [109, 66, 110], some 56⟩, ⟨86, [110], some 57⟩,
  ⟨86, [109, 66, 110, 42, 51], some 58⟩, ⟨86, [110, 42, 51], some 59⟩, ⟨87, [86], some 60⟩,
  ⟨87, [87, 65, 86], some 61⟩, ⟨88, [64], some 62⟩, ⟨88, [67], some 63⟩, ⟨88, [68], some 64⟩, ⟨88, [47], some 65⟩,
  ⟨88, [46], some 66⟩, ⟨88, [48], some 67⟩, ⟨90, [91], some 78⟩, ⟨90, [90, 65, 91], some 79⟩,
  ⟨91, [110, 64, 89], some 80⟩, ⟨92, [58], some 81⟩, ⟨93, [112], some 83⟩, ⟨93, [93, 65, 112], some 84⟩,
  ⟨94, [], some 85⟩, ⟨94, [94, 95], some 86⟩, ⟨95, [24, 112, 45, 85], some 87⟩, ⟨95, [24, 112, 15, 85], some 88⟩,
  ⟨95, [25, 24, 112, 45, 85], some 89⟩, ⟨95, [25, 24, 112, 15, 85], some 90⟩, ⟨96, [43, 44, 97], some 91⟩,
  ⟨96, [], some 92⟩, ⟨97, [98], some 93⟩, ⟨98, [99], some 94⟩, ⟨98, [98, 65, 99], some 95⟩,
  ⟨99, [86, 100], some 96⟩, ⟨100, [14], some 97⟩, ⟨100, [8], some 98⟩, ⟨100, [], some 99⟩, ⟨101, [32], some 100⟩,
  ⟨101, [33], some 101⟩, ⟨103, [34, 62, 58, 63], some 104⟩, ⟨103, [34, 62, 58, 63, 42, 51], some 105⟩,
  ⟨103, [34, 62, 86, 63], some 106⟩, ⟨103, [34, 62, 86, 63, 42, 51], some 107⟩, ⟨103, [104, 62, 86, 63], some 108⟩,
  ⟨103, [104, 62, 86, 63, 42, 51], some 109⟩, ⟨104, [35], some 110⟩, ⟨104, [36], some 111⟩, ⟨104, [37], some 112⟩,
  ⟨104, [38], some 113⟩, ⟨105, [], some 114⟩, ⟨105, [39, 44, 87], some 115⟩, ⟨106, [], some 116⟩,
  ⟨106, [40, 85], some 117⟩, ⟨107, [], some 118⟩, ⟨107, [41, 53], some 119⟩, ⟨108, [86, 65, 103], some 120⟩,
  ⟨108, [103, 65, 86], some 121⟩, ⟨108, [86, 65, 86], some 122⟩, ⟨108, [103, 65, 103], some 123⟩,
  ⟨108, [108, 65, 86], some 124⟩, ⟨108, [108, 65, 103], some 125⟩, ⟨109, [51], some 126⟩, ⟨110, [51], some 127⟩,
  ⟨111, [51], some 128⟩, ⟨112, [51], some 129⟩, ⟨112, [51, 51], some 130⟩, ⟨112, [51, 42, 51], some 131⟩,
  ⟨102, [103], some 102⟩, ⟨89, [113], none⟩, ⟨89, [89, 56, 113], some 72⟩, ⟨89, [89, 57, 113], some 73⟩,
  ⟨113, [114], none⟩, ⟨113, [113, 58, 114], some 74⟩, ⟨113, [113, 59, 114], some 75⟩, ⟨114, [82], some 68⟩,
  ⟨114, [86], some 69⟩, ⟨114, [103], some 70⟩, ⟨114, [62, 76, 63], some 71⟩, ⟨114, [57, 114], some 76⟩,
  ⟨114, [62, 89, 63], some 77⟩, ⟨92, [115], some 82⟩, ⟨115, [86], some 60⟩]

theorem levels_eq : levels = levelTable := by decide +kernel

/-- Sets of tokens that may follow a word. -/
def lookTable : List (List ℕ) := [
  List.range 69, [61], [17], [64], [13, 65], [13], [62], [66], [13, 42, 65], [45], [11], [15, 61, 63], [61, 63],
  [15, 61, 63, 65], [63], [42, 63], [40, 41, 43, 61, 63, 65], [40, 41, 42, 43, 61, 63, 65],
  [15, 24, 25, 39, 40, 41, 43, 61, 63, 65],
  [8, 13, 14, 15, 23, 24, 25, 39, 40, 41, 42, 43, 46, 47, 48, 56, 57, 58, 59, 61, 63, 64, 65, 67, 68], [63, 65],
  [19, 20, 21], [23, 39, 40, 41, 43, 61, 63], [46, 47, 48, 64, 67, 68], [42, 46, 47, 48, 64, 67, 68],
  [15, 24, 25, 39, 40, 41, 43, 61, 63], [34, 35, 36, 37, 38, 51, 52, 53, 54, 55, 57, 62],
  [15, 56, 57, 58, 59, 61, 63, 65], [15, 56, 57, 61, 63, 65], [15, 42, 56, 57, 58, 59, 61, 63, 65],
  [39, 40, 41, 43, 61, 63], [15, 23, 24, 25, 39, 40, 41, 43, 61, 63],
  [15, 23, 24, 25, 39, 40, 41, 43, 56, 57, 58, 59, 61, 63], [15, 23, 24, 25, 39, 40, 41, 43, 56, 57, 61, 63],
  [15, 23, 24, 25, 39, 40, 41, 42, 43, 56, 57, 58, 59, 61, 63],
  [15, 23, 24, 25, 39, 40, 41, 43, 56, 57, 58, 59, 61, 63, 65],
  [15, 23, 24, 25, 39, 40, 41, 42, 43, 56, 57, 58, 59, 61, 63, 65], [56, 57, 58, 59, 63], [56, 57, 63],
  [42, 56, 57, 58, 59, 63], [15, 45], [40, 41, 43, 61, 63], [41, 43, 61, 63], [23, 41, 43, 61, 63], [41, 61, 63],
  [8, 14, 41, 61, 63, 65], [41, 61, 63, 65], [8, 14, 41, 42, 61, 63, 65]]

/-- For each state the symbols whose words begin there, with what may follow them. -/
def coverTable : List (ℕ × List (ℕ × ℕ)) := [
  (0, [(70, 0), (71, 1), (72, 1), (73, 1), (74, 1), (75, 1), (76, 1)]), (4, [(109, 1)]), (7, [(109, 2)]),
  (8, [(101, 3)]), (9, [(86, 4), (92, 5), (102, 5), (103, 4), (104, 6), (108, 4), (109, 7), (110, 8), (115, 5)]),
  (17, [(71, 1), (72, 1), (73, 1), (74, 1), (75, 1), (76, 1)]), (26, [(109, 1)]), (27, [(109, 6)]),
  (28, [(109, 6), (111, 9)]), (29, [(109, 1)]), (30, [(109, 6), (111, 9)]), (33, [(109, 10)]), (34, [(109, 11)]),
  (58, [(109, 1)]), (68, [(84, 12)]), (69, [(90, 13), (91, 13), (110, 3)]), (71, [(86, 14), (109, 7), (110, 15)]),
  (72, [(86, 4), (103, 4), (104, 6), (109, 7), (110, 8)]), (73, [(86, 16), (109, 7), (110, 17)]),
  (74, [(93, 18), (112, 18)]), (75, [(93, 18), (112, 18)]), (77, [(86, 4), (103, 4), (104, 6), (109, 7), (110, 8)]),
  (78, [(86, 14), (109, 7), (110, 15)]), (79, [(93, 18), (112, 18)]),
  (80, [(86, 4), (103, 4), (104, 6), (109, 7), (110, 8)]), (81, [(110, 19)]), (85, [(77, 20), (79, 20), (110, 21)]),
  (86, [(78, 20), (110, 20)]), (87, [(109, 6)]), (88, [(78, 20), (110, 20)]), (89, [(109, 1)]),
  (91, [(83, 22), (85, 22), (86, 23), (103, 23), (104, 6), (109, 7), (110, 24)]), (94, [(84, 12)]),
  (104, [(94, 25)]), (106, [(94, 25)]), (111, [(94, 25)]), (118, [(80, 20)]), (124, [(81, 20), (82, 20)]),
  (127, [(88, 26)]), (128, [(88, 26)]), (129, [(91, 13), (110, 3)]),
  (131, [(82, 27), (86, 27), (89, 28), (103, 27), (104, 6), (109, 7), (110, 29), (113, 27), (114, 27)]),
  (136, [(112, 18)]), (137, [(84, 30), (95, 25)]), (138, [(84, 30), (95, 25)]), (140, [(84, 30), (95, 25)]),
  (143, [(79, 20), (110, 21)]), (149, [(110, 20)]), (150, [(78, 20), (110, 20)]),
  (158, [(83, 31), (86, 23), (103, 23), (104, 6), (109, 7), (110, 24)]),
  (165, [(82, 32), (86, 32), (89, 33), (103, 32), (104, 6), (109, 7), (110, 34), (113, 32), (114, 32)]),
  (166, [(82, 32), (86, 32), (89, 33), (103, 32), (104, 6), (109, 7), (110, 34), (113, 32), (114, 32)]),
  (168, [(82, 35), (86, 35), (103, 35), (104, 6), (109, 7), (110, 36), (114, 35)]),
  (169, [(76, 14), (82, 37), (86, 37), (89, 38), (103, 37), (104, 6), (109, 7), (110, 39), (113, 37), (114, 37)]),
  (178, [(112, 40)]), (180, [(105, 41)]), (182, [(105, 41)]), (184, [(105, 41)]), (191, [(82, 20)]),
  (198, [(82, 35), (86, 35), (103, 35), (104, 6), (109, 7), (110, 36), (113, 35), (114, 35)]),
  (199, [(82, 35), (86, 35), (103, 35), (104, 6), (109, 7), (110, 36), (113, 35), (114, 35)]),
  (200, [(82, 35), (86, 35), (103, 35), (104, 6), (109, 7), (110, 36), (114, 35)]),
  (201, [(82, 35), (86, 35), (103, 35), (104, 6), (109, 7), (110, 36), (114, 35)]), (205, [(112, 40)]),
  (207, [(106, 42)]), (208, [(106, 42)]), (210, [(106, 42)]),
  (220, [(83, 31), (85, 31), (86, 23), (103, 23), (104, 6), (109, 7), (110, 24)]),
  (221, [(83, 31), (85, 31), (86, 23), (103, 23), (104, 6), (109, 7), (110, 24)]),
  (223, [(86, 16), (87, 16), (109, 7), (110, 17)]),
  (224, [(83, 43), (85, 43), (86, 23), (103, 23), (104, 6), (109, 7), (110, 24)]), (225, [(96, 44)]),
  (226, [(96, 44)]), (227, [(96, 44)]),
  (231, [(83, 31), (85, 31), (86, 23), (103, 23), (104, 6), (109, 7), (110, 24)]),
  (232, [(83, 31), (85, 31), (86, 23), (103, 23), (104, 6), (109, 7), (110, 24)]), (237, [(107, 12)]),
  (238, [(107, 12)]), (239, [(107, 12)]), (242, [(86, 45), (97, 44), (98, 46), (99, 46), (109, 7), (110, 47)]),
  (247, [(100, 46)]), (255, [(86, 45), (99, 46), (109, 7), (110, 47)])]

/-- What a word of a nonterminal may begin with. -/
def firstTable : List (List ℕ) := [
  [], [3, 5, 7, 8, 9, 12, 16, 17, 18, 26, 27, 28, 29, 30, 31, 49, 50],
  [3, 5, 7, 8, 9, 12, 16, 17, 18, 28, 29, 30, 31], [28, 29, 30, 31], [3, 5, 7, 8], [17], [3, 5, 7], [9, 12, 16, 18],
  [51], [51], [51], [19, 20, 21], [52, 53, 54, 55], [52, 53, 54, 55], [34, 35, 36, 37, 38, 51], [15],
  [34, 35, 36, 37, 38, 51], [51], [51], [46, 47, 48, 64, 67, 68], [34, 35, 36, 37, 38, 51, 52, 53, 54, 55, 57, 62],
  [51], [51], [51, 58], [51], [24, 25], [24, 25], [43], [51], [51], [51], [8, 14], [32, 33], [34, 35, 36, 37, 38],
  [34, 35, 36, 37, 38], [35, 36, 37, 38], [39], [40], [41], [34, 35, 36, 37, 38, 51], [51], [51], [51], [51],
  [34, 35, 36, 37, 38, 51, 52, 53, 54, 55, 57, 62], [34, 35, 36, 37, 38, 51, 52, 53, 54, 55, 57, 62], [51]]

/-- The nonterminals that have the empty word. -/
def nullableNums : List ℕ := [84, 94, 96, 100, 105, 106, 107]

def looks (s X : ℕ) : List ℕ :=
  match ((coverTable.lookup s).getD []).lookup X with
  | none => []
  | some k => lookTable.getD k []

def layers : Layers SemValue where
  rules := levels.map Level.toRule
  under := underNum
  start := Nonterminal.start.num
  terminals := 69
  looks := looks
  first X := firstTable.getD (X - 69) []
  nullable X := nullableNums.contains X

def LevelOk (level : Level) : Prop :=
  69 ≤ level.lhs ∧
    match level.number with
    | none => level.lhs ≠ Nonterminal.start.num
    | some r => rules[r]?.map (fun rule => (rule.lhs, rule.rhs, rule.final)) =
        some (underNum level.lhs, level.rhs.map underNum, decide (level.lhs = Nonterminal.start.num))

instance (level : Level) : Decidable (LevelOk level) := by
  unfold LevelOk
  cases level.number <;> infer_instance

theorem levels_ok : ∀ level ∈ levelTable, LevelOk level := by decide +kernel

theorem first_ok : ∀ level ∈ levelTable, (∀ k ∈ layers.firsts [] level.rhs, k ∈ layers.first level.lhs) ∧
    (layers.canVanish level.rhs = true → layers.nullable level.lhs = true) := by decide +kernel

theorem covers_ok : ∀ entry ∈ coverTable, ∀ look ∈ entry.2, ∀ level ∈ levelTable, level.lhs = look.1 →
    packedParser.Fits layers (lookTable.getD look.2 []) level.rhs entry.1 ∧
      packedParser.TakesRule layers level.toRule (lookTable.getD look.2 []) entry.1 level.number := by decide +kernel

end Rmdb.Ast
