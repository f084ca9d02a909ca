import Rmdb.Parser.Grammar
import Rmdb.Parser.Tables

/-! The parser of SQL statements: it stops after a number of steps that is linear in the number of tokens, and what it accepts
is a sentence of the grammar. -/
namespace Rmdb.Ast

open LrParser

/-- The parser in the form of the tables. With the initial stack of 200 entries there is no way to make it larger. -/
def sqlParser : LrParser.Parser SemValue where
  action := yyaction
  goto := yygoto
  rules := rules
  endToken := ⟨Terminal.T_EOF.num, .none⟩
  finalState := yyfinal
  room := yyinitdepth - 2

/-- What the scanner returns. -/
structure Lexeme where
  code : ℕ
  val : SemValue

def Lexeme.token (lexeme : Lexeme) : LrParser.Token SemValue := ⟨yytranslateCode lexeme.code, lexeme.val⟩

/-- The steps are more than enough; behind the tokens comes the end of the text. -/
def yyparse (lexemes : List Lexeme) : Option (Outcome SemValue) :=
  sqlParser.run (16 * lexemes.length + 3) ⟨[], lexemes.map Lexeme.token⟩

/-! ### The tables are safe -/

/-- The states from which a state is entered. -/
def predsTable : List (List ℕ) := [
  [], [0, 17], [0, 17], [0, 17], [0, 17], [0, 17, 169], [0, 17, 169], [0, 17, 169], [0, 17], [0, 17, 169], [0], [0],
  [0, 17], [0, 17], [0, 17], [0, 17], [0], [0], [], [0], [0, 17], [0, 17], [0, 17], [0, 17], [0, 17], [1], [1], [2],
  [2], [3], [3], [4, 7, 26, 27, 29, 33, 34, 58, 87, 89], [4], [5], [6], [7], [8], [8], [8],
  [9, 72, 76, 77, 80, 91, 131, 158, 165, 166, 168, 169, 198, 199, 200, 201, 220, 221, 224, 231, 232],
  [9, 72, 76, 77, 80, 91, 131, 158, 165, 166, 168, 169, 198, 199, 200, 201, 220, 221, 224, 231, 232],
  [9, 72, 76, 77, 80, 91, 131, 158, 165, 166, 168, 169, 198, 199, 200, 201, 220, 221, 224, 231, 232],
  [9, 72, 76, 77, 80, 91, 131, 158, 165, 166, 168, 169, 198, 199, 200, 201, 220, 221, 224, 231, 232],
  [9, 72, 76, 77, 80, 91, 131, 158, 165, 166, 168, 169, 198, 199, 200, 201, 220, 221, 224, 231, 232],
  [9, 71, 72, 73, 77, 78, 80, 91, 131, 158, 165, 166, 168, 169, 198, 199, 200, 201, 220, 221, 223, 224, 231, 232, 242, 255],
  [9], [9], [9], [9], [9], [9],
  [9, 72, 76, 77, 80, 91, 131, 158, 165, 166, 168, 169, 198, 199, 200, 201, 220, 221, 224, 231, 232], [9],
  [9, 71, 72, 73, 77, 78, 80, 91, 131, 158, 165, 166, 168, 169, 198, 199, 200, 201, 220, 221, 223, 224, 231, 232, 242, 255],
  [9, 71, 72, 73, 77, 78, 80, 91, 131, 158, 165, 166, 168, 169, 198, 199, 200, 201, 220, 221, 223, 224, 231, 232, 242, 255],
  [17], [], [19], [26], [26], [27], [28, 30], [28], [28], [29], [30], [30], [33], [34], [35], [38], [39], [46],
  [47, 234], [48], [49], [49], [50], [51], [52], [52], [53], [54], [55], [58], [60], [62], [63], [65], [66], [67],
  [68, 94, 137, 138, 140], [68], [69, 81, 85, 86, 88, 129, 143, 149, 150], [69], [69], [69, 129], [70], [71], [71],
  [72], [72], [73], [74, 75, 79, 136, 178, 205], [74], [74, 75, 79], [75], [76], [77], [77], [78], [79], [80], [80],
  [81], [82], [85], [85], [85, 143], [86], [86, 88, 150], [87], [88], [89], [90], [91, 220, 221, 224, 231, 232],
  [91], [91, 158, 220, 221, 224, 231, 232], [91, 158, 220, 221, 224, 231, 232], [94], [94], [96], [98], [99], [103],
  [103], [104, 106, 111], [104], [106], [110], [111], [114], [116], [116], [118], [118], [118], [118], [119],
  [119, 122, 189], [121], [122], [124, 131, 165, 166, 168, 169, 191, 198, 199, 200, 201],
  [124, 131, 165, 166, 168, 169, 191, 198, 199, 200, 201], [124, 131, 165, 166, 168, 169, 191, 198, 199, 200, 201],
  [124, 131, 165, 166, 168, 169, 191, 198, 199, 200, 201], [124], [124], [126, 229, 230, 235, 240, 241], [127, 128],
  [127, 128], [127, 128], [127, 128], [127, 128], [127, 128], [127], [128], [129],
  [131, 165, 166, 168, 169, 198, 199, 200, 201], [131, 165, 166, 168, 169, 198, 199, 200, 201],
  [131, 165, 166, 168, 169, 198, 199, 200, 201], [131, 165, 166, 168, 169, 198, 199, 200, 201], [131],
  [131, 165, 166, 168, 169, 198, 199, 200, 201], [132], [133], [134], [136], [137, 138, 140], [137, 138, 140],
  [137], [137, 138, 140], [138], [139], [140], [141], [143], [145], [149], [150], [156], [156], [158], [165], [166],
  [168], [169], [169], [172, 193, 194, 197], [172, 193, 194, 197], [172, 193, 194, 197, 216, 217],
  [172, 193, 194, 197, 216, 217], [174], [175], [178], [179], [180, 182, 184], [180], [182], [183], [184], [187],
  [189], [191], [196], [197], [198], [199], [200], [201], [204], [204], [205], [206], [207, 208, 210], [207], [208],
  [210], [211], [220], [221], [222], [222], [223], [223], [224], [225, 226, 227], [225], [226], [227], [231], [232],
  [236], [237, 238, 239], [237], [238], [239], [242, 255], [242], [242], [242], [243], [247], [247], [247], [249],
  [255]]

/-- The rules that a state reduces. -/
def reductionTable : List (List ℕ) := [
  [], [], [], [], [], [], [], [], [], [], [5], [4], [12], [13], [14], [15], [6], [], [], [], [10], [7], [11], [8],
  [9], [16], [], [], [], [], [], [126], [19], [], [], [], [100], [101], [], [], [110], [111], [112], [113],
  [126, 127], [81], [60], [82], [], [], [102], [], [], [], [57], [], [], [2], [], [22], [], [126, 128], [], [],
  [18], [], [], [], [52], [], [], [], [], [], [], [], [], [], [], [], [], [], [], [3], [29], [], [], [], [], [], [],
  [], [31], [127], [52], [78], [], [23], [], [], [122], [120], [61], [129], [85], [83], [85], [103], [121], [123],
  [], [85], [124], [125], [56], [59], [], [36], [], [], [38], [], [], [21], [], [54], [53], [], [], [], [32], [],
  [104], [106], [], [130], [], [52], [52], [108], [52], [], [17], [], [41], [], [43], [40], [27], [], [], [28],
  [48], [46], [47], [49], [], [44], [], [66], [65], [67], [62], [63], [64], [], [], [79], [], [], [68], [69], [80],
  [70], [], [], [131], [84], [], [], [114], [86], [114], [], [114], [58], [37], [], [39], [], [30], [], [55], [50],
  [51], [76], [], [], [], [], [], [], [105], [107], [], [], [], [116], [116], [109], [116], [], [20], [45], [71],
  [77], [72], [73], [74], [75], [], [], [], [], [], [92], [92], [92], [42], [88], [87], [], [], [60], [115], [117],
  [], [118], [118], [118], [90], [89], [], [], [33], [34], [35], [99], [91], [93], [94], [119], [98], [97], [96],
  [], [95]]

def potTable : List ℕ := [
  2, 0, 0, 0, 0, 0, 0, 0, 0, 0, 0, 0, 2, 2, 2, 2, 0, 0, 0, 0, 1, 1, 1, 1, 1, 1, 0, 0, 0, 0, 0, 3, 1, 0, 0, 0, 1, 1,
  0, 0, 1, 1, 1, 1, 11, 1, 2, 1, 0, 0, 1, 0, 0, 0, 10, 0, 0, 0, 0, 0, 0, 1, 0, 0, 0, 0, 0, 0, 2, 0, 0, 0, 0, 0, 0,
  0, 0, 0, 0, 0, 0, 0, 0, 0, 0, 0, 0, 0, 0, 0, 0, 0, 0, 9, 2, 3, 0, 0, 0, 0, 0, 0, 4, 14, 12, 13, 12, 0, 0, 0, 0,
  12, 0, 0, 8, 8, 0, 1, 0, 0, 1, 0, 0, 0, 0, 9, 8, 0, 0, 0, 0, 0, 7, 7, 0, 13, 0, 10, 10, 7, 10, 0, 0, 0, 2, 0, 2,
  1, 0, 0, 0, 0, 10, 10, 10, 10, 0, 1, 0, 1, 1, 1, 1, 1, 1, 0, 0, 1, 0, 0, 9, 9, 2, 9, 0, 0, 12, 11, 0, 0, 8, 10, 8,
  0, 8, 6, 0, 0, 0, 0, 0, 0, 7, 8, 8, 8, 0, 0, 0, 0, 0, 0, 5, 5, 0, 0, 0, 6, 6, 5, 6, 0, 0, 0, 7, 7, 7, 7, 7, 7, 0,
  0, 0, 0, 0, 4, 4, 4, 0, 8, 8, 0, 0, 6, 5, 4, 0, 2, 2, 2, 7, 7, 0, 0, 0, 0, 0, 5, 1, 2, 3, 0, 4, 4, 3, 0, 1]

def cert : Cert where
  preds s := predsTable.getD s []
  symbol s := PackedTable.digit 512 yystosCode s
  pot s := potTable.getD s 0
  cost := 16
  terminals := 69

def packedParser : LrParser.Parser SemValue := { sqlParser with action := packedAction, goto := packedGoto }

theorem sqlParser_eq : sqlParser = packedParser := by
  rw [packedParser, ← yyaction_eq, ← yygoto_eq]
  rfl

/-- What an entry of the tables has to meet. -/
def EntryOk (s t : ℕ) : LrParser.Action → Prop
  | .error => True
  | .shift q => s ∈ cert.preds q ∧ cert.symbol q = t ∧ q ≠ yyfinal ∧ cert.pot q + 1 < cert.pot s + cert.cost ∧
      (t = sqlParser.endToken.kind → cert.pot q + 1 < cert.pot s)
  | .reduce r => r ∈ reductionTable.getD s []

instance (s t : ℕ) : ∀ action, Decidable (EntryOk s t action)
  | .error => isTrue trivial
  | .shift _ => inferInstanceAs (Decidable (_ ∧ _ ∧ _ ∧ _ ∧ (_ → _)))
  | .reduce _ => inferInstanceAs (Decidable (_ ∈ _))

def RuleOk (s : ℕ) : Option (Rule SemValue) → Prop
  | none => False
  | some rule => packedParser.Unwinds cert rule s rule.rhs.reverse s

instance (s : ℕ) : ∀ rule, Decidable (RuleOk s rule)
  | none => isFalse id
  | some rule => packedParser.decidableUnwinds cert rule s rule.rhs.reverse s

instance (s : ℕ) : Decidable (cert.Live s) := inferInstanceAs (Decidable (s = 0 ∨ cert.preds s ≠ []))

theorem entries_ok : ∀ s < 257, cert.Live s → ∀ t < 69, EntryOk s t (packedAction s t) := by decide +kernel

theorem rules_ok : ∀ s < 257, cert.Live s → ∀ r ∈ reductionTable.getD s [], RuleOk s rules[r]? := by decide +kernel

end Rmdb.Ast
