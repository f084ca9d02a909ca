import Rmdb.Lib.LrParser
import Rmdb.Lib.PackedTable

/-! The tables of the parser and how they are looked up. -/
namespace Rmdb.Ast

open LrParser

/-- The symbol of a token code. -/
def yytranslate : List ℕ := [
  0, 2, 2, 2, 2, 2, 2, 2, 2, 2, 2, 2, 2, 2, 2, 2, 2, 2, 2, 2, 2, 2, 2, 2, 2, 2, 2, 2, 2, 2, 2, 2, 2, 2, 2, 2, 2, 2,
  2, 2, 62, 63, 58, 56, 65, 57, 66, 59, 2, 2, 2, 2, 2, 2, 2, 2, 2, 2, 2, 61, 67, 64, 68, 2, 2, 2, 2, 2, 2, 2, 2, 2,
  2, 2, 2, 2, 2, 2, 2, 2, 2, 2, 2, 2, 2, 2, 2, 2, 2, 2, 2, 2, 2, 2, 2, 2, 2, 2, 2, 2, 2, 2, 2, 2, 2, 2, 2, 2, 2, 2,
  2, 2, 2, 2, 2, 2, 2, 2, 2, 2, 2, 2, 2, 2, 2, 2, 2, 2, 2, 2, 2, 2, 2, 2, 2, 2, 2, 2, 2, 2, 2, 2, 2, 2, 2, 2, 2, 2,
  2, 2, 2, 2, 2, 2, 2, 2, 2, 2, 2, 2, 2, 2, 2, 2, 2, 2, 2, 2, 2, 2, 2, 2, 2, 2, 2, 2, 2, 2, 2, 2, 2, 2, 2, 2, 2, 2,
  2, 2, 2, 2, 2, 2, 2, 2, 2, 2, 2, 2, 2, 2, 2, 2, 2, 2, 2, 2, 2, 2, 2, 2, 2, 2, 2, 2, 2, 2, 2, 2, 2, 2, 2, 2, 2, 2,
  2, 2, 2, 2, 2, 2, 2, 2, 2, 2, 2, 2, 2, 2, 2, 2, 2, 2, 2, 2, 2, 2, 2, 2, 2, 2, 2, 2, 2, 2, 2, 2, 1, 2, 3, 4, 5, 6,
  7, 8, 9, 10, 11, 12, 13, 14, 15, 16, 17, 18, 19, 20, 21, 22, 23, 24, 25, 26, 27, 28, 29, 30, 31, 32, 33, 34, 35,
  36, 37, 38, 39, 40, 41, 42, 43, 44, 45, 46, 47, 48, 49, 50, 51, 52, 53, 54, 55, 60]

/-- Where the entries of a state begin in `yytable`. -/
def yypact : List ℤ := [
  134, 6, 14, 23, -29, 24, 43, -29, 46, 191, -151, -151, -151, -151, -151, -151, -151, 163, 60, 26, -151, -151,
  -151, -151, -151, -151, -5, -29, 39, -29, 39, -151, -151, -29, -29, 58, -151, -151, 29, 61, -151, -151, -151,
  -151, 74, -151, 82, 108, 113, -11, 117, 128, -7, 141, 167, 149, -151, -151, -29, -151, 168, 194, 181, 199, -151,
  183, 202, 237, 235, 200, 197, 8, 81, 203, 204, 204, 161, 81, 203, 204, 81, 200, 205, -151, -151, 200, 200, -29,
  200, -29, 195, 81, -151, -151, -8, -151, 189, -151, 196, 198, -151, -151, -151, 10, 193, -151, 193, -151, -151,
  -151, 201, 193, -151, -151, 218, -151, 2, -151, 115, 35, -151, 206, 94, -151, 54, -151, 239, 57, 57, 200, -151,
  151, 221, 223, 215, -151, 204, 17, 17, 225, 17, 219, -151, 200, -151, 207, -151, -151, -151, 200, 200, -151, -151,
  -151, -151, -151, 104, -151, 81, -151, -151, -151, -151, -151, -151, 151, 151, -151, 151, 76, -151, -151, 160,
  -151, 220, 222, -151, -151, 204, 248, 236, -151, 236, 226, 236, -151, -151, 227, -151, 111, -151, 54, -151, 160,
  160, -151, 211, 178, 151, 151, 151, 151, -151, -151, -2, 204, 232, 238, 238, -151, 238, 216, -151, -151, -151,
  -151, 95, 95, -151, -151, 81, 81, -1, 203, 81, 240, 240, 240, -151, 239, 239, 81, 81, -151, 108, 239, 241, 243,
  243, 243, 239, 239, 203, 228, -151, -151, -151, 75, -151, 217, -151, -151, -151, -151, -151, 203, -151]

/-- What a state reduces where `yytable` does not say otherwise; 0 is an error. -/
def yydefact : List ℤ := [
  0, 0, 0, 0, 0, 0, 0, 0, 0, 0, 5, 4, 12, 13, 14, 15, 6, 0, 0, 0, 10, 7, 11, 8, 9, 16, 0, 0, 0, 0, 0, 126, 19, 0, 0,
  0, 100, 101, 0, 0, 110, 111, 112, 113, 127, 81, 60, 82, 0, 0, 102, 0, 0, 0, 57, 0, 1, 2, 0, 22, 0, 126, 0, 0, 18,
  0, 0, 0, 52, 0, 0, 0, 0, 0, 0, 0, 0, 0, 0, 0, 0, 0, 0, 3, 29, 0, 0, 0, 0, 0, 0, 0, 31, 127, 52, 78, 0, 23, 0, 0,
  122, 120, 61, 129, 85, 83, 85, 103, 121, 123, 0, 85, 124, 125, 56, 59, 0, 36, 0, 0, 38, 0, 0, 21, 0, 54, 53, 0, 0,
  0, 32, 0, 104, 106, 0, 130, 0, 52, 52, 108, 52, 0, 17, 0, 41, 0, 43, 40, 27, 0, 0, 28, 48, 46, 47, 49, 0, 44, 0,
  66, 65, 67, 62, 63, 64, 0, 0, 79, 0, 0, 68, 69, 80, 70, 0, 0, 131, 84, 0, 0, 114, 86, 114, 0, 114, 58, 37, 0, 39,
  0, 30, 0, 55, 50, 51, 76, 0, 0, 0, 0, 0, 0, 105, 107, 0, 0, 0, 116, 116, 109, 116, 0, 20, 45, 71, 77, 72, 73, 74,
  75, 0, 0, 0, 0, 0, 92, 92, 92, 42, 88, 87, 0, 0, 60, 115, 117, 0, 118, 118, 118, 90, 89, 0, 0, 33, 34, 35, 99, 91,
  93, 94, 119, 98, 97, 96, 0, 95]

/-- Where the entries of a nonterminal begin in `yytable`. -/
def yypgoto : List ℤ := [
  -151, -151, 269, -151, -151, -151, -151, 118, -151, -77, 145, -151, -151, -121, 131, -41, -76, -9, 67, 164, -150,
  -151, 162, -151, -40, -94, -151, -49, -151, -151, 38, -151, -151, -151, 0, -151, -62, 30, -38, -151, -3, -48, 264,
  -131]

/-- Where a nonterminal leads to where `yytable` does not say otherwise. -/
def yydefgoto : List ℤ := [
  0, 18, 19, 20, 21, 22, 23, 24, 116, 119, 117, 147, 156, 170, 125, 92, 126, 171, 47, 165, 172, 94, 95, 48, 104,
  137, 181, 237, 248, 249, 250, 254, 38, 49, 173, 51, 207, 225, 244, 52, 53, 54, 63, 105]

/-- A state to shift to, or the negative of a rule to reduce. -/
def yytable : List ℤ := [
  46, 32, 75, 157, 35, 177, 79, 91, 58, 50, 25, 122, 138, 220, 231, 193, 194, 140, 195, 197, 27, 96, 31, 59, 60, 62,
  64, 65, 26, 29, 67, 68, 91, 114, 33, 106, 28, 118, 120, 111, 120, 178, 179, 221, 232, 30, 31, 204, 216, 217, 218,
  219, 134, 130, 76, 84, 34, 129, 80, 44, 56, 135, 99, 100, 102, 142, 98, 143, 108, 110, 213, 112, 101, 189, 222,
  69, 107, 109, 36, 37, 113, 96, 127, 252, 121, 5, 123, 57, 6, 253, 61, 128, 7, 70, 9, 118, 180, 182, 148, 184, 149,
  188, 120, 159, 160, 161, 152, 153, 154, 155, 39, 40, 41, 42, 43, 39, 40, 41, 42, 43, 208, 162, 210, 71, 163, 164,
  74, 44, 152, 153, 154, 155, 44, 168, 144, 145, 146, 1, 169, 2, -126, 3, 4, 5, 229, 230, 6, 72, 235, 127, 7, 8, 9,
  200, 201, 240, 241, 151, 128, 149, 10, 11, 12, 13, 14, 15, 1, 190, 2, 191, 3, 4, 5, 73, 212, 6, 149, 238, 239, 7,
  8, 9, 77, 16, 17, 39, 40, 41, 42, 43, 78, 12, 13, 14, 15, 39, 40, 41, 42, 43, 245, 246, 44, 152, 153, 154, 155,
  81, 168, 82, 83, 127, 127, 169, 233, 127, 198, 199, 200, 201, 128, 128, 127, 127, 128, 39, 40, 41, 42, 43, 85,
  128, 128, 247, 198, 199, 200, 201, 226, -128, 227, 215, 44, 86, 87, 88, 247, 89, 90, 45, 91, 93, 97, 131, 44, 103,
  115, 124, 136, 132, 141, 133, 158, 174, 139, 175, 176, 183, 150, 187, 185, 202, 205, 203, 214, 206, 223, 209, 224,
  228, 211, 251, 255, 236, 243, 242, 55, 196, 186, 192, 234, 167, 166, 256, 66]

/-- Which symbol, or which state, an entry of `yytable` is for. -/
def yycheck : List ℤ := [
  9, 4, 13, 124, 7, 136, 13, 15, 13, 9, 4, 88, 106, 15, 15, 165, 166, 111, 168, 169, 6, 69, 51, 26, 27, 28, 29, 30,
  22, 6, 33, 34, 15, 81, 10, 75, 22, 85, 86, 79, 88, 24, 25, 45, 45, 22, 51, 178, 198, 199, 200, 201, 42, 94, 65,
  58, 13, 65, 65, 51, 0, 51, 71, 72, 73, 63, 58, 65, 77, 78, 191, 80, 72, 150, 205, 17, 76, 77, 32, 33, 80, 129, 91,
  8, 87, 9, 89, 61, 12, 14, 51, 91, 16, 64, 18, 143, 137, 138, 63, 140, 65, 149, 150, 46, 47, 48, 52, 53, 54, 55,
  34, 35, 36, 37, 38, 34, 35, 36, 37, 38, 182, 64, 184, 62, 67, 68, 13, 51, 52, 53, 54, 55, 51, 57, 19, 20, 21, 3,
  62, 5, 66, 7, 8, 9, 220, 221, 12, 65, 224, 158, 16, 17, 18, 58, 59, 231, 232, 63, 158, 65, 26, 27, 28, 29, 30, 31,
  3, 63, 5, 65, 7, 8, 9, 65, 63, 12, 65, 226, 227, 16, 17, 18, 65, 49, 50, 34, 35, 36, 37, 38, 62, 28, 29, 30, 31,
  34, 35, 36, 37, 38, 238, 239, 51, 52, 53, 54, 55, 66, 57, 42, 61, 220, 221, 62, 223, 224, 56, 57, 58, 59, 220,
  221, 231, 232, 224, 34, 35, 36, 37, 38, 62, 231, 232, 242, 56, 57, 58, 59, 208, 45, 210, 63, 51, 62, 45, 62, 255,
  45, 11, 58, 15, 51, 55, 64, 51, 51, 51, 62, 65, 63, 42, 63, 23, 42, 63, 42, 51, 42, 62, 62, 51, 51, 24, 51, 63,
  39, 44, 51, 40, 63, 53, 53, 65, 43, 41, 44, 17, 169, 143, 158, 223, 129, 128, 255, 30]

/-- The symbol that leads to a state. -/
def yystos : List ℤ := [
  0, 3, 5, 7, 8, 9, 12, 16, 17, 18, 26, 27, 28, 29, 30, 31, 49, 50, 70, 71, 72, 73, 74, 75, 76, 4, 22, 6, 22, 6, 22,
  51, 109, 10, 13, 109, 32, 33, 101, 34, 35, 36, 37, 38, 51, 58, 86, 87, 92, 102, 103, 104, 108, 109, 110, 71, 0,
  61, 13, 109, 109, 51, 109, 111, 109, 109, 111, 109, 109, 17, 64, 62, 65, 65, 13, 13, 65, 65, 62, 13, 65, 66, 42,
  61, 109, 62, 62, 45, 62, 45, 11, 15, 84, 51, 90, 91, 110, 55, 58, 86, 86, 103, 86, 51, 93, 112, 93, 103, 86, 103,
  86, 93, 86, 103, 110, 51, 77, 79, 110, 78, 110, 109, 78, 109, 62, 83, 85, 86, 103, 65, 84, 64, 63, 63, 42, 51, 65,
  94, 94, 63, 94, 42, 63, 65, 19, 20, 21, 80, 63, 65, 62, 63, 52, 53, 54, 55, 81, 82, 23, 46, 47, 48, 64, 67, 68,
  88, 88, 91, 57, 62, 82, 86, 89, 103, 42, 42, 51, 112, 24, 25, 84, 95, 84, 42, 84, 51, 79, 62, 110, 78, 63, 65, 83,
  89, 89, 89, 76, 89, 56, 57, 58, 59, 51, 51, 112, 24, 39, 105, 105, 51, 105, 53, 63, 82, 63, 63, 89, 89, 89, 89,
  15, 45, 112, 44, 40, 106, 106, 106, 63, 85, 85, 15, 45, 86, 87, 85, 43, 96, 96, 96, 85, 85, 44, 41, 107, 107, 107,
  86, 97, 98, 99, 53, 8, 14, 100, 65, 99]

def yypactNinf : ℤ := -151

def yytableNinf : ℤ := -129

def yylast : ℤ := 294

def yyntokens : ℕ := 69

def yyfinal : ℕ := 56

def yyinitdepth : ℕ := 200

/-- `YYTRANSLATE`; other codes are not of any token. -/
def yytranslateCode (code : ℕ) : ℕ := yytranslate.getD code 2

def yydefault (state : ℕ) : LrParser.Action :=
  let yyn := yydefact.getD state 0
  if yyn = 0 then .error else .reduce yyn.toNat

/-- `yybackup`: what a state does with a symbol. -/
def yyaction (state token : ℕ) : LrParser.Action :=
  let yyn := yypact.getD state yypactNinf
  if yyn = yypactNinf then yydefault state
  else
    let yyn := yyn + token
    if yyn < 0 ∨ yylast < yyn ∨ yycheck.getD yyn.toNat 0 ≠ token then yydefault state
    else
      let yyn := yytable.getD yyn.toNat yytableNinf
      if yyn ≤ 0 then .reduce (-yyn).toNat else .shift yyn.toNat

/-- The end of `yyreduce`: the state behind a nonterminal. -/
def yygoto (state lhs : ℕ) : ℕ :=
  let yylhs := lhs - yyntokens
  let yyi := yypgoto.getD yylhs yypactNinf + state
  (if 0 ≤ yyi ∧ yyi ≤ yylast ∧ yycheck.getD yyi.toNat 0 = state then yytable.getD yyi.toNat yytableNinf
    else yydefgoto.getD yylhs 0).toNat

/-! ### The same with packed tables -/

def yypactCode : ℕ := PackedTable.pack 512 151 yypact

def yydefactCode : ℕ := PackedTable.pack 512 0 yydefact

def yypgotoCode : ℕ := PackedTable.pack 512 151 yypgoto

def yydefgotoCode : ℕ := PackedTable.pack 512 0 yydefgoto

def yytableCode : ℕ := PackedTable.pack 512 129 yytable

def yycheckCode : ℕ := PackedTable.pack 512 0 yycheck

def yystosCode : ℕ := PackedTable.pack 512 0 yystos

def packedDefault (state : ℕ) : LrParser.Action :=
  match PackedTable.digit 512 yydefactCode state with
  | 0 => .error
  | r + 1 => .reduce (r + 1)

@[irreducible] def packedAction (state token : ℕ) : LrParser.Action :=
  let n := PackedTable.digit 512 yypactCode state
  if n == 0 then packedDefault state
  else if Nat.ble 151 (n + token) && Nat.ble (n + token) 445 &&
      PackedTable.digit 512 yycheckCode (n + token - 151) == token then
    let entry := PackedTable.digit 512 yytableCode (n + token - 151)
    if Nat.ble entry 129 then .reduce (129 - entry) else .shift (entry - 129)
  else packedDefault state

@[irreducible] def packedGoto (state lhs : ℕ) : ℕ :=
  let i := PackedTable.digit 512 yypgotoCode (lhs - 69) + state
  if Nat.ble 151 i && Nat.ble i 445 && PackedTable.digit 512 yycheckCode (i - 151) == state then
    PackedTable.digit 512 yytableCode (i - 151) - 129
  else PackedTable.digit 512 yydefgotoCode (lhs - 69)

theorem yydefault_eq (state : ℕ) : yydefault state = packedDefault state := by
  have hdigit := PackedTable.digit_pack (show PackedTable.Packs 512 0 yydefact by decide +kernel) state
  unfold yydefault packedDefault yydefactCode
  dsimp only
  rw [neg_zero, add_zero] at hdigit
  rw [← hdigit]
  cases PackedTable.digit 512 (PackedTable.pack 512 0 yydefact) state with
  | zero => rfl
  | succ r => rw [if_neg (by omega), Int.toNat_natCast]

theorem yycheck_eq (i : ℕ) : yycheck.getD i 0 = PackedTable.digit 512 yycheckCode i := by
  have hdigit := PackedTable.digit_pack (show PackedTable.Packs 512 0 yycheck by decide +kernel) i
  rw [neg_zero, add_zero] at hdigit
  exact hdigit.symm

theorem yytable_eq (i : ℕ) : yytable.getD i yytableNinf = PackedTable.digit 512 yytableCode i - 129 := by
  have hdigit := PackedTable.digit_pack (show PackedTable.Packs 512 129 yytable by decide +kernel) i
  unfold yytableNinf yytableCode
  omega

theorem yyaction_eq : yyaction = packedAction := by
  funext state token
  have hdigit := PackedTable.digit_pack (show PackedTable.Packs 512 151 yypact by decide +kernel) state
  have hpact : yypact.getD state yypactNinf = PackedTable.digit 512 yypactCode state - 151 := by
    unfold yypactNinf yypactCode
    omega
  unfold yyaction packedAction
  dsimp only
  rw [hpact, yydefault_eq]
  generalize PackedTable.digit 512 yypactCode state = n
  have hindex : ((n : ℤ) - 151 + token).toNat = n + token - 151 := by omega
  rw [hindex, yycheck_eq, yytable_eq]
  generalize PackedTable.digit 512 yycheckCode (n + token - 151) = check
  generalize PackedTable.digit 512 yytableCode (n + token - 151) = entry
  have hninf : yypactNinf = -151 := rfl
  have hlast : yylast = 294 := rfl
  simp only [Nat.ble_eq, Bool.and_eq_true, beq_iff_eq]
  by_cases hn : n = 0
  · rw [if_pos (show (n : ℤ) - 151 = yypactNinf by omega), if_pos hn]
  rw [if_neg (show ¬(n : ℤ) - 151 = yypactNinf by omega), if_neg hn]
  by_cases hin : (151 ≤ n + token ∧ n + token ≤ 445) ∧ check = token
  · rw [if_neg (by omega), if_pos hin]
    by_cases hentry : entry ≤ 129
    · rw [if_pos (by omega), if_pos hentry]
      exact congrArg Action.reduce (by omega)
    · rw [if_neg (by omega), if_neg hentry]
      exact congrArg Action.shift (by omega)
  · rw [if_pos (by omega), if_neg hin]

theorem yygoto_eq : yygoto = packedGoto := by
  funext state lhs
  have hdigit := PackedTable.digit_pack (show PackedTable.Packs 512 151 yypgoto by decide +kernel) (lhs - 69)
  have hpgoto : yypgoto.getD (lhs - yyntokens) yypactNinf = PackedTable.digit 512 yypgotoCode (lhs - 69) - 151 := by
    unfold yypactNinf yypgotoCode yyntokens
    omega
  have hdefault := PackedTable.digit_pack (show PackedTable.Packs 512 0 yydefgoto by decide +kernel) (lhs - 69)
  rw [neg_zero, add_zero] at hdefault
  unfold yygoto packedGoto
  dsimp only
  rw [hpgoto]
  generalize PackedTable.digit 512 yypgotoCode (lhs - 69) = n
  have hindex : ((n : ℤ) - 151 + state).toNat = n + state - 151 := by omega
  rw [hindex, yycheck_eq, yytable_eq, yyntokens, ← hdefault, ← yydefgotoCode]
  generalize PackedTable.digit 512 yycheckCode (n + state - 151) = check
  generalize PackedTable.digit 512 yytableCode (n + state - 151) = entry
  have hlast : yylast = 294 := rfl
  simp only [Nat.ble_eq, Bool.and_eq_true, beq_iff_eq]
  by_cases hin : (151 ≤ n + state ∧ n + state ≤ 445) ∧ check = state
  · rw [if_pos (by omega), if_pos hin]
    omega
  · rw [if_neg (by omega), if_neg hin, Int.toNat_natCast]

end Rmdb.Ast
