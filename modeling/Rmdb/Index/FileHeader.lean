import Rmdb.Common.Defs
import Rmdb.System.Catalog

/-! The header of an index file on its page: words one behind the other, with the types and the lengths of the columns in
the middle. Offsets are of type `int`. -/
namespace Rmdb.FileHeader

def typeWord (type : Catalog.ColType) : BitVec 32 := .ofInt 32 type.toInt

/-- A word that is no enumerator has no meaning. -/
def wordType (w : BitVec 32) : Option Catalog.ColType := Catalog.ColType.ofInt w.toInt

@[simp] theorem wordType_typeWord (type : Catalog.ColType) : wordType (typeWord type) = some type := by
  cases type <;> rfl

structure IxFileHdr where
  firstFreePageNo : BitVec 32
  numPages : BitVec 32
  rootPage : BitVec 32
  colNum : BitVec 32
  colTypes : List Catalog.ColType
  colLens : List (BitVec 32)
  colTotLen : BitVec 32
  btreeOrder : BitVec 32
  keysSize : BitVec 32
  firstLeaf : BitVec 32
  lastLeaf : BitVec 32
  totLen : BitVec 32
deriving DecidableEq, Repr

def IxFileHdr.updateTotLen (hdr : IxFileHdr) : IxFileHdr :=
  { hdr with totLen := (4 * 4 + 4 * 6) + (4 * hdr.colNum + 4 * hdr.colNum) }

/-- A buffer and an offset in it. -/
structure Cursor where
  buffer : Bytes
  offset : BitVec 32

/-- `memcpy` of a word to the buffer; it fails before its beginning and behind its end. -/
def Cursor.put (c : Cursor) (w : BitVec 32) : Option Cursor :=
  if 0 ≤ c.offset.toInt ∧ c.offset.toInt + 4 ≤ c.buffer.length then
    some ⟨c.buffer.take c.offset.toNat ++ wordBytes w ++ c.buffer.drop (c.offset.toNat + 4), c.offset + 4⟩
  else none

def Cursor.get (c : Cursor) : Option (BitVec 32 × Cursor) :=
  if 0 ≤ c.offset.toInt ∧ c.offset.toInt + 4 ≤ c.buffer.length then
    some (readWord (c.buffer.drop c.offset.toNat), ⟨c.buffer, c.offset + 4⟩)
  else none

def IxFileHdr.cols (hdr : IxFileHdr) : List ℕ := List.range hdr.colNum.toInt.toNat

def IxFileHdr.serialize (hdr : IxFileHdr) (dest : Bytes) : Option Bytes := do
  let c ← Cursor.put ⟨dest, 0⟩ hdr.totLen
  let c ← c.put hdr.firstFreePageNo
  let c ← c.put hdr.numPages
  let c ← c.put hdr.rootPage
  let c ← c.put hdr.colNum
  let c ← hdr.cols.foldlM (fun c i => do c.put (typeWord (← hdr.colTypes[i]?))) c
  let c ← hdr.cols.foldlM (fun c i => do c.put (← hdr.colLens[i]?)) c
  let c ← c.put hdr.colTotLen
  let c ← c.put hdr.btreeOrder
  let c ← c.put hdr.keysSize
  let c ← c.put hdr.firstLeaf
  let c ← c.put hdr.lastLeaf
  guard (c.offset = hdr.totLen)
  return c.buffer

def IxFileHdr.deserialize (src : Bytes) : Option IxFileHdr := do
  let (totLen, c) ← Cursor.get ⟨src, 0⟩
  let (firstFreePageNo, c) ← c.get
  let (numPages, c) ← c.get
  let (rootPage, c) ← c.get
  let (colNum, c) ← c.get
  let (colTypes, c) ← (List.range colNum.toInt.toNat).foldlM (fun (types, c) _ => do
    let (w, c) ← Cursor.get c
    return (types ++ [← wordType w], c)) ([], c)
  let (colLens, c) ← (List.range colNum.toInt.toNat).foldlM (fun (lens, c) _ => do
    let (w, c) ← Cursor.get c
    return (lens ++ [w], c)) ([], c)
  let (colTotLen, c) ← c.get
  let (btreeOrder, c) ← c.get
  let (keysSize, c) ← c.get
  let (firstLeaf, c) ← c.get
  let (lastLeaf, c) ← c.get
  guard (c.offset = totLen)
  return ⟨firstFreePageNo, numPages, rootPage, colNum, colTypes, colLens, colTotLen, btreeOrder, keysSize, firstLeaf,
    lastLeaf, totLen⟩

/-- The vectors have as many elements as there are columns. -/
structure IxFileHdr.Formed (hdr : IxFileHdr) (n : ℕ) : Prop where
  colNum : hdr.colNum.toInt = n
  colTypes : hdr.colTypes.length = n
  colLens : hdr.colLens.length = n
  totLen : hdr.updateTotLen = hdr

/-! ### Words one behind the other -/

/-- The offset stands behind `pre`. -/
def Cursor.behind (pre rest : Bytes) : Cursor := ⟨pre ++ rest, .ofNat 32 pre.length⟩

def Cursor.putAll (c : Cursor) (ws : List (BitVec 32)) : Option Cursor := ws.foldlM put c

variable {pre rest : Bytes} {w : BitVec 32} {ws : List (BitVec 32)} {n : ℕ}

theorem ofNat_add_four (n : ℕ) : BitVec.ofNat 32 n + 4 = BitVec.ofNat 32 (n + 4) := by
  rw [BitVec.ofNat_add]
  rfl

theorem toInt_offset (h : n < 2 ^ 31) : (BitVec.ofNat 32 n).toInt = n ∧ (BitVec.ofNat 32 n).toNat = n := by
  have hmod : n % 2 ^ 32 = n := Nat.mod_eq_of_lt (by omega)
  constructor
  · rw [BitVec.toInt_eq_toNat_of_lt (by rw [BitVec.toNat_ofNat, hmod]; omega), BitVec.toNat_ofNat, hmod]
  · rw [BitVec.toNat_ofNat, hmod]

theorem Cursor.put_behind (h : pre.length + 4 ≤ 2 ^ 31) (hrest : 4 ≤ rest.length) :
    (behind pre rest).put w = some (behind (pre ++ wordBytes w) (rest.drop 4)) := by
  obtain ⟨hint, hnat⟩ := toInt_offset (by omega : pre.length < 2 ^ 31)
  have hroom : 0 ≤ (behind pre rest).offset.toInt ∧ (behind pre rest).offset.toInt + 4 ≤ (behind pre rest).buffer.length := by
    simp only [behind, hint, List.length_append]
    omega
  rw [put, if_pos hroom]
  simp only [behind, hnat, List.take_left, ← List.drop_drop, List.drop_left, ofNat_add_four, List.length_append,
    length_wordBytes]

theorem Cursor.put_behind_eq_none (hpre : pre.length ≤ 2 ^ 31) (hfour : 4 ∣ pre.length)
    (h : ¬(pre.length + 4 ≤ 2 ^ 31 ∧ 4 ≤ rest.length)) : (behind pre rest).put w = none := by
  have hno : ¬(0 ≤ (behind pre rest).offset.toInt ∧
      (behind pre rest).offset.toInt + 4 ≤ (behind pre rest).buffer.length) := by
    simp only [behind, List.length_append]
    by_cases hlt : pre.length < 2 ^ 31
    · rw [(toInt_offset hlt).1]
      omega
    · have heq : pre.length = 2 ^ 31 := by omega
      have hneg : (BitVec.ofNat 32 (2 ^ 31)).toInt < 0 := by decide
      rw [heq]
      omega
  rw [put, if_neg hno]

/-- All words are written just when they fit in what is left of the buffer, and no offset overflows. -/
theorem Cursor.putAll_behind (hpre : pre.length ≤ 2 ^ 31) (hfour : 4 ∣ pre.length) (hws : ws ≠ []) :
    (behind pre rest).putAll ws =
      if pre.length + 4 * ws.length ≤ 2 ^ 31 ∧ 4 * ws.length ≤ rest.length then
        some (behind (pre ++ ws.flatMap wordBytes) (rest.drop (4 * ws.length)))
      else none := by
  induction ws generalizing pre rest with
  | nil => exact absurd rfl hws
  | cons w ws ih =>
    unfold putAll
    rw [List.foldlM_cons]
    by_cases hfirst : pre.length + 4 ≤ 2 ^ 31 ∧ 4 ≤ rest.length
    · rw [put_behind hfirst.1 hfirst.2, Option.bind_eq_bind, Option.bind_some]
      cases ws with
      | nil => simp [hfirst, show pre.length ≤ 2147483644 by omega]
      | cons w' ws =>
        have hlen : (pre ++ wordBytes w).length = pre.length + 4 := by rw [List.length_append, length_wordBytes]
        have hrest := @ih (pre ++ wordBytes w) (rest.drop 4) (by omega) (by omega) (List.cons_ne_nil _ _)
        unfold putAll at hrest
        rw [hrest, hlen, List.length_drop, List.drop_drop, @List.flatMap_cons _ _ w, List.append_assoc]
        have hcond : (pre.length + 4 + 4 * (w' :: ws).length ≤ 2 ^ 31 ∧ 4 * (w' :: ws).length ≤ rest.length - 4) ↔
            pre.length + 4 * (w :: w' :: ws).length ≤ 2 ^ 31 ∧ 4 * (w :: w' :: ws).length ≤ rest.length := by
          simp only [List.length_cons]
          omega
        have hdrop : 4 + 4 * (w' :: ws).length = 4 * (w :: w' :: ws).length := by
          simp only [List.length_cons]
          omega
        simp only [hcond, hdrop]
    · rw [put_behind_eq_none hpre hfour hfirst]
      rw [if_neg]
      · rfl
      · simp only [List.length_cons]
        omega

theorem Cursor.get_behind (h : pre.length + 4 ≤ 2 ^ 31) :
    (behind pre (wordBytes w ++ rest)).get = some (w, behind (pre ++ wordBytes w) rest) := by
  obtain ⟨hint, hnat⟩ := toInt_offset (by omega : pre.length < 2 ^ 31)
  have hroom : 0 ≤ (behind pre (wordBytes w ++ rest)).offset.toInt ∧
      (behind pre (wordBytes w ++ rest)).offset.toInt + 4 ≤ (behind pre (wordBytes w ++ rest)).buffer.length := by
    simp only [behind, hint, List.length_append, length_wordBytes]
    omega
  rw [get, if_pos hroom]
  simp only [behind, hnat, List.drop_left, readWord_wordBytes_append, ofNat_add_four, List.append_assoc, List.length_append,
    length_wordBytes]

theorem Cursor.get_bind {α : Type} {k : BitVec 32 × Cursor → Option α} {a : α} (m : ℕ) (hpre : pre.length = m)
    (h : m + 4 ≤ 2 ^ 31) (hk : ∀ pre : Bytes, pre.length = m + 4 → k (w, behind pre rest) = some a) :
    ((behind pre (wordBytes w ++ rest)).get >>= k) = some a := by
  rw [get_behind (by omega)]
  apply hk
  rw [List.length_append, length_wordBytes, hpre]

/-! ### The header as a list of words -/

def IxFileHdr.words (hdr : IxFileHdr) : List (BitVec 32) :=
  [hdr.totLen, hdr.firstFreePageNo, hdr.numPages, hdr.rootPage, hdr.colNum] ++ hdr.colTypes.map typeWord ++
    hdr.colLens ++ [hdr.colTotLen, hdr.btreeOrder, hdr.keysSize, hdr.firstLeaf, hdr.lastLeaf]

/-- A loop over the indexes of a vector is a loop over the vector. -/
theorem foldlM_range {α : Type} (f : α → BitVec 32) (l : List α) (c : Cursor) :
    (List.range l.length).foldlM (fun c i => do c.put (f (← l[i]?))) c = c.putAll (l.map f) := by
  have hfrom : ∀ (l pre : List α) (c : Cursor), (List.range' pre.length l.length).foldlM
      (fun c i => do c.put (f (← (pre ++ l)[i]?))) c = c.putAll (l.map f) := by
    intro l
    induction l with
    | nil => exact fun _ _ => rfl
    | cons a l ih =>
      intro pre c
      have hget : (pre ++ a :: l)[pre.length]? = some a := by simp
      have hnext := fun c => ih (pre ++ [a]) c
      simp only [List.length_append, List.length_singleton, List.append_assoc, List.singleton_append] at hnext
      rw [List.length_cons, List.range'_succ, List.foldlM_cons, hget, List.map_cons, Cursor.putAll, List.foldlM_cons]
      exact bind_congr hnext
  rw [List.range_eq_range']
  exact hfrom l [] c

theorem Cursor.putAll_append (c : Cursor) (ws ws' : List (BitVec 32)) :
    c.putAll (ws ++ ws') = c.putAll ws >>= fun c => c.putAll ws' := List.foldlM_append

theorem IxFileHdr.Formed.cols {hdr : IxFileHdr} (h : hdr.Formed n) : hdr.cols = List.range n := by
  rw [IxFileHdr.cols, h.colNum, Int.toNat_natCast]

theorem IxFileHdr.Formed.serialize_eq {hdr : IxFileHdr} (h : hdr.Formed n) (dest : Bytes) :
    hdr.serialize dest = (Cursor.behind [] dest).putAll hdr.words >>= fun c => do
      guard (c.offset = hdr.totLen)
      return c.buffer := by
  have htypes := foldlM_range typeWord hdr.colTypes
  have hlens := foldlM_range id hdr.colLens
  rw [h.colTypes] at htypes
  rw [h.colLens, List.map_id] at hlens
  unfold IxFileHdr.serialize
  rw [h.cols]
  simp only [id] at hlens
  simp only [htypes, hlens, IxFileHdr.words, Cursor.putAll_append, bind_assoc]
  simp only [Cursor.putAll, List.foldlM_cons, List.foldlM_nil, bind_assoc, bind_pure]
  rfl

@[simp] theorem length_flatMap_wordBytes (ws : List (BitVec 32)) : (ws.flatMap wordBytes).length = 4 * ws.length := by
  induction ws with
  | nil => rfl
  | cons w ws ih =>
    rw [List.flatMap_cons, List.length_append, ih, length_wordBytes, List.length_cons]
    omega

/-- A loop that reads back what was written. -/
theorem foldlM_get {α : Type} {f : α → BitVec 32} {read : List α × Cursor → ℕ → Option (List α × Cursor)}
    (hread : ∀ (as : List α) (a : α) (c c' : Cursor) (i : ℕ), c.get = some (f a, c') → read (as, c) i = some (as ++ [a], c'))
    (l : List α) (indexes : List ℕ) (hlen : indexes.length = l.length) (h : pre.length + 4 * l.length ≤ 2 ^ 31)
    (as : List α) :
    indexes.foldlM read (as, Cursor.behind pre ((l.map f).flatMap wordBytes ++ rest)) =
      some (as ++ l, Cursor.behind (pre ++ (l.map f).flatMap wordBytes) rest) := by
  induction l generalizing indexes pre as with
  | nil =>
    rw [List.eq_nil_of_length_eq_zero hlen]
    simp
  | cons a l ih =>
    cases indexes with
    | nil => cases hlen
    | cons i indexes =>
      rw [List.length_cons] at h
      have hlong : (pre ++ wordBytes (f a)).length = pre.length + 4 := by rw [List.length_append, length_wordBytes]
      have hrest := @ih (pre ++ wordBytes (f a)) indexes (Nat.succ.inj hlen) (by omega) (as ++ [a])
      rw [List.foldlM_cons, List.map_cons, List.flatMap_cons, List.append_assoc,
        hread as a _ _ i (Cursor.get_behind (by omega)), Option.bind_eq_bind, Option.bind_some]
      rw [List.append_assoc, List.append_assoc] at hrest
      exact hrest

theorem foldlM_get_bind {α β : Type} {f : α → BitVec 32} {read : List α × Cursor → ℕ → Option (List α × Cursor)}
    {k : List α × Cursor → Option β} {b : β} {l : List α} {ws : Bytes} (m : ℕ)
    (hread : ∀ (as : List α) (a : α) (c c' : Cursor) (i : ℕ), c.get = some (f a, c') → read (as, c) i = some (as ++ [a], c'))
    (hl : l.length = n) (hws : ws = (l.map f).flatMap wordBytes) (hpre : pre.length = m) (h : m + 4 * n ≤ 2 ^ 31)
    (hk : ∀ pre : Bytes, pre.length = m + 4 * n → k (l, Cursor.behind pre rest) = some b) :
    ((List.range n).foldlM read ([], Cursor.behind pre (ws ++ rest)) >>= k) = some b := by
  rw [hws, foldlM_get hread l _ (by rw [List.length_range, hl]) (by omega)]
  apply hk
  rw [List.length_append, length_flatMap_wordBytes, List.length_map, hpre, hl]

theorem IxFileHdr.Formed.totLen_eq {hdr : IxFileHdr} (h : hdr.Formed n) :
    BitVec.ofNat 32 (40 + 8 * n) = hdr.totLen := by
  have hcolNum : hdr.colNum = BitVec.ofNat 32 n := by
    rw [← BitVec.ofInt_natCast, ← h.colNum, BitVec.ofInt_toInt]
  rw [← congrArg IxFileHdr.totLen h.totLen, IxFileHdr.updateTotLen, hcolNum]
  have hsum : 40 + 8 * n = 4 * 4 + 4 * 6 + (4 * n + 4 * n) := by omega
  rw [hsum, BitVec.ofNat_add, BitVec.ofNat_add (4 * n), BitVec.ofNat_mul]
  rfl

/-- What was written is read back, whatever stands behind it. -/
theorem IxFileHdr.Formed.deserialize_words {hdr : IxFileHdr} (h : hdr.Formed n) (hfits : 40 + 8 * n ≤ 2 ^ 31) (rest : Bytes) :
    IxFileHdr.deserialize (hdr.words.flatMap wordBytes ++ rest) = some hdr := by
  have hn : hdr.colNum.toInt.toNat = n := by rw [h.colNum, Int.toNat_natCast]
  have htotLen := h.totLen_eq
  obtain ⟨types, htypes⟩ : ∃ types, types = (hdr.colTypes.map typeWord).flatMap wordBytes := ⟨_, rfl⟩
  obtain ⟨lens, hlens⟩ : ∃ lens, lens = (hdr.colLens.map id).flatMap wordBytes := ⟨_, rfl⟩
  have hsrc : hdr.words.flatMap wordBytes ++ rest = wordBytes hdr.totLen ++ (wordBytes hdr.firstFreePageNo ++
      (wordBytes hdr.numPages ++ (wordBytes hdr.rootPage ++ (wordBytes hdr.colNum ++ (types ++ (lens ++
      (wordBytes hdr.colTotLen ++ (wordBytes hdr.btreeOrder ++ (wordBytes hdr.keysSize ++ (wordBytes hdr.firstLeaf ++
      (wordBytes hdr.lastLeaf ++ rest))))))))))) := by
    simp only [IxFileHdr.words, List.flatMap_append, List.flatMap_cons, List.flatMap_nil, List.append_assoc, List.append_nil,
      htypes, hlens, List.map_id]
  have hstart (src : Bytes) : (⟨src, 0⟩ : Cursor) = Cursor.behind [] src := rfl
  unfold IxFileHdr.deserialize
  rw [hstart, hsrc]
  apply Cursor.get_bind 0 rfl (by omega)
  intro pre hpre
  apply Cursor.get_bind 4 hpre (by omega)
  intro pre hpre
  apply Cursor.get_bind 8 hpre (by omega)
  intro pre hpre
  apply Cursor.get_bind 12 hpre (by omega)
  intro pre hpre
  apply Cursor.get_bind 16 hpre (by omega)
  intro pre hpre
  simp only [hn]
  apply foldlM_get_bind 20 (fun _ _ _ _ _ hget => by simp [hget]) h.colTypes htypes hpre (by omega)
  intro pre hpre
  apply foldlM_get_bind (20 + 4 * n) (fun _ _ _ _ _ hget => by simp [hget]) h.colLens hlens hpre (by omega)
  intro pre hpre
  apply Cursor.get_bind (20 + 8 * n) (by omega) (by omega)
  intro pre hpre
  apply Cursor.get_bind (24 + 8 * n) (by omega) (by omega)
  intro pre hpre
  apply Cursor.get_bind (28 + 8 * n) (by omega) (by omega)
  intro pre hpre
  apply Cursor.get_bind (32 + 8 * n) (by omega) (by omega)
  intro pre hpre
  apply Cursor.get_bind (36 + 8 * n) (by omega) (by omega)
  intro pre hpre
  have hoffset : (Cursor.behind pre rest).offset = hdr.totLen := by
    rw [← htotLen, Cursor.behind, hpre, show 36 + 8 * n + 4 = 40 + 8 * n by omega]
  simp only [hoffset]
  rfl

theorem IxFileHdr.Formed.length_words {hdr : IxFileHdr} (h : hdr.Formed n) : hdr.words.length = 10 + 2 * n := by
  simp only [IxFileHdr.words, List.length_append, List.length_map, List.length_cons, List.length_nil, h.colTypes, h.colLens]
  omega

/-- The assertion at the end is no condition of its own. -/
theorem IxFileHdr.Formed.serialize_eq_ite {hdr : IxFileHdr} (h : hdr.Formed n) (dest : Bytes) :
    hdr.serialize dest =
      if 40 + 8 * n ≤ 2 ^ 31 ∧ 40 + 8 * n ≤ dest.length then
        some (hdr.words.flatMap wordBytes ++ dest.drop (40 + 8 * n))
      else none := by
  have hne : hdr.words ≠ [] := by simp [IxFileHdr.words]
  have hlength : 4 * hdr.words.length = 40 + 8 * n := by
    rw [h.length_words]
    omega
  rw [h.serialize_eq, Cursor.putAll_behind (Nat.zero_le _) (Nat.dvd_zero _) hne, hlength, List.length_nil, Nat.zero_add]
  by_cases hfits : 40 + 8 * n ≤ 2 ^ 31 ∧ 40 + 8 * n ≤ dest.length
  · have hoffset : (Cursor.behind ([] ++ hdr.words.flatMap wordBytes) (dest.drop (40 + 8 * n))).offset = hdr.totLen := by
      rw [Cursor.behind, List.nil_append, length_flatMap_wordBytes, hlength, h.totLen_eq]
    rw [if_pos hfits, if_pos hfits, Option.bind_eq_bind, Option.bind_some]
    simp only [hoffset]
    rfl
  · rw [if_neg hfits, if_neg hfits]
    rfl

/-- The header is written to the buffer and read back from it; no assertion stops either. -/
def RoundTrips (hdr : IxFileHdr) (dest : Bytes) : Prop :=
  ∃ bytes, hdr.serialize dest = some bytes ∧ IxFileHdr.deserialize bytes = some hdr

theorem roundTrips_iff {hdr : IxFileHdr} (h : hdr.Formed n) (dest : Bytes) :
    RoundTrips hdr dest ↔ 40 + 8 * n ≤ 2 ^ 31 ∧ 40 + 8 * n ≤ dest.length := by
  unfold RoundTrips
  rw [h.serialize_eq_ite]
  constructor
  · intro hround
    by_contra hfits
    rw [if_neg hfits] at hround
    simp at hround
  · intro hfits
    rw [if_pos hfits]
    exact ⟨_, rfl, h.deserialize_words hfits.1 _⟩

/-- An index on an integer and a string of 16 bytes. -/
theorem roundTrips_twoColumns : RoundTrips ⟨-1, 3, 2, 2, [.int, .string], [4, 16], 20, 144, 2900, 2, 2, 56⟩
    (List.replicate 4096 0) := by
  apply (roundTrips_iff ⟨rfl, rfl, rfl, rfl⟩ _).mpr
  rw [List.length_replicate]
  decide

/-- The header of an index of `2 ^ 28` integer columns: the offset turns negative. -/
theorem not_forall_roundTrips : ¬∀ (hdr : IxFileHdr) (n : ℕ), hdr.Formed n →
    ∃ size, ∀ dest : Bytes, size ≤ dest.length → RoundTrips hdr dest := by
  intro hall
  have hformed : IxFileHdr.Formed ⟨-1, 3, 2, 2 ^ 28, List.replicate (2 ^ 28) .int, List.replicate (2 ^ 28) 4, 2 ^ 30, 3, 0, 2,
      2, -2 ^ 31 + 40⟩ (2 ^ 28) := by
    constructor
    · rfl
    · exact List.length_replicate
    · exact List.length_replicate
    · rfl
  obtain ⟨size, hsize⟩ := hall _ _ hformed
  have hfits := (roundTrips_iff hformed _).mp (hsize (List.replicate size 0) (Nat.le_of_eq List.length_replicate.symm))
  omega

end Rmdb.FileHeader
