import Rmdb.Record.RmFile

/-! The scan of a record file, which walks the pages and their bitmaps on its own. -/
namespace Rmdb

/-- Page by page, and in a page by slot. -/
def Rid.Before (a b : Rid) : Prop := a.pageNo < b.pageNo ∨ a.pageNo = b.pageNo ∧ a.slotNo < b.slotNo

namespace RmScan

/-- Where a scan stands that is at its end. -/
def atEnd : Rid := ⟨rmNoPage, -1⟩

section scan
variable (f : RmFile)

/-- The next slot in use; the loop goes from page to page. -/
def next : ℕ → Rid → Option Rid
  | 0, _ => none
  | fuel + 1, rid =>
    if rid.pageNo = rmNoPage then some rid
    else if f.hdr.numPages ≤ rid.pageNo then some atEnd
    else
      match f.fetchPageHandle rid.pageNo with
      | none => next fuel ⟨rid.pageNo + 1, -1⟩
      | some page =>
        let nextSlot := Bitmap.nextBit true (RmPage.bitmap f.hdr page) f.hdr.numRecordsPerPage rid.slotNo
        if nextSlot < f.hdr.numRecordsPerPage then some ⟨rid.pageNo, nextSlot⟩
        else if f.hdr.numPages ≤ rid.pageNo + 1 then some atEnd
        else next fuel ⟨rid.pageNo + 1, -1⟩

def start (fuel : ℕ) : Option Rid := next f fuel ⟨rmFirstRecordPage, -1⟩

def isEnd (rid : Rid) : Bool := rid.pageNo = rmNoPage ∨ f.hdr.numPages ≤ rid.pageNo ∨ rid.slotNo < 0

def ridsFrom (fuel : ℕ) : ℕ → Rid → Option (List Rid)
  | 0, _ => none
  | steps + 1, rid =>
    if isEnd f rid then some []
    else (next f fuel rid).bind fun rid' => (ridsFrom fuel steps rid').map (rid :: ·)

/-- The `rid()` values of a scan. -/
def rids (fuel : ℕ) : Option (List Rid) := (start f fuel).bind (ridsFrom f fuel fuel)

/-- The slots of a page in use, behind a slot number. -/
def slotsBehind (pageNo slotNo : ℤ) : List Rid :=
  if f.hasPage pageNo then
    ((List.range f.hdr.numRecordsPerPage).filter fun i : ℕ =>
      decide (slotNo < i) && Bitmap.isSet (RmPage.bitmap f.hdr (f.pages pageNo)) i == true).map fun i : ℕ => ⟨pageNo, i⟩
  else []

/-- The slots in use from a page on. -/
def slotsFrom (pageNo : ℤ) : List Rid :=
  (List.range (f.hdr.numPages - pageNo).toNat).flatMap fun k : ℕ => slotsBehind f (pageNo + k) (-1)

/-- The records that a scan has still to come to. -/
def behind (rid : Rid) : List Rid := slotsBehind f rid.pageNo rid.slotNo ++ slotsFrom f (rid.pageNo + 1)

end scan

variable {f : RmFile} {rid r : Rid} {pageNo slotNo : ℤ} {fuel : ℕ}

theorem mem_slotsBehind : r ∈ slotsBehind f pageNo slotNo ↔
    r.pageNo = pageNo ∧ slotNo < r.slotNo ∧ (f.contents r).isSome := by
  have hcontents : ∀ i : ℕ, f.hasPage pageNo → i < f.hdr.numRecordsPerPage →
      ((f.contents ⟨pageNo, i⟩).isSome ↔ Bitmap.isSet (RmPage.bitmap f.hdr (f.pages pageNo)) i = true) := by
    intro i hpage hi
    rw [RmFile.contents, if_pos ⟨hpage, Int.natCast_nonneg i, Int.ofNat_lt.mpr hi⟩, RmPage.content,
      Int.toNat_natCast]
    split <;> simp_all
  constructor
  · intro hr
    unfold slotsBehind at hr
    split at hr
    · rename_i hpage
      simp only [List.mem_map, List.mem_filter, List.mem_range, Bool.and_eq_true, decide_eq_true_eq,
        beq_iff_eq] at hr
      obtain ⟨i, ⟨hi, hbehind, hset⟩, rfl⟩ := hr
      exact ⟨rfl, hbehind, (hcontents i hpage hi).mpr hset⟩
    · exact absurd hr List.not_mem_nil
  · intro hr
    obtain ⟨hno, hbehind, hsome⟩ := hr
    obtain ⟨i, heq, hpage, hi, hset⟩ := RmFile.of_contents hsome
    rw [hno] at heq hpage hset
    rw [heq] at hbehind
    rw [heq, slotsBehind, if_pos hpage]
    apply List.mem_map.mpr
    refine ⟨i, List.mem_filter.mpr ⟨List.mem_range.mpr hi, ?_⟩, rfl⟩
    rw [decide_eq_true hbehind, hset]
    rfl

theorem mem_slotsFrom : r ∈ slotsFrom f pageNo ↔ pageNo ≤ r.pageNo ∧ (f.contents r).isSome := by
  rw [slotsFrom, List.mem_flatMap]
  constructor
  · intro hr
    obtain ⟨k, -, hr⟩ := hr
    obtain ⟨hno, -, hsome⟩ := mem_slotsBehind.mp hr
    exact ⟨by omega, hsome⟩
  · intro hr
    obtain ⟨hle, hsome⟩ := hr
    obtain ⟨i, heq, hpage, -⟩ := RmFile.of_contents hsome
    have hlt := hpage.2
    have hslot : (-1 : ℤ) < r.slotNo := by
      rw [heq]
      simp only
      omega
    refine ⟨(r.pageNo - pageNo).toNat, List.mem_range.mpr (by omega), ?_⟩
    exact mem_slotsBehind.mpr ⟨by omega, hslot, hsome⟩

theorem mem_behind : r ∈ behind f rid ↔ rid.Before r ∧ (f.contents r).isSome := by
  rw [behind, List.mem_append, mem_slotsBehind, mem_slotsFrom, Rid.Before]
  constructor
  · rintro (⟨hpage, hlt, hr⟩ | ⟨hpage, hr⟩)
    · exact ⟨Or.inr ⟨hpage.symm, hlt⟩, hr⟩
    · exact ⟨Or.inl (by omega), hr⟩
  · rintro ⟨hpage | ⟨hpage, hlt⟩, hr⟩
    · exact Or.inr ⟨by omega, hr⟩
    · exact Or.inl ⟨hpage.symm, hlt, hr⟩

theorem pairwise_slotsBehind : (slotsBehind f pageNo slotNo).Pairwise Rid.Before := by
  unfold slotsBehind
  split
  · rw [List.pairwise_map]
    apply List.Pairwise.filter
    apply List.pairwise_lt_range.imp
    intro i j hlt
    exact Or.inr ⟨rfl, Int.ofNat_lt.mpr hlt⟩
  · exact List.Pairwise.nil

theorem pairwise_slotsFrom : (slotsFrom f pageNo).Pairwise Rid.Before := by
  rw [slotsFrom, List.pairwise_flatMap]
  constructor
  · intro k _
    exact pairwise_slotsBehind
  · apply List.pairwise_lt_range.imp
    intro k l hlt a ha b hb
    have hpage := (mem_slotsBehind.mp ha).1
    have hpage' := (mem_slotsBehind.mp hb).1
    left
    omega

theorem pairwise_behind : (behind f rid).Pairwise Rid.Before := by
  rw [behind, List.pairwise_append]
  refine ⟨pairwise_slotsBehind, pairwise_slotsFrom, ?_⟩
  intro a ha b hb
  have hpage := (mem_slotsBehind.mp ha).1
  have hpage' := (mem_slotsFrom.mp hb).1
  left
  omega

/-- Two lists in the order of the file with the same records are one list. -/
theorem eq_of_ordered {l₁ l₂ : List Rid} (h₁ : l₁.Pairwise Rid.Before) (h₂ : l₂.Pairwise Rid.Before)
    (hmem : ∀ r, r ∈ l₁ ↔ r ∈ l₂) : l₁ = l₂ := by
  have hasymm : ∀ a b : Rid, a.Before b → ¬b.Before a := by
    unfold Rid.Before
    intro a b hab hba
    omega
  have hne : ∀ a b : Rid, a.Before b → a ≠ b := fun a b hab heq => hasymm a b hab (heq ▸ hab)
  have hperm : l₁.Perm l₂ := (List.perm_ext_iff_of_nodup (h₁.imp (hne _ _)) (h₂.imp (hne _ _))).mpr hmem
  exact hperm.eq_of_pairwise (fun a b _ _ hab hba => absurd hba (hasymm a b hab)) h₁ h₂

theorem slotsFrom_eq : slotsFrom f pageNo = behind f ⟨pageNo, -1⟩ := by
  apply eq_of_ordered pairwise_slotsFrom pairwise_behind
  intro r
  rw [mem_slotsFrom, mem_behind, Rid.Before]
  simp only
  constructor
  · intro ⟨hle, hsome⟩
    obtain ⟨i, heq, _⟩ := RmFile.of_contents hsome
    have hslot : r.slotNo = i := congrArg Rid.slotNo heq
    exact ⟨by omega, hsome⟩
  · intro ⟨hbefore, hsome⟩
    exact ⟨by omega, hsome⟩

/-- What is behind the first record that is still to come is what comes after it. -/
theorem behind_of_cons {tail : List Rid} (hbehind : behind f rid = r :: tail) :
    -1 ≤ r.slotNo ∧ behind f r = tail := by
  have hordered : (r :: tail).Pairwise Rid.Before := hbehind ▸ pairwise_behind
  have hmem : ∀ x, x ∈ behind f rid ↔ rid.Before x ∧ (f.contents x).isSome := fun _ => mem_behind
  simp only [hbehind, List.mem_cons] at hmem
  obtain ⟨hfirst, htail⟩ := List.pairwise_cons.mp hordered
  obtain ⟨hr, hsome⟩ := (hmem r).mp (Or.inl rfl)
  obtain ⟨i, heq, _⟩ := RmFile.of_contents hsome
  have hslot' : r.slotNo = i := congrArg Rid.slotNo heq
  have hge : -1 ≤ r.slotNo := by omega
  refine ⟨hge, eq_of_ordered pairwise_behind htail ?_⟩
  intro x
  rw [mem_behind]
  constructor
  · intro ⟨hx, hxsome⟩
    have hbefore : rid.Before x := by
      unfold Rid.Before at hr hx ⊢
      omega
    rcases (hmem x).mpr ⟨hbefore, hxsome⟩ with rfl | hin
    · unfold Rid.Before at hx
      omega
    · exact hin
  · intro hx
    exact ⟨hfirst x hx, ((hmem x).mp (Or.inr hx)).2⟩

/-- Behind the last page there is nothing. -/
theorem behind_eq_nil (hpage : f.hdr.numPages ≤ rid.pageNo) : behind f rid = [] := by
  apply List.eq_nil_iff_forall_not_mem.mpr
  intro r hr
  obtain ⟨hbefore, hsome⟩ := mem_behind.mp hr
  obtain ⟨_, _, hhas, _⟩ := RmFile.of_contents hsome
  have hlt := hhas.2
  unfold Rid.Before at hbefore
  omega

/-- The search in the bitmap finds the first slot in use, or there is none. -/
theorem nextBit_cases (hpage : f.hasPage pageNo) (hslot : -1 ≤ slotNo) :
    (Bitmap.nextBit true (RmPage.bitmap f.hdr (f.pages pageNo)) f.hdr.numRecordsPerPage slotNo =
        f.hdr.numRecordsPerPage ∧ slotsBehind f pageNo slotNo = []) ∨
      ∃ i < f.hdr.numRecordsPerPage, ∃ tail,
        Bitmap.nextBit true (RmPage.bitmap f.hdr (f.pages pageNo)) f.hdr.numRecordsPerPage slotNo = i ∧
          slotsBehind f pageNo slotNo = ⟨pageNo, i⟩ :: tail := by
  rw [Bitmap.nextBit_eq hslot, slotsBehind, if_pos hpage]
  cases hfind : (List.range f.hdr.numRecordsPerPage).find? fun i : ℕ =>
      decide (slotNo < i) && Bitmap.isSet (RmPage.bitmap f.hdr (f.pages pageNo)) i == true with
  | none =>
    left
    have hnothing := List.filter_eq_nil_iff.mpr (List.find?_eq_none.mp hfind)
    rw [hnothing]
    exact ⟨rfl, rfl⟩
  | some i =>
    right
    refine ⟨i, List.mem_range.mp (List.mem_of_find?_eq_some hfind), ?_⟩
    rw [← List.head?_filter] at hfind
    obtain ⟨tail, htail⟩ := List.head?_eq_some_iff.mp hfind
    rw [htail]
    exact ⟨_, rfl, rfl⟩

theorem next_eq (hpage : rmFirstRecordPage ≤ rid.pageNo) (hslot : -1 ≤ rid.slotNo)
    (hfuel : (f.hdr.numPages - rid.pageNo).toNat < fuel) :
    next f fuel rid = some ((behind f rid).headD atEnd) := by
  induction fuel generalizing rid with
  | zero => omega
  | succ fuel ih =>
    have hreal : rid.pageNo ≠ rmNoPage := by
      unfold rmFirstRecordPage at hpage
      unfold rmNoPage
      omega
    rw [next, if_neg hreal]
    by_cases hlast : f.hdr.numPages ≤ rid.pageNo
    · rw [if_pos hlast, behind_eq_nil hlast, List.headD_nil]
    · have hhas : f.hasPage rid.pageNo := ⟨hpage, by omega⟩
      rw [if_neg hlast, RmFile.fetchPageHandle_eq hhas]
      simp only
      rcases nextBit_cases hhas hslot with ⟨hnone, hnothing⟩ | ⟨i, hi, tail, hfound, hslots⟩
      · rw [hnone, if_neg (lt_irrefl _), behind, hnothing, List.nil_append, slotsFrom_eq]
        split
        · rename_i hend
          rw [behind_eq_nil hend, List.headD_nil]
        · apply ih
          · exact hpage.trans (Int.le_add_one (le_refl _))
          · exact le_refl _
          · show (f.hdr.numPages - (rid.pageNo + 1)).toNat < fuel
            omega
      · rw [hfound, if_pos hi, behind, hslots]
        rfl

/-- From the first record that is behind a place, the scan visits all that are. -/
theorem ridsFrom_eq {steps : ℕ} (hpage : rmFirstRecordPage ≤ rid.pageNo) (hslot : -1 ≤ rid.slotNo)
    (hfuel : f.hdr.numPages.toNat < fuel) (hsteps : (behind f rid).length < steps) :
    ridsFrom f fuel steps ((behind f rid).headD atEnd) = some (behind f rid) := by
  induction steps generalizing rid with
  | zero => omega
  | succ steps ih =>
    cases hbehind : behind f rid with
    | nil => rfl
    | cons r tail =>
      obtain ⟨hge, htail⟩ := behind_of_cons hbehind
      have hin : r ∈ behind f rid := by
        rw [hbehind]
        exact List.mem_cons_self
      obtain ⟨_, hsome⟩ := mem_behind.mp hin
      obtain ⟨i, heq, hhas, _⟩ := RmFile.of_contents hsome
      have hslot' : r.slotNo = i := congrArg Rid.slotNo heq
      have hgoing : isEnd f r = false := by
        have hfirst := hhas.1
        have hlast := hhas.2
        unfold rmFirstRecordPage at hfirst
        rw [isEnd, decide_eq_false_iff_not, rmNoPage]
        omega
      have hfirst := hhas.1
      have hnext : next f fuel r = some (tail.headD atEnd) := by
        rw [next_eq hfirst hge, htail]
        unfold rmFirstRecordPage at hfirst
        omega
      have hlen : tail.length < steps := by
        rw [hbehind, List.length_cons] at hsteps
        omega
      have hrest := ih hfirst hge (htail ▸ hlen)
      rw [htail] at hrest
      rw [List.headD_cons, ridsFrom, hgoing, if_neg Bool.false_ne_true, hnext, Option.bind_some, hrest,
        Option.map_some]

/-- The scan comes to its end, and has been at every record once, in order. -/
structure Exact (f : RmFile) (visited : List Rid) : Prop where
  visits : ∃ enough, ∀ fuel ≥ enough, rids f fuel = some visited
  ordered : visited.Pairwise Rid.Before
  mem_iff : ∀ rid, rid ∈ visited ↔ (f.contents rid).isSome

theorem rids_exact (f : RmFile) : ∃ visited, Exact f visited := by
  have hfirst : (-1 : ℤ) ≤ (⟨rmFirstRecordPage, -1⟩ : Rid).slotNo := le_refl _
  refine ⟨behind f ⟨rmFirstRecordPage, -1⟩, ?_, pairwise_behind, ?_⟩
  · refine ⟨f.hdr.numPages.toNat + (behind f ⟨rmFirstRecordPage, -1⟩).length + 1, ?_⟩
    intro fuel hfuel
    have hstart : next f fuel ⟨rmFirstRecordPage, -1⟩ = some ((behind f ⟨rmFirstRecordPage, -1⟩).headD atEnd) := by
      apply next_eq (le_refl _) hfirst
      show (f.hdr.numPages - 1).toNat < fuel
      omega
    rw [rids, start, hstart, Option.bind_some]
    exact ridsFrom_eq (le_refl _) hfirst (by omega) (by omega)
  · intro rid
    rw [mem_behind]
    constructor
    · intro ⟨_, hsome⟩
      exact hsome
    · intro hsome
      obtain ⟨i, heq, hhas, _⟩ := RmFile.of_contents hsome
      have hslot : rid.slotNo = i := congrArg Rid.slotNo heq
      have hpage := hhas.1
      refine ⟨?_, hsome⟩
      unfold Rid.Before
      simp only
      omega

end RmScan

/-- Every call on the file does to the map what it says, and a scan that is started between two calls
finds the records of the map. -/
theorem RmFile.refines_map {recordSize : ℤ} {diskHdr : Bytes} (hcreate : createFile recordSize = some diskHdr)
    (pages : ℤ → Bytes) {calls : List Call}
    (hallowed : Runs.AllMeet (fun call f => some (step call f)) Allowed calls (openFile diskHdr pages)) :
    (∃ visited, RmScan.Exact (openFile diskHdr pages) visited) ∧
      Runs.Throughout (fun call f => some (step call f))
        (fun f call f' => OnMap f call f' ∧ ∃ visited, RmScan.Exact f' visited) calls (openFile diskHdr pages) := by
  refine ⟨RmScan.rids_exact _, ?_⟩
  apply Runs.throughout_of_allMeet _ (openFile_coherent hcreate pages) hallowed
  intro f call hf hallowed
  obtain ⟨hmap, hcoh⟩ := step_spec hf hallowed
  exact ⟨_, rfl, ⟨hmap, RmScan.rids_exact _⟩, hcoh⟩

/-- Two records of 512 bytes; one is deleted, the other changed, and the file closed and opened again. -/
theorem RmFile.refines_map_reopened :
    let calls : List Call := [.insertRecord (List.replicate 512 1), .insertRecord (List.replicate 512 2),
      .deleteRecord ⟨1, 0⟩, .updateRecord ⟨1, 1⟩ (List.replicate 512 3), .reopen]
    ∃ diskHdr, createFile 512 = some diskHdr ∧
      Runs.Throughout (fun call f => some (step call f))
        (fun f call f' => OnMap f call f' ∧ ∃ visited, RmScan.Exact f' visited) calls (openFile diskHdr fun _ => []) := by
  intro calls
  refine ⟨(createHdr 512).encode, rfl, ?_⟩
  have hcreate : createFile 512 = some (createHdr 512).encode := rfl
  refine (refines_map hcreate (fun _ => []) ?_).2
  apply Runs.allMeet_cons (by decide +kernel)
  apply Runs.allMeet_cons (by decide +kernel)
  apply Runs.allMeet_cons (by decide +kernel)
  apply Runs.allMeet_cons (by decide +kernel)
  apply Runs.allMeet_cons trivial
  trivial

end Rmdb
