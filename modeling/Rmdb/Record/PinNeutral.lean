import Rmdb.Record.OpenFiles

/-! The pins that the record operations leave behind. -/
namespace Rmdb.OpenFiles

open Program BufferPoolManager

variable {n : ℕ} {δ : Type} {io : DiskIo δ} {s s' s₁ : OpenFiles n δ} {fd pageNo : ℤ} {f : Fin n} {id : PageId} {data : Bytes}
  {disk : δ} {held held' : PageId → ℤ} {ctx : RecordContext} {rid : Rid} {buf : Bytes} {α β : Type}

/-! ### Reading -/

section

variable (h : Ready s)
include h

/-- A record is copied out of its page, and where that throws, the page stays pinned. -/
theorem getRecord_cases (io : DiskIo δ) (fd : ℤ) (ctx : RecordContext) (rid : Rid) :
    (∃ page disk, pageOf io s fd rid.pageNo = some (page, disk) ∧
      match RmPage.copySlot (s.hdrs fd) page ctx.isMvcc rid.slotNo.toNat with
      | .error _ => ∃ s', runFrom (getRecord io fd ctx rid) s = (.error .badArrayNewLength, s') ∧ Ready s' ∧
          s'.pool.pins = s.pool.pins + Pi.single ⟨fd, rid.pageNo⟩ 1
      | .ok record => ∃ s', runFrom (getRecord io fd ctx rid) s = (.ok (some record), s') ∧ Ready s' ∧
          s'.hdrs = s.hdrs ∧ s'.pool.pins = s.pool.pins ∧ pageOf io s' fd rid.pageNo = some (page, disk)) ∨
    (pageOf io s fd rid.pageNo = none ∧ (runFrom (getRecord io fd ctx rid) s = (.ok none, s) ∨
      ∃ s', runFrom (getRecord io fd ctx rid) s = (.error .internalError, s') ∧ Ready s' ∧ s'.pool.pins = s.pool.pins)) := by
  rcases fetchPageHandle_cases h io fd rid.pageNo with
    ⟨f, data, disk, s₁, hpage, hfetch, hready, hhdrs, hpins, hframe⟩ | ⟨hnone, ⟨hfetch, -⟩ | ⟨s₁, hfetch, hready, hpins⟩⟩
  · left
    refine ⟨data, disk, hpage, ?_⟩
    have hin := in_of_pageOf (hpage ▸ rfl : (pageOf io s fd rid.pageNo).isSome = true)
    cases hcopy : RmPage.copySlot (s.hdrs fd) data ctx.isMvcc rid.slotNo.toNat with
    | error e =>
      cases e with
      | badArrayNewLength =>
        refine ⟨s₁, ?_, hready, hpins⟩
        simp only [getRecord, runFrom_bind, hfetch, runFrom_get, hhdrs, hframe.data, hcopy, runFrom_throw]
    | ok record =>
      obtain ⟨s₂, hunpin, hready₂, hhdrs₂, hpins₂, htable, hdata, hdisk⟩ := unpin_spec hready hframe false
      refine ⟨s₂, ?_, hready₂, hhdrs₂.trans hhdrs, ?_, ?_⟩
      · simp only [getRecord, runFrom_bind, hfetch, runFrom_get, hhdrs, hframe.data, hcopy, hunpin, runFrom_pure]
      · rw [hpins₂, hpins, add_assoc, single_add_neg, add_zero]
      · apply pageOf_of_mapped (htable ▸ hframe.mapped) hdata hdisk
        rw [hhdrs₂, hhdrs]
        exact hin
  · right
    refine ⟨hnone, Or.inl ?_⟩
    simp only [getRecord, runFrom_bind, hfetch, runFrom_pure]
  · right
    refine ⟨hnone, Or.inr ⟨s₁, ?_, hready, hpins⟩⟩
    simp only [getRecord, runFrom_bind, hfetch]

theorem isRecord_cases (io : DiskIo δ) (fd : ℤ) (rid : Rid) :
    ((pageOf io s fd rid.pageNo).isSome ∧ Leaves (Pi.single ⟨fd, rid.pageNo⟩ 1) (isRecord io fd rid) s) ∨
    (pageOf io s fd rid.pageNo = none ∧
      ((runFrom (isRecord io fd rid) s).1 = .error .crash ∨ Leaves 0 (isRecord io fd rid) s)) := by
  rcases fetchPageHandle_cases h io fd rid.pageNo with
    ⟨f, data, disk, s₁, hpage, hfetch, hready, -, hpins, -⟩ | ⟨hnone, ⟨hfetch, -⟩ | ⟨s₁, hfetch, hready, hpins⟩⟩
  · left
    have hrun : runFrom (isRecord io fd rid) s = (.ok (Bitmap.isSet (RmPage.bitmap (s₁.hdrs fd)
        (s₁.pool.pages f).data) rid.slotNo.toNat), s₁) := by
      simp only [isRecord, runFrom_bind, hfetch, runFrom_get, runFrom_pure]
    exact ⟨by rw [hpage]; rfl, _, s₁, hrun, by simp, hready, hpins⟩
  · right
    refine ⟨hnone, Or.inl ?_⟩
    simp only [isRecord, runFrom_bind, hfetch, runFrom_throw]
  · right
    refine ⟨hnone, Or.inr ⟨.error .internalError, s₁, ?_, by simp, hready, ?_⟩⟩
    · simp only [isRecord, runFrom_bind, hfetch]
    · rw [hpins, add_zero]

theorem next_leaves (io : DiskIo δ) (fd : ℤ) (hdr : RmFileHdr) (rid : Rid) :
    Leaves 0 (next io fd hdr rid) s := by
  induction hk : (hdr.numPages - rid.pageNo).toNat using Nat.strong_induction_on generalizing s rid with
  | _ k ih =>
    rw [next]
    split
    · exact leaves_pure h _
    · split
      · exact leaves_pure h _
      · rename_i hend
        have hlt : (hdr.numPages - (rid.pageNo + 1)).toNat < k := by omega
        have hrest : ∀ s' : OpenFiles n δ, Ready s' → Leaves 0 (next io fd hdr ⟨rid.pageNo + 1, -1⟩) s' := fun s' h' =>
          ih _ hlt h' ⟨rid.pageNo + 1, -1⟩ rfl
        rcases fetchPageHandle_cases h io fd rid.pageNo with
          ⟨f, data, disk, s₁, -, hfetch, hready, -, hpins, hframe⟩ | ⟨-, ⟨hfetch, -⟩ | ⟨s₁, hfetch, hready, hpins⟩⟩
        · apply Leaves.released hfetch hpins
          apply Leaves.get
          dsimp only
          split
          · exact leaves_unpin hready hframe false fun s' h' => leaves_pure h' _
          · apply leaves_unpin hready hframe false
            intro s' h'
            split
            · exact leaves_pure h' _
            · exact hrest s' h'
        · exact Leaves.skip hfetch rfl (hrest s h)
        · exact Leaves.bind_error hfetch nofun hready (by rw [hpins, add_zero])

/-! ### Writing -/

/-- The record is too short for the tuple header that is seen in it. -/
def TooShort (hdr : RmFileHdr) (page : Bytes) (isMvcc : Bool) (slotNo : ℕ) : Prop :=
  isMvcc = false ∧ looksLikeTupleMeta page (RmPage.slotPos hdr slotNo) = true ∧ hdr.recordSize < tupleMetaSize

instance (hdr : RmFileHdr) (page : Bytes) (isMvcc : Bool) (slotNo : ℕ) : Decidable (TooShort hdr page isMvcc slotNo) :=
  inferInstanceAs (Decidable (_ ∧ _ ∧ _))

omit h in
theorem copySlot_eq_error_iff {hdr : RmFileHdr} {page : Bytes} {isMvcc : Bool} {slotNo : ℕ} :
    RmPage.copySlot hdr page isMvcc slotNo = .error .badArrayNewLength ↔ TooShort hdr page isMvcc slotNo := by
  unfold RmPage.copySlot TooShort
  dsimp only
  cases isMvcc with
  | true =>
    rw [if_pos rfl, RmFile.copyRecord_natCast]
    exact iff_of_false nofun fun hand => Bool.noConfusion hand.1
  | false =>
    rw [if_neg Bool.false_ne_true, and_iff_right rfl]
    split
    · rename_i hlooks
      rw [and_iff_right hlooks]
      unfold copyRecord
      split
      · exact iff_of_true rfl (by omega)
      · exact iff_of_false nofun (by omega)
    · rename_i hlooks
      rw [RmFile.copyRecord_natCast]
      exact iff_of_false nofun fun hand => hlooks hand.1

theorem getRecord_leaves (io : DiskIo δ) (fd : ℤ) (ctx : RecordContext) (rid : Rid) :
    ((∀ found ∈ pageOf io s fd rid.pageNo, ¬TooShort (s.hdrs fd) found.1 ctx.isMvcc rid.slotNo.toNat) →
      Leaves 0 (getRecord io fd ctx rid) s) ∧
    (¬(∀ found ∈ pageOf io s fd rid.pageNo, ¬TooShort (s.hdrs fd) found.1 ctx.isMvcc rid.slotNo.toNat) →
      Leaves (Pi.single ⟨fd, rid.pageNo⟩ 1) (getRecord io fd ctx rid) s) := by
  rcases getRecord_cases h io fd ctx rid with ⟨page, disk, hpage, hget⟩ | ⟨hnone, hget⟩
  · rw [hpage]
    simp only [Option.mem_some_iff, forall_eq']
    rw [← copySlot_eq_error_iff, not_not]
    split at hget
    · rename_i e hcopy
      cases e
      obtain ⟨s', hrun, hready, hpins⟩ := hget
      exact ⟨fun hne => absurd hcopy hne, fun _ => Leaves.of_error hrun (by simp) hready hpins⟩
    · rename_i record hcopy
      obtain ⟨s', hrun, hready, -, hpins, -⟩ := hget
      rw [hcopy]
      exact ⟨fun _ => ⟨_, s', hrun, by simp, hready, by rw [hpins, add_zero]⟩, by simp⟩
  · rw [hnone]
    refine ⟨fun _ => ?_, fun hnot => absurd (by simp) hnot⟩
    rcases hget with hget | ⟨s', hget, hready, hpins⟩
    · exact ⟨_, s, hget, by simp, h, (add_zero _).symm⟩
    · exact Leaves.of_error hget (by simp) hready (by rw [hpins, add_zero])

theorem logOld_none (ctx : RecordContext) (hnone : pageOf io s fd rid.pageNo = none) :
    runFrom (logOld io fd ctx rid) s = (.ok (), s) ∨
      ∃ s', runFrom (logOld io fd ctx rid) s = (.error .internalError, s') ∧ Ready s' ∧ s'.pool.pins = s.pool.pins := by
  unfold logOld
  split
  · rcases getRecord_cases h io fd ctx rid with ⟨page, disk, hpage, -⟩ | ⟨-, hget | ⟨s', hget, hready, hpins⟩⟩
    · rw [hnone] at hpage
      cases hpage
    · left
      simp only [runFrom_bind, hget, runFrom_pure]
    · right
      refine ⟨s', ?_, hready, hpins⟩
      simp only [runFrom_bind, hget]
  · exact Or.inl rfl

theorem logOld_tooShort (hpage : pageOf io s fd rid.pageNo = some (data, disk)) (hlog : ctx.log.isSome = true)
    (hshort : TooShort (s.hdrs fd) data ctx.isMvcc rid.slotNo.toNat) :
    ∃ s', runFrom (logOld io fd ctx rid) s = (.error .badArrayNewLength, s') ∧ Ready s' ∧
      s'.pool.pins = s.pool.pins + Pi.single ⟨fd, rid.pageNo⟩ 1 := by
  rcases getRecord_cases h io fd ctx rid with ⟨page, disk', hpage', hget⟩ | ⟨hnone, -⟩
  · obtain ⟨rfl, rfl⟩ := Prod.mk.inj (Option.some.inj (hpage.symm.trans hpage'))
    rw [copySlot_eq_error_iff.mpr hshort] at hget
    obtain ⟨s', hrun, hrest⟩ := hget
    refine ⟨s', ?_, hrest⟩
    unfold logOld
    rw [if_pos hlog]
    simp only [runFrom_bind, hrun]
  · rw [hnone] at hpage
    cases hpage

/-- The record goes to the log, and the page is where it was. -/
theorem logOld_some (hpage : pageOf io s fd rid.pageNo = some (data, disk))
    (hlong : ctx.log.isSome = true → ¬TooShort (s.hdrs fd) data ctx.isMvcc rid.slotNo.toNat) :
    ∃ s', runFrom (logOld io fd ctx rid) s = (match ctx.log with
      | some (.error e) => (.error (ofPoolError e), s')
      | _ => (.ok (), s')) ∧ Ready s' ∧ s'.hdrs = s.hdrs ∧ s'.pool.pins = s.pool.pins ∧
        pageOf io s' fd rid.pageNo = some (data, disk) := by
  cases hlog : ctx.log with
  | none =>
    refine ⟨s, ?_, h, rfl, rfl, hpage⟩
    unfold logOld
    rw [hlog]
    rfl
  | some outcome =>
    rcases getRecord_cases h io fd ctx rid with ⟨page, disk', hpage', hget⟩ | ⟨hnone, -⟩
    · obtain ⟨rfl, rfl⟩ := Prod.mk.inj (Option.some.inj (hpage.symm.trans hpage'))
      cases hcopy : RmPage.copySlot (s.hdrs fd) data ctx.isMvcc rid.slotNo.toNat with
      | error e =>
        cases e with
        | badArrayNewLength => exact absurd (copySlot_eq_error_iff.mp hcopy) (hlong (by rw [hlog]; rfl))
      | ok record =>
        rw [hcopy] at hget
        obtain ⟨s', hrun, hready, hhdrs, hpins, hpage''⟩ := hget
        refine ⟨s', ?_, hready, hhdrs, hpins, hpage''⟩
        unfold logOld
        rw [hlog]
        cases outcome with
        | ok done => simp only [Option.isSome_some, if_true, runFrom_bind, hrun, addLog_spec, hlog]
        | error e => simp only [Option.isSome_some, if_true, runFrom_bind, hrun, addLog_spec, hlog]
    · rw [hnone] at hpage
      cases hpage

/-- A page in its frame is rewritten and released. -/
theorem leaves_write (hframe : InFrame s f id data disk) (data' : Bytes) {k : Unit → FileM n δ β}
    (hk : ∀ s', Ready s' → s'.hdrs = s.hdrs → s'.pool.pins = s.pool.pins → InFrame s' f id data' disk →
      Leaves held (k ()) s') : Leaves held (setData f data' >>= k) s := by
  obtain ⟨s', hrun, hready, hhdrs, hpins, hframe'⟩ := setData_spec h hframe data'
  exact Leaves.skip hrun hpins (hk s' hready hhdrs hpins hframe')

theorem leaves_setHdr (hframe : InFrame s f id data disk) {hdr : RmFileHdr}
    (hnum : hdr.numPages = (s.hdrs fd).numPages) {k : Unit → FileM n δ β}
    (hk : ∀ s', Ready s' → s'.hdrs fd = hdr → InFrame s' f id data disk → Leaves held (k ()) s') :
    Leaves held (setHdr fd hdr >>= k) s := by
  obtain ⟨s', hrun, hready, hhdr, hpool⟩ := setHdr_spec h (hnum ▸ h.numbered fd)
  exact Leaves.skip hrun (by rw [hpool]) (hk s' hready hhdr (hframe.congr hpool))

theorem insertInto_leaves (hframe : InFrame s f id data disk) (hlog : ∀ e, ctx.log ≠ some (.error e)) :
    Leaves (Pi.single id (-1)) (insertInto fd ctx buf f) s := by
  unfold insertInto
  apply Leaves.get
  dsimp only
  split
  · have hadd : runFrom (addLog ctx) s = (.ok (), s) := by
      rw [addLog_spec]
      split
      · rename_i e heq
        exact absurd heq (hlog e)
      · rfl
    apply Leaves.skip hadd rfl
    apply leaves_write h hframe
    intro s₁ hready hhdrs hpins hframe₁
    split
    · apply leaves_setHdr hready hframe₁ (by rw [hhdrs])
      intro s₂ hready₂ hhdr₂ hframe₂
      exact leaves_unpin hready₂ hframe₂ true fun s' h' => leaves_pure h' _
    · exact leaves_unpin hready hframe₁ true fun s' h' => leaves_pure h' _
  · exact leaves_unpin h hframe false fun s' h' => leaves_pure h' _

/-- An insertion that cannot log its record throws with the page pinned, and one without a free slot does not come
to that. -/
theorem insertInto_error (hframe : InFrame s f id data disk) (fd : ℤ) (buf : Bytes) {e : PoolError}
    (hlog : ctx.log = some (.error e)) :
    (RmPage.HasRoom (s.hdrs fd) data → runFrom (insertInto fd ctx buf f) s = (.error (ofPoolError e), s)) ∧
      (¬RmPage.HasRoom (s.hdrs fd) data → Leaves (Pi.single id (-1)) (insertInto fd ctx buf f) s) := by
  unfold RmPage.HasRoom
  rw [← Bitmap.firstBit_false_lt_iff, ← hframe.data]
  unfold insertInto
  constructor
  · intro hlt
    simp only [runFrom_bind, runFrom_get, if_pos hlt, addLog_spec, hlog]
  · intro hnot
    apply Leaves.get
    dsimp only
    rw [if_neg hnot]
    exact leaves_unpin h hframe false fun s' h' => leaves_pure h' _

theorem withPage_some {k : Fin n → FileM n δ Unit} (hpage : pageOf io s fd pageNo = some (data, disk))
    (hk : ∀ s' f, Ready s' → s'.hdrs = s.hdrs → InFrame s' f ⟨fd, pageNo⟩ data disk → Leaves held (k f) s') :
    Leaves (Pi.single ⟨fd, pageNo⟩ 1 + held) (withPage io fd pageNo k) s := by
  rcases fetchPageHandle_cases h io fd pageNo with
    ⟨f, data', disk', s₁, hpage', hfetch, hready, hhdrs, hpins, hframe⟩ | ⟨hnone, -⟩
  · obtain ⟨rfl, rfl⟩ := Prod.mk.inj (Option.some.inj (hpage.symm.trans hpage'))
    exact Leaves.bind hfetch hpins (hk s₁ f hready hhdrs hframe)
  · rw [hnone] at hpage
    cases hpage

/-- A page is fetched, changed and released. -/
theorem withPage_neutral {k : Fin n → FileM n δ Unit}
    (hk : ∀ s' f page disk, pageOf io s fd pageNo = some (page, disk) → Ready s' → s'.hdrs = s.hdrs →
      InFrame s' f ⟨fd, pageNo⟩ page disk → Leaves (Pi.single ⟨fd, pageNo⟩ (-1)) (k f) s') :
    Leaves 0 (withPage io fd pageNo k) s := by
  rcases fetchPageHandle_cases h io fd pageNo with
    ⟨f, data, disk, s₁, hpage, hfetch, hready, hhdrs, hpins, hframe⟩ | ⟨-, ⟨hfetch, -⟩ | ⟨s₁, hfetch, hready, hpins⟩⟩
  · exact Leaves.released hfetch hpins (hk s₁ f data disk hpage hready hhdrs hframe)
  · exact Leaves.skip hfetch rfl (leaves_pure h _)
  · exact Leaves.bind_error hfetch nofun hready (by rw [hpins, add_zero])

theorem leaves_unpin_last (hframe : InFrame s f id data disk) (isDirty : Bool) :
    Leaves (Pi.single id (-1)) (unpin f isDirty) s := by
  obtain ⟨s', hrun, hready, -, hpins, -⟩ := unpin_spec h hframe isDirty
  exact ⟨_, s', hrun, nofun, hready, hpins⟩

/-- What follows the logging of a record. -/
theorem logOld_neutral {k : Unit → FileM n δ Unit}
    (hlong : ∀ page disk, pageOf io s fd rid.pageNo = some (page, disk) → ctx.log.isSome = true →
      ¬TooShort (s.hdrs fd) page ctx.isMvcc rid.slotNo.toNat)
    (hk : ∀ s', Ready s' → (∀ page disk, pageOf io s fd rid.pageNo = some (page, disk) → (∀ e, ctx.log ≠ some (.error e)) ∧
      s'.hdrs = s.hdrs ∧ pageOf io s' fd rid.pageNo = some (page, disk)) → (pageOf io s fd rid.pageNo = none → s' = s) →
      Leaves 0 (k ()) s') :
    (runFrom (logOld io fd ctx rid >>= k) s).1 = .error .crash ∨ Leaves 0 (logOld io fd ctx rid >>= k) s := by
  cases hpage : pageOf io s fd rid.pageNo with
  | none =>
    right
    rcases logOld_none h ctx hpage with hlog | ⟨s', hlog, hready, hpins⟩
    · refine Leaves.skip hlog rfl (hk s h (fun page disk hsome => ?_) fun _ => rfl)
      rw [hpage] at hsome
      cases hsome
    · exact Leaves.bind_error hlog nofun hready (by rw [hpins, add_zero])
  | some found =>
    obtain ⟨page, disk⟩ := found
    obtain ⟨s', hlog, hready, hhdrs, hpins, hpage'⟩ := logOld_some h hpage (hlong page disk hpage)
    by_cases herror : ∃ e, ctx.log = some (.error e)
    · obtain ⟨e, he⟩ := herror
      rw [he] at hlog
      cases e with
      | internalError => exact Or.inr (Leaves.bind_error hlog nofun hready (by rw [hpins, add_zero]))
      | crash =>
        left
        rw [runFrom_bind, hlog]
        rfl
    · have hno : ∀ e, ctx.log ≠ some (.error e) := fun e he => herror ⟨e, he⟩
      have hlog' : runFrom (logOld io fd ctx rid) s = (.ok (), s') := by
        rw [hlog]
        split
        · rename_i e he
          exact absurd he (hno e)
        · rfl
      right
      refine Leaves.skip hlog' hpins (hk s' hready (fun page' disk' hsome => ?_) fun hnone => ?_)
      · obtain ⟨rfl, rfl⟩ := Prod.mk.inj (Option.some.inj (hpage.symm.trans hsome))
        exact ⟨hno, hhdrs, hpage'⟩
      · rw [hpage] at hnone
        cases hnone

theorem updateRecord_neutral (buf : Bytes) (hlong : ∀ page disk, pageOf io s fd rid.pageNo = some (page, disk) →
      ctx.log.isSome = true → ¬TooShort (s.hdrs fd) page ctx.isMvcc rid.slotNo.toNat) :
    (runFrom (updateRecord io fd ctx rid buf) s).1 = .error .crash ∨ Leaves 0 (updateRecord io fd ctx rid buf) s := by
  apply logOld_neutral h hlong
  intro s' hready _ _
  apply withPage_neutral hready
  intro s₁ f page disk _ hready₁ _ hframe
  apply Leaves.get
  apply leaves_write hready₁ hframe
  intro s₂ hready₂ _ _ hframe₂
  exact leaves_unpin_last hready₂ hframe₂ true

/-- The header of a file whose page has become the first with room. -/
def releasedHdr (hdr : RmFileHdr) (pageNo : ℤ) : RmFileHdr := { hdr with firstFreePageNo := pageNo }

theorem release_cases (io : DiskIo δ) (hframe : InFrame s f ⟨fd, pageNo⟩ data disk)
    (hin : ¬(pageNo < rmFirstRecordPage ∨ (s.hdrs fd).numPages ≤ pageNo)) :
    match io.writePage ⟨fd, 0⟩ (releasedHdr (s.hdrs fd) pageNo).encode disk with
    | none => ∃ s', runFrom (releasePageHandle io fd f) s = (.error .internalError, s') ∧ Ready s' ∧
        s'.pool.pins = s.pool.pins
    | some disk' => ∃ s' data', runFrom (releasePageHandle io fd f) s = (.ok (), s') ∧ Ready s' ∧
        s'.pool.pins = s.pool.pins ∧ InFrame s' f ⟨fd, pageNo⟩ data' disk' := by
  have hid : (s.pool.pages f).id.pageNo = pageNo := by
    rw [((h.steady.mapped_iff _ f).mp hframe.mapped).1]
  have hrange : 0 ≤ pageNo ∧ pageNo < (s.hdrs fd).numPages := by
    unfold rmFirstRecordPage at hin
    omega
  obtain ⟨s₁, hset, hready₁, hhdrs₁, hpins₁, hframe₁⟩ :=
    setData_spec h hframe (RmPage.setNextFreePageNo (s.pool.pages f).data (s.hdrs fd).firstFreePageNo)
  have hnum : (releasedHdr (s.hdrs fd) pageNo).numPages ≤ s₁.pool.fd2pageno fd := hhdrs₁ ▸ hready₁.numbered fd
  obtain ⟨s₂, hhdr, hready₂, hself, hpool⟩ := setHdr_spec hready₁ hnum
  have hframe₂ := hframe₁.congr hpool
  have hrun : runFrom (releasePageHandle io fd f) s = runFrom (writeFileHdr io fd) s₂ := by
    unfold releasedHdr at hhdr
    simp only [releasePageHandle, runFrom_bind, runFrom_get, hid, if_pos hrange, hset, hhdr]
  cases hwrite : io.writePage ⟨fd, 0⟩ (releasedHdr (s.hdrs fd) pageNo).encode disk with
  | none =>
    rw [← hself] at hwrite
    exact ⟨s₂, hrun.trans (writeFileHdr_none hframe₂.disk hwrite), hready₂, by rw [hpool, hpins₁]⟩
  | some disk' =>
    rw [← hself] at hwrite
    obtain ⟨s₃, hsave, hready₃, -, hpins₃, hframe₃⟩ := writeFileHdr_some hready₂ hframe₂ hwrite
    exact ⟨s₃, _, hrun.trans hsave, hready₃, by rw [hpins₃, hpool, hpins₁], hframe₃⟩

/-- There is a record in the slot, and the header of the file can be written where the page becomes the first with
room. -/
def ClearsSlot (io : DiskIo δ) (fd pageNo : ℤ) (hdr : RmFileHdr) (page : Bytes) (slotNo : ℕ) (disk : δ) : Prop :=
  Bitmap.isSet (RmPage.bitmap hdr page) slotNo = true ∧
    (RmPage.numRecords (RmPage.clear hdr page slotNo) < hdr.numRecordsPerPage →
      (io.writePage ⟨fd, 0⟩ (releasedHdr hdr pageNo).encode disk).isSome = true)

theorem clearSlot_cases (io : DiskIo δ) (hframe : InFrame s f ⟨fd, pageNo⟩ data disk)
    (hin : ¬(pageNo < rmFirstRecordPage ∨ (s.hdrs fd).numPages ≤ pageNo)) (slotNo : ℕ) :
    (ClearsSlot io fd pageNo (s.hdrs fd) data slotNo disk → Leaves (Pi.single ⟨fd, pageNo⟩ (-1)) (clearSlot io fd slotNo f) s) ∧
      (¬ClearsSlot io fd pageNo (s.hdrs fd) data slotNo disk → Leaves 0 (clearSlot io fd slotNo f) s) := by
  unfold ClearsSlot
  cases hused : Bitmap.isSet (RmPage.bitmap (s.hdrs fd) data) slotNo with
  | false =>
    refine ⟨fun hand => Bool.noConfusion hand.1, fun _ => ?_⟩
    apply Leaves.get
    dsimp only
    rw [hframe.data, hused, if_neg Bool.false_ne_true]
    exact leaves_pure h _
  | true =>
    obtain ⟨s₁, hset, hready₁, hhdrs₁, hpins₁, hframe₁⟩ := setData_spec h hframe (RmPage.clear (s.hdrs fd) data slotNo)
    have hopen : ∀ held, Leaves held (do
        if RmPage.numRecords (RmPage.clear (s.hdrs fd) data slotNo) < (s.hdrs fd).numRecordsPerPage then
          releasePageHandle io fd f
        unpin f true) s₁ → Leaves held (clearSlot io fd slotNo f) s := by
      intro held hrest
      apply Leaves.get
      dsimp only
      rw [hframe.data, hused, if_pos rfl]
      exact Leaves.skip hset hpins₁ hrest
    rw [and_iff_right rfl]
    by_cases hlt : RmPage.numRecords (RmPage.clear (s.hdrs fd) data slotNo) < (s.hdrs fd).numRecordsPerPage
    · have hrelease := release_cases hready₁ io hframe₁ (hhdrs₁ ▸ hin)
      rw [hhdrs₁] at hrelease
      rw [imp_iff_right hlt]
      rw [if_pos hlt] at hopen
      cases hwrite : io.writePage ⟨fd, 0⟩ (releasedHdr (s.hdrs fd) pageNo).encode disk with
      | none =>
        rw [hwrite] at hrelease
        obtain ⟨s₂, hrun, hready₂, hpins₂⟩ := hrelease
        refine ⟨fun hsome => Bool.noConfusion hsome, fun _ => hopen 0 ?_⟩
        exact Leaves.bind_error hrun nofun hready₂ (by rw [hpins₂, add_zero])
      | some disk' =>
        rw [hwrite] at hrelease
        obtain ⟨s₂, data', hrun, hready₂, hpins₂, hframe₂⟩ := hrelease
        refine ⟨fun _ => hopen _ ?_, fun hnot => absurd rfl hnot⟩
        exact Leaves.skip hrun hpins₂ (leaves_unpin_last hready₂ hframe₂ true)
    · rw [if_neg hlt] at hopen
      exact ⟨fun _ => hopen _ (leaves_unpin_last hready₁ hframe₁ true), fun hnot => absurd (fun hin => absurd hin hlt) hnot⟩

/-- The record can be copied for the log, and unless the log fails, it is taken out of its slot. -/
def DeletesClean (io : DiskIo δ) (s : OpenFiles n δ) (fd : ℤ) (ctx : RecordContext) (rid : Rid) : Prop :=
  ∀ found ∈ pageOf io s fd rid.pageNo,
    (ctx.log.isSome = true → ¬TooShort (s.hdrs fd) found.1 ctx.isMvcc rid.slotNo.toNat) ∧
      (ctx.log ≠ some (.error .internalError) → ctx.log ≠ some (.error .crash) →
        ClearsSlot io fd rid.pageNo (s.hdrs fd) found.1 rid.slotNo.toNat found.2)

theorem deleteRecord_neutral (hclean : DeletesClean io s fd ctx rid) :
    (runFrom (deleteRecord io fd ctx rid) s).1 = .error .crash ∨ Leaves 0 (deleteRecord io fd ctx rid) s := by
  apply logOld_neutral h fun page disk hpage => (hclean (page, disk) hpage).1
  intro s' hready hfound hsame
  apply withPage_neutral hready
  intro s₁ f page disk hpage' hready₁ hhdrs₁ hframe
  have hin := in_of_pageOf (by rw [hpage']; rfl : (pageOf io s' fd rid.pageNo).isSome = true)
  cases hpage : pageOf io s fd rid.pageNo with
  | none =>
    rw [hsame hpage, hpage] at hpage'
    cases hpage'
  | some found =>
    obtain ⟨page₀, disk₀⟩ := found
    obtain ⟨hlog, hhdrs, hagain⟩ := hfound page₀ disk₀ hpage
    obtain ⟨rfl, rfl⟩ := Prod.mk.inj (Option.some.inj (hagain.symm.trans hpage'))
    have hclears := (hclean (page₀, disk₀) hpage).2 (hlog _) (hlog _)
    rw [← hhdrs, ← hhdrs₁] at hclears
    exact (clearSlot_cases hready₁ io hframe (hhdrs₁ ▸ hin) _).1 hclears

theorem deleteRecord_pinned (hnot : ¬DeletesClean io s fd ctx rid) :
    Leaves (Pi.single ⟨fd, rid.pageNo⟩ 1) (deleteRecord io fd ctx rid) s := by
  unfold DeletesClean at hnot
  push Not at hnot
  obtain ⟨⟨page, disk⟩, hpage, hfails⟩ := hnot
  by_cases hlong : ctx.log.isSome = true → ¬TooShort (s.hdrs fd) page ctx.isMvcc rid.slotNo.toNat
  · obtain ⟨hinternal, hcrash, hclears⟩ := hfails hlong
    obtain ⟨s', hrun, hready, hhdrs, hpins, hpage'⟩ := logOld_some h hpage hlong
    have hrun' : runFrom (logOld io fd ctx rid) s = (.ok (), s') := by
      rw [hrun]
      split
      · rename_i e he
        cases e with
        | internalError => exact absurd he hinternal
        | crash => exact absurd he hcrash
      · rfl
    apply Leaves.skip hrun' hpins
    have hrest : Leaves (Pi.single ⟨fd, rid.pageNo⟩ 1 + 0) (withPage io fd rid.pageNo (clearSlot io fd rid.slotNo.toNat)) s' := by
      apply withPage_some hready hpage'
      intro s₁ f hready₁ hhdrs₁ hframe
      have hin := in_of_pageOf (by rw [hpage']; rfl : (pageOf io s' fd rid.pageNo).isSome = true)
      rw [← hhdrs, ← hhdrs₁] at hclears
      exact (clearSlot_cases hready₁ io hframe (hhdrs₁ ▸ hin) _).2 hclears
    rw [add_zero] at hrest
    exact hrest
  · push Not at hlong
    obtain ⟨s', hrun, hready, hpins⟩ := logOld_tooShort h hpage hlong.1 hlong.2
    exact Leaves.bind_error hrun nofun hready hpins

theorem updateRecord_pinned (buf : Bytes) (hpage : pageOf io s fd rid.pageNo = some (data, disk))
    (hlog : ctx.log.isSome = true) (hshort : TooShort (s.hdrs fd) data ctx.isMvcc rid.slotNo.toNat) :
    Leaves (Pi.single ⟨fd, rid.pageNo⟩ 1) (updateRecord io fd ctx rid buf) s := by
  obtain ⟨s', hrun, hready, hpins⟩ := logOld_tooShort h hpage hlog hshort
  exact Leaves.bind_error hrun nofun hready hpins

/-! ### New pages -/

/-- The header of a file with one more page. -/
def extendedHdr (hdr : RmFileHdr) (pageNo : ℤ) : RmFileHdr :=
  { hdr with numPages := hdr.numPages + 1, firstFreePageNo := pageNo }

/-- A new page, all of whose slots are free. -/
def newPageData (hdr : RmFileHdr) : Bytes :=
  RmPage.setBitmap (RmPage.setNextFreePageNo (RmPage.setNumRecords (List.replicate pageSize 0) 0) hdr.firstFreePageNo)
    (Bitmap.init hdr.bitmapSize)

theorem createNewPageHandle_cases (io : DiskIo δ) (hfd : 0 ≤ fd ∧ fd < maxFd) :
    (∃ disk, s.pool.freed io = some disk ∧
      match io.writePage ⟨fd, 0⟩ (extendedHdr (s.hdrs fd) (s.pool.fd2pageno fd)).encode disk with
      | none => ∃ s', runFrom (createNewPageHandle io fd) s = (.error .internalError, s') ∧ Ready s' ∧
          s'.pool.pins = s.pool.pins + Pi.single ⟨fd, s.pool.fd2pageno fd⟩ 1
      | some disk' => ∃ f s', runFrom (createNewPageHandle io fd) s = (.ok (some f), s') ∧ Ready s' ∧
          s'.hdrs fd = extendedHdr (s.hdrs fd) (s.pool.fd2pageno fd) ∧
          s'.pool.pins = s.pool.pins + Pi.single ⟨fd, s.pool.fd2pageno fd⟩ 1 ∧
            InFrame s' f ⟨fd, s.pool.fd2pageno fd⟩ (newPageData (s.hdrs fd)) disk') ∨
    (s.pool.freed io = none ∧ (runFrom (createNewPageHandle io fd) s = (.ok none, s) ∨
      ∃ s', runFrom (createNewPageHandle io fd) s = (.error .internalError, s') ∧ Ready s' ∧
        s'.pool.pins = s.pool.pins)) := by
  rcases newPage_cases h.steady io hfd with ⟨f, disk, pool', hfreed, hnew, hpinned⟩ | ⟨hfreed, hnew | ⟨pool', hnew, hbalanced⟩⟩
  · left
    refine ⟨disk, hfreed, ?_⟩
    obtain ⟨s₁, hs₁⟩ : ∃ s₁ : OpenFiles n δ, s₁ = { s with pool := pool' } := ⟨_, rfl⟩
    have hpool : s₁.pool = pool' := by rw [hs₁]
    have hhdrs : s₁.hdrs = s.hdrs := by rw [hs₁]
    have hpins : s₁.pool.pins = s.pool.pins + Pi.single ⟨fd, s.pool.fd2pageno fd⟩ 1 := by rw [hpool, hpinned.pins]
    have hready₁ : Ready s₁ := by
      rw [hs₁]
      exact ⟨hpinned.steady, fun fd => le_trans (h.numbered fd) (hpinned.numbers fd)⟩
    have hpos : 0 < s₁.pool.pins ⟨fd, s.pool.fd2pageno fd⟩ := by
      have hnonneg := h.steady.pins_nonneg ⟨fd, s.pool.fd2pageno fd⟩
      rw [hpins, Pi.add_apply, Pi.single_eq_same]
      omega
    have hframe₁ : InFrame s₁ f ⟨fd, s.pool.fd2pageno fd⟩ (List.replicate pageSize 0) disk :=
      ⟨hpool ▸ hpinned.mapped, hpos, hpool ▸ hpinned.data, hpool ▸ hpinned.disk⟩
    have hid : (s₁.pool.pages f).id.pageNo = s.pool.fd2pageno fd := by
      rw [((hready₁.steady.mapped_iff _ f).mp hframe₁.mapped).1]
    have hnum : (extendedHdr (s.hdrs fd) (s.pool.fd2pageno fd)).numPages ≤ s₁.pool.fd2pageno fd := by
      have hbehind : ¬s₁.pool.fd2pageno fd ≤ s.pool.fd2pageno fd := by
        intro hle
        have hnone := hready₁.steady.beyond ⟨fd, s.pool.fd2pageno fd⟩ hle
        rw [hframe₁.mapped] at hnone
        cases hnone
      have hold := h.numbered fd
      show (s.hdrs fd).numPages + 1 ≤ _
      omega
    obtain ⟨s₂, hsetHdr, hready₂, hhdr₂, hpool₂⟩ := setHdr_spec hready₁ hnum
    obtain ⟨s₃, hset, hready₃, hhdrs₃, hpins₃, hframe₃⟩ :=
      setData_spec hready₂ (hframe₁.congr hpool₂) (newPageData (s.hdrs fd))
    have hrun : runFrom (createNewPageHandle io fd) s =
        runFrom (do writeFileHdr io fd; return some f : FileM n δ (Option (Fin n))) s₃ := by
      unfold newPageData at hset
      unfold extendedHdr at hsetHdr
      simp only [createNewPageHandle, runFrom_bind, runFrom_onPool, hnew, runFrom_get, ← hs₁, hhdrs, hid, hframe₁.data,
        hsetHdr, hset]
    have hhdr₃ : s₃.hdrs fd = extendedHdr (s.hdrs fd) (s.pool.fd2pageno fd) := by rw [hhdrs₃, hhdr₂]
    have hpins' : s₃.pool.pins = s.pool.pins + Pi.single ⟨fd, s.pool.fd2pageno fd⟩ 1 := by rw [hpins₃, hpool₂, hpins]
    cases hwrite : io.writePage ⟨fd, 0⟩ (extendedHdr (s.hdrs fd) (s.pool.fd2pageno fd)).encode disk with
    | none =>
      rw [← hhdr₃] at hwrite
      refine ⟨s₃, ?_, hready₃, hpins'⟩
      rw [hrun, runFrom_bind, writeFileHdr_none hframe₃.disk hwrite]
    | some disk' =>
      rw [← hhdr₃] at hwrite
      obtain ⟨s₄, hsave, hready₄, hhdrs₄, hpins₄, hframe₄⟩ := writeFileHdr_some hready₃ hframe₃ hwrite
      refine ⟨f, s₄, ?_, hready₄, by rw [hhdrs₄, hhdr₃], by rw [hpins₄, hpins'], hframe₄⟩
      rw [hrun, runFrom_bind, hsave]
      rfl
  · right
    refine ⟨hfreed, Or.inl ?_⟩
    simp only [createNewPageHandle, runFrom_bind, runFrom_onPool, hnew, runFrom_pure]
  · right
    have hready : Ready { s with pool := pool' } :=
      ⟨hbalanced.steady, fun fd => le_trans (h.numbered fd) (hbalanced.numbers fd)⟩
    refine ⟨hfreed, Or.inr ⟨{ s with pool := pool' }, ?_, hready, hbalanced.pins⟩⟩
    simp only [createNewPageHandle, runFrom_bind, runFrom_onPool, hnew]
    rfl

/-- The second half of an insertion at a given place releases what it pins. -/
theorem insertRecordAt_neutral (hfd : 0 ≤ fd ∧ fd < maxFd) (rid : Rid) (buf : Bytes) :
    (s.pool.freed io = none → Leaves 0 (insertRecordAt io fd rid buf) s) ∧
      ((s.pool.freed io).isSome = true →
        Leaves (Pi.single ⟨fd, s.pool.fd2pageno fd⟩ 1) (insertRecordAt io fd rid buf) s) := by
  have hrest : ∀ s' : OpenFiles n δ, Ready s' →
      Leaves 0 (withPage io fd rid.pageNo (fillSlot fd rid.slotNo.toNat buf)) s' := by
    intro s' hready
    apply withPage_neutral hready
    intro s₁ f page disk _ hready₁ _ hframe
    apply Leaves.get
    dsimp only
    apply leaves_write hready₁ hframe
    intro s₂ hready₂ hhdrs₂ _ hframe₂
    split
    · apply leaves_setHdr hready₂ hframe₂ (by rw [hhdrs₂])
      intro s₃ hready₃ _ hframe₃
      exact leaves_unpin_last hready₃ hframe₃ true
    · exact leaves_unpin_last hready₂ hframe₂ true
  rcases createNewPageHandle_cases h io hfd with ⟨disk, hfreed, hcreate⟩ | ⟨hfreed, hcreate | ⟨s', hcreate, hready, hpins⟩⟩
  · rw [hfreed]
    refine ⟨by simp, fun _ => ?_⟩
    split at hcreate
    · obtain ⟨s', hrun, hready, hpins⟩ := hcreate
      exact Leaves.bind_error hrun (by simp) hready hpins
    · obtain ⟨f, s', hrun, hready, -, hpins, -⟩ := hcreate
      have hall : Leaves (Pi.single ⟨fd, s.pool.fd2pageno fd⟩ 1 + 0) (insertRecordAt io fd rid buf) s :=
        Leaves.bind hrun hpins (hrest s' hready)
      rw [add_zero] at hall
      exact hall
  · rw [hfreed]
    exact ⟨fun _ => Leaves.skip hcreate rfl (hrest s h), by simp⟩
  · rw [hfreed]
    exact ⟨fun _ => Leaves.bind_error hcreate (by simp) hready (by rw [hpins, add_zero]), by simp⟩

end

theorem createPageHandle_eq (io : DiskIo δ) (hin : ¬((s.hdrs fd).firstFreePageNo < rmFirstRecordPage ∨
      (s.hdrs fd).numPages ≤ (s.hdrs fd).firstFreePageNo)) :
    runFrom (createPageHandle io fd) s =
      match runFrom (fetchPageHandle io fd (s.hdrs fd).firstFreePageNo) s with
      | (.ok (some f), s') => (.ok (some f), s')
      | (.ok none, s') => runFrom (createNewPageHandle io fd) s'
      | (.error e, s') => (.error e, s') := by
  unfold rmFirstRecordPage at hin
  have hne : ¬(s.hdrs fd).firstFreePageNo = -1 := by omega
  have hrange : 0 ≤ (s.hdrs fd).firstFreePageNo ∧ (s.hdrs fd).firstFreePageNo < (s.hdrs fd).numPages := by omega
  unfold createPageHandle
  rw [runFrom_bind, runFrom_get]
  dsimp only
  rw [if_neg hne, if_pos hrange, runFrom_bind]
  rcases runFrom (fetchPageHandle io fd (s.hdrs fd).firstFreePageNo) s with ⟨(_ | _ | _), _⟩ <;> rfl

theorem createPageHandle_new (io : DiskIo δ) (hout : (s.hdrs fd).firstFreePageNo < rmFirstRecordPage ∨
      (s.hdrs fd).numPages ≤ (s.hdrs fd).firstFreePageNo) :
    runFrom (createPageHandle io fd) s = runFrom (createNewPageHandle io fd) s := by
  have hfetch : runFrom (fetchPageHandle io fd (s.hdrs fd).firstFreePageNo) s = (.ok none, s) := by
    simp only [fetchPageHandle, runFrom_bind, runFrom_get, if_pos hout, runFrom_pure]
  unfold createPageHandle
  rw [runFrom_bind, runFrom_get]
  dsimp only
  split
  · rfl
  · split
    · rw [runFrom_bind, hfetch]
    · rfl

/-- An insertion that has a page. -/
theorem insertRecord_of_page (ctx : RecordContext) (buf : Bytes) (hcreate : runFrom (createPageHandle io fd) s = (.ok (some f), s₁))
    (hready : Ready s₁)
    (hpins : s₁.pool.pins = s.pool.pins + Pi.single id 1) (hframe : InFrame s₁ f id data disk) :
    ((RmPage.HasRoom (s₁.hdrs fd) data → ctx.log ≠ some (.error .internalError)) →
      (runFrom (insertRecord io fd ctx buf) s).1 = .error .crash ∨ Leaves 0 (insertRecord io fd ctx buf) s) ∧
    (¬(RmPage.HasRoom (s₁.hdrs fd) data → ctx.log ≠ some (.error .internalError)) →
      Leaves (Pi.single id 1) (insertRecord io fd ctx buf) s) := by
  by_cases herror : ∃ e, ctx.log = some (.error e)
  · obtain ⟨e, hlog⟩ := herror
    obtain ⟨hroom, hfull⟩ := insertInto_error hready hframe fd buf hlog
    by_cases hfree : RmPage.HasRoom (s₁.hdrs fd) data
    · have hrun : runFrom (insertRecord io fd ctx buf) s = (.error (ofPoolError e), s₁) := by
        simp only [insertRecord, runFrom_bind, hcreate, hroom hfree]
      rw [imp_iff_right hfree, hlog]
      cases e with
      | internalError => exact ⟨fun hne => absurd rfl hne, fun _ => Leaves.of_error hrun (by simp [ofPoolError]) hready hpins⟩
      | crash =>
        refine ⟨fun _ => Or.inl ?_, fun hnot => absurd (by simp) hnot⟩
        rw [hrun]
        rfl
    · exact ⟨fun _ => Or.inr (Leaves.released hcreate hpins (hfull hfree)), fun hnot => absurd (fun hin => absurd hin hfree) hnot⟩
  · have hno : ∀ e, ctx.log ≠ some (.error e) := fun e he => herror ⟨e, he⟩
    exact ⟨fun _ => Or.inr (Leaves.released hcreate hpins (insertInto_leaves hready hframe hno)),
      fun hnot => absurd (fun _ => hno .internalError) hnot⟩

/-- The record goes to the log where there is a free slot, and the header of the file can be written where it gets a
new page. -/
def InsertsClean (io : DiskIo δ) (s : OpenFiles n δ) (fd : ℤ) (ctx : RecordContext) : Prop :=
  if (s.hdrs fd).firstFreePageNo < rmFirstRecordPage ∨ (s.hdrs fd).numPages ≤ (s.hdrs fd).firstFreePageNo then
    ∀ disk ∈ s.pool.freed io,
      (io.writePage ⟨fd, 0⟩ (extendedHdr (s.hdrs fd) (s.pool.fd2pageno fd)).encode disk).isSome = true ∧
        (0 < (s.hdrs fd).numRecordsPerPage → ctx.log ≠ some (.error .internalError))
  else ∀ found ∈ pageOf io s fd (s.hdrs fd).firstFreePageNo,
    RmPage.HasRoom (s.hdrs fd) found.1 → ctx.log ≠ some (.error .internalError)

theorem hasRoom_newPageData (hdr hdr' : RmFileHdr) (hslots : hdr'.numRecordsPerPage = hdr.numRecordsPerPage)
    (hbits : hdr'.bitmapSize = hdr.bitmapSize) : RmPage.HasRoom hdr' (newPageData hdr) ↔ 0 < hdr.numRecordsPerPage := by
  have hfree : ∀ i, Bitmap.isSet (RmPage.bitmap hdr' (newPageData hdr)) i = false := by
    intro i
    have hinit : (Bitmap.init hdr.bitmapSize).length = hdr'.bitmapSize := hbits ▸ List.length_replicate
    rw [newPageData, RmPage.bitmap_setBitmap hinit]
    exact Bitmap.isSet_init ..
  constructor
  · intro ⟨i, hi, _⟩
    omega
  · intro hpos
    exact ⟨0, hslots ▸ hpos, hfree 0⟩

theorem insertRecord_cases (h : Ready s) (io : DiskIo δ) (hfd : 0 ≤ fd ∧ fd < maxFd) (ctx : RecordContext) (buf : Bytes) :
    (InsertsClean io s fd ctx →
      (runFrom (insertRecord io fd ctx buf) s).1 = .error .crash ∨ Leaves 0 (insertRecord io fd ctx buf) s) ∧
    (¬InsertsClean io s fd ctx → ∃ id, Leaves (Pi.single id 1) (insertRecord io fd ctx buf) s) := by
  unfold InsertsClean
  split
  · rename_i hout
    have hnew := createPageHandle_new io hout
    rcases createNewPageHandle_cases h io hfd with ⟨disk, hfreed, hcreate⟩ | ⟨hfreed, hcreate | ⟨s', hcreate, hready, hpins⟩⟩
    · rw [hfreed]
      simp only [Option.mem_some_iff, forall_eq']
      split at hcreate
      · rename_i hwrite
        obtain ⟨s', hrun, hready, hpins⟩ := hcreate
        rw [hwrite]
        exact ⟨fun hand => Bool.noConfusion hand.1, fun _ => ⟨_, Leaves.bind_error (hnew.trans hrun) (by simp) hready hpins⟩⟩
      · rename_i hwrite
        obtain ⟨f, s', hrun, hready, hhdr, hpins, hframe⟩ := hcreate
        have hroom := hasRoom_newPageData (s.hdrs fd) (s'.hdrs fd) (by rw [hhdr]; rfl) (by rw [hhdr]; rfl)
        obtain ⟨hclean, hpinned⟩ := insertRecord_of_page ctx buf (hnew.trans hrun) hready hpins hframe
        rw [hwrite, ← hroom, Option.isSome_some, and_iff_right rfl]
        exact ⟨hclean, fun hnot => ⟨_, hpinned hnot⟩⟩
    · rw [hfreed]
      refine ⟨fun _ => Or.inl ?_, fun hnot => absurd (by simp) hnot⟩
      simp only [insertRecord, runFrom_bind, hnew.trans hcreate, runFrom_throw]
    · rw [hfreed]
      exact ⟨fun _ => Or.inr (Leaves.bind_error (hnew.trans hcreate) (by simp) hready (by rw [hpins, add_zero])),
        fun hnot => absurd (by simp) hnot⟩
  · rename_i hin
    have hcreate := createPageHandle_eq io hin
    rcases fetchPageHandle_cases h io fd (s.hdrs fd).firstFreePageNo with
      ⟨f, data, disk, s₁, hpage, hfetch, hready, hhdrs, hpins, hframe⟩ | ⟨hnone, hfetch⟩
    · have hrun : runFrom (createPageHandle io fd) s = (.ok (some f), s₁) := by
        rw [hcreate, hfetch]
      obtain ⟨hclean, hpinned⟩ := insertRecord_of_page ctx buf hrun hready hpins hframe
      rw [hpage]
      simp only [Option.mem_some_iff, forall_eq']
      rw [← hhdrs]
      exact ⟨hclean, fun hnot => ⟨_, hpinned hnot⟩⟩
    · rw [hnone]
      refine ⟨fun _ => ?_, fun hnot => absurd (by simp) hnot⟩
      rcases hfetch with ⟨hfetch, hfreed⟩ | ⟨s', hfetch, hready, hpins⟩
      · have hrun : runFrom (createPageHandle io fd) s = runFrom (createNewPageHandle io fd) s := by
          rw [hcreate, hfetch]
        rcases createNewPageHandle_cases h io hfd with ⟨disk, hsome, -⟩ | ⟨-, hnew | ⟨s', hnew, hready, hpins⟩⟩
        · rw [hfreed hin] at hsome
          cases hsome
        · left
          simp only [insertRecord, runFrom_bind, hrun.trans hnew, runFrom_throw]
        · exact Or.inr (Leaves.bind_error (hrun.trans hnew) (by simp) hready (by rw [hpins, add_zero]))
      · have hrun : runFrom (createPageHandle io fd) s = (.error .internalError, s') := by
          rw [hcreate, hfetch]
        exact Or.inr (Leaves.bind_error hrun (by simp) hready (by rw [hpins, add_zero]))

/-! ### Runs -/

inductive RecordOp where
  | getRecord (ctx : RecordContext) (rid : Rid)
  | isRecord (rid : Rid)
  | insertRecord (ctx : RecordContext) (buf : Bytes)
  | insertRecordAt (rid : Rid) (buf : Bytes)
  | deleteRecord (ctx : RecordContext) (rid : Rid)
  | updateRecord (ctx : RecordContext) (rid : Rid) (buf : Bytes)
  | next (rid : Rid)

/-- A call on the file of a descriptor. -/
structure RecordCall where
  fd : ℤ
  inRange : 0 ≤ fd ∧ fd < maxFd
  op : RecordOp

def exec (io : DiskIo δ) (call : RecordCall) : FileM n δ Unit :=
  match call.op with
  | .getRecord ctx rid => do let _ ← getRecord io call.fd ctx rid
  | .isRecord rid => do let _ ← isRecord io call.fd rid
  | .insertRecord ctx buf => do let _ ← insertRecord io call.fd ctx buf
  | .insertRecordAt rid buf => insertRecordAt io call.fd rid buf
  | .deleteRecord ctx rid => deleteRecord io call.fd ctx rid
  | .updateRecord ctx rid buf => updateRecord io call.fd ctx rid buf
  | .next rid => do
    let s ← get
    let _ ← next io call.fd (s.hdrs call.fd) rid

/-- The state after a call, also one that throws, unless it does not come back. -/
def machine (io : DiskIo δ) (call : RecordCall) (s : OpenFiles n δ) : Option (OpenFiles n δ) :=
  match runFrom (exec io call) s with
  | (.error .crash, _) => none
  | (_, s') => some s'

/-- What a call needs to release the pages that it pins. -/
def KeepsPins (io : DiskIo δ) (call : RecordCall) (s : OpenFiles n δ) : Prop :=
  match call.op with
  | .getRecord ctx rid => ∀ found ∈ pageOf io s call.fd rid.pageNo,
      ¬TooShort (s.hdrs call.fd) found.1 ctx.isMvcc rid.slotNo.toNat
  | .isRecord rid => pageOf io s call.fd rid.pageNo = none
  | .insertRecord ctx _ => InsertsClean io s call.fd ctx
  | .insertRecordAt _ _ => s.pool.freed io = none
  | .deleteRecord ctx rid => DeletesClean io s call.fd ctx rid
  | .updateRecord ctx rid _ => ∀ found ∈ pageOf io s call.fd rid.pageNo, ctx.log.isSome = true →
      ¬TooShort (s.hdrs call.fd) found.1 ctx.isMvcc rid.slotNo.toNat
  | .next _ => True

instance (io : DiskIo δ) (fd pageNo : ℤ) (hdr : RmFileHdr) (page : Bytes) (slotNo : ℕ) (disk : δ) :
    Decidable (ClearsSlot io fd pageNo hdr page slotNo disk) := inferInstanceAs (Decidable (_ ∧ (_ → _)))

instance (io : DiskIo δ) (s : OpenFiles n δ) (fd : ℤ) (ctx : RecordContext) (rid : Rid) :
    Decidable (DeletesClean io s fd ctx rid) := 
  inferInstanceAs (Decidable (∀ found ∈ pageOf io s fd rid.pageNo, (_ → ¬_) ∧ (_ → _ → _)))

instance (io : DiskIo δ) (s : OpenFiles n δ) (fd : ℤ) (ctx : RecordContext) : Decidable (InsertsClean io s fd ctx) :=
  inferInstanceAs (Decidable
    (if (s.hdrs fd).firstFreePageNo < rmFirstRecordPage ∨ (s.hdrs fd).numPages ≤ (s.hdrs fd).firstFreePageNo then
      ∀ disk ∈ s.pool.freed io, _ ∧ (_ → _)
    else ∀ found ∈ pageOf io s fd (s.hdrs fd).firstFreePageNo, (_ → _)))

instance (io : DiskIo δ) (s : OpenFiles n δ) : ∀ call : RecordCall, Decidable (KeepsPins io call s)
  | ⟨fd, _, .getRecord _ rid⟩ => inferInstanceAs (Decidable (∀ found ∈ pageOf io s fd rid.pageNo, ¬_))
  | ⟨_, _, .isRecord _⟩ => inferInstanceAs (Decidable (_ = none))
  | ⟨_, _, .insertRecord _ _⟩ => inferInstanceAs (Decidable (InsertsClean ..))
  | ⟨_, _, .insertRecordAt _ _⟩ => inferInstanceAs (Decidable (_ = none))
  | ⟨_, _, .deleteRecord _ _⟩ => inferInstanceAs (Decidable (DeletesClean ..))
  | ⟨fd, _, .updateRecord _ rid _⟩ => inferInstanceAs (Decidable (∀ found ∈ pageOf io s fd rid.pageNo, _ → ¬_))
  | ⟨_, _, .next _⟩ => inferInstanceAs (Decidable True)

theorem Leaves.discard {x : FileM n δ α} (h : Leaves held x s) : Leaves held (x >>= fun _ => pure ()) s := by
  obtain ⟨res, s', hrun, hres, hrest⟩ := h
  cases res with
  | ok a => exact ⟨.ok (), s', by rw [runFrom_bind, hrun]; rfl, nofun, hrest⟩
  | error e => exact ⟨.error e, s', by rw [runFrom_bind, hrun], fun heq => hres (by rw [Except.error.inj heq]), hrest⟩

theorem crash_discard {x : FileM n δ α} (h : (runFrom x s).1 = .error .crash) :
    (runFrom (x >>= fun _ => pure ()) s).1 = .error .crash := by
  rw [runFrom_bind]
  rcases hrun : runFrom x s with ⟨res, s'⟩
  rw [hrun] at h
  dsimp only at h
  rw [h]

theorem keepsPins_cases (h : Ready s) (io : DiskIo δ) (call : RecordCall) :
    (KeepsPins io call s → (runFrom (exec io call) s).1 = .error .crash ∨ Leaves 0 (exec io call) s) ∧
      (¬KeepsPins io call s → ∃ id, Leaves (Pi.single id 1) (exec io call) s) := by
  obtain ⟨fd, hfd, op⟩ := call
  cases op with
  | getRecord ctx rid =>
    obtain ⟨hclean, hpinned⟩ := getRecord_leaves h io fd ctx rid
    exact ⟨fun hkeeps => Or.inr (hclean hkeeps).discard, fun hnot => ⟨_, (hpinned hnot).discard⟩⟩
  | isRecord rid =>
    rcases isRecord_cases h io fd rid with ⟨hsome, hleaves⟩ | ⟨hnone, hleaves⟩
    · have hne := Option.isSome_iff_ne_none.mp hsome
      exact ⟨fun hkeeps => absurd hkeeps hne, fun _ => ⟨_, hleaves.discard⟩⟩
    · exact ⟨fun _ => hleaves.imp crash_discard Leaves.discard, fun hnot => absurd hnone hnot⟩
  | insertRecord ctx buf =>
    obtain ⟨hclean, hpinned⟩ := insertRecord_cases h io hfd ctx buf
    refine ⟨fun hkeeps => (hclean hkeeps).imp crash_discard Leaves.discard, fun hnot => ?_⟩
    obtain ⟨id, hleaves⟩ := hpinned hnot
    exact ⟨id, hleaves.discard⟩
  | insertRecordAt rid buf =>
    obtain ⟨hclean, hpinned⟩ := insertRecordAt_neutral h hfd rid buf
    refine ⟨fun hkeeps => Or.inr (hclean hkeeps), fun hnot => ⟨_, hpinned ?_⟩⟩
    exact Option.isSome_iff_ne_none.mpr hnot
  | deleteRecord ctx rid =>
    exact ⟨deleteRecord_neutral h, fun hnot => ⟨_, deleteRecord_pinned h hnot⟩⟩
  | updateRecord ctx rid buf =>
    refine ⟨fun hkeeps => updateRecord_neutral h buf fun page disk hpage => hkeeps (page, disk) hpage, fun hnot => ?_⟩
    change ¬∀ found ∈ pageOf io s fd rid.pageNo, _ → ¬TooShort (s.hdrs fd) found.1 ctx.isMvcc rid.slotNo.toNat at hnot
    push Not at hnot
    obtain ⟨⟨page, disk⟩, hpage, hlog, hshort⟩ := hnot
    exact ⟨_, updateRecord_pinned h buf hpage hlog hshort⟩
  | next rid =>
    exact ⟨fun _ => Or.inr (Leaves.get (next_leaves h io fd _ rid).discard), fun hnot => absurd trivial hnot⟩

theorem machine_crash {call : RecordCall} (hrun : (runFrom (exec io call) s).1 = .error .crash) : machine io call s = none := by
  unfold machine
  rcases h : runFrom (exec io call) s with ⟨res, s'⟩
  rw [h] at hrun
  dsimp only at hrun
  rw [hrun]

theorem Leaves.machine {call : RecordCall} (h : Leaves held (exec io call) s) :
    ∃ s', machine io call s = some s' ∧ Ready s' ∧ s'.pool.pins = s.pool.pins + held := by
  obtain ⟨res, s', hrun, hres, hrest⟩ := h
  refine ⟨s', ?_, hrest⟩
  unfold OpenFiles.machine
  rw [hrun]
  split
  · rename_i heq
    exact absurd (Prod.mk.inj heq).1 hres
  · rename_i heq
    rw [(Prod.mk.inj heq).2]

/-- From a state in which no page behind the end of a file is in the pool, the calls on the records leave every pin
count as it was just when each of them can copy the record that it logs, finds the record that it deletes, asks for no
page with `is_record`, makes no page for an insertion at a given place, and where it pins a page for longer, can write
the log and the file header. -/
theorem pins_along_iff (io : DiskIo δ) (h : Ready s) (calls : List RecordCall) :
    Runs.Along (machine io) (fun s _ s' => s'.pool.pins = s.pool.pins) calls s ↔
      Runs.AllMeet (machine io) (KeepsPins io) calls s := by
  have hgood : ∀ (s : OpenFiles n δ) (call : RecordCall) (s' : OpenFiles n δ), Ready s → KeepsPins io call s →
      machine io call s = some s' → s'.pool.pins = s.pool.pins ∧ Ready s' := by
    intro s call s' h hkeeps hstep
    rcases (keepsPins_cases h io call).1 hkeeps with hcrash | hleaves
    · rw [machine_crash hcrash] at hstep
      cases hstep
    · obtain ⟨t, ht, hready, hpins⟩ := hleaves.machine
      obtain rfl := Option.some.inj (ht.symm.trans hstep)
      exact ⟨by rw [hpins, add_zero], hready⟩
  have hbad : ∀ (s : OpenFiles n δ) (call : RecordCall), Ready s → ¬KeepsPins io call s →
      ∃ s', machine io call s = some s' ∧ ¬s'.pool.pins = s.pool.pins := by
    intro s call h hnot
    obtain ⟨id, hleaves⟩ := (keepsPins_cases h io call).2 hnot
    obtain ⟨s', hstep, -, hpins⟩ := hleaves.machine
    refine ⟨s', hstep, fun heq => ?_⟩
    have hone := congrFun (hpins.symm.trans heq) id
    rw [Pi.add_apply, Pi.single_eq_same] at hone
    omega
  exact Runs.along_iff hgood hbad h

/-- One open file with records of 512 bytes, and a pool of two frames. -/
def oneFile : OpenFiles 2 Unit := ⟨fun _ => RmFile.createHdr 512, start (fun _ => -1) () fun _ => 1⟩

theorem oneFile_ready : Ready oneFile :=
  ⟨start_steady _ _ fun _ => (by decide : (0 : ℤ) ≤ 1), fun _ => le_refl (1 : ℤ)⟩

def noContext : RecordContext := ⟨false, none⟩

def onFile (op : RecordOp) : RecordCall := ⟨3, by decide, op⟩

/-- The one record of a page is deleted and another one put into its slot. -/
def balancedCalls : List RecordCall :=
  [onFile (.insertRecord noContext (List.replicate 512 0)), onFile (.getRecord noContext ⟨1, 0⟩),
    onFile (.deleteRecord noContext ⟨1, 0⟩), onFile (.insertRecord noContext (List.replicate 512 0)),
    onFile (.updateRecord noContext ⟨1, 0⟩ (List.replicate 512 1)), onFile (.getRecord noContext ⟨2, 0⟩)]

theorem pins_balanced : Runs.Along (machine blankDisk) (fun s _ s' => s'.pool.pins = s.pool.pins) balancedCalls oneFile := by
  have hkeeps : Runs.AllMeet (machine blankDisk) (KeepsPins blankDisk) balancedCalls oneFile := by decide +kernel
  exact (pins_along_iff blankDisk oneFile_ready balancedCalls).mpr hkeeps

/-- A page that is asked for a record stays pinned. -/
theorem not_pins_isRecord : ¬Runs.Along (machine blankDisk) (fun s _ s' => s'.pool.pins = s.pool.pins)
    [onFile (.insertRecord noContext (List.replicate 512 0)), onFile (.isRecord ⟨1, 0⟩)] oneFile := by
  have hnot : ¬Runs.AllMeet (machine blankDisk) (KeepsPins blankDisk)
      [onFile (.insertRecord noContext (List.replicate 512 0)), onFile (.isRecord ⟨1, 0⟩)] oneFile := by decide +kernel
  intro halong
  exact hnot ((pins_along_iff blankDisk oneFile_ready _).mp halong)

end Rmdb.OpenFiles
