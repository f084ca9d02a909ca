import Rmdb.Server.ClientHandler

/-! The life cycle of transactions over every sequence of requests. The invariant ties the
transaction of a connected client to whether the client is inside an explicit transaction. -/
namespace Rmdb
namespace Server

open TransactionManager

/-- What the source has to be spared for a round to keep the life cycle: no statement aborts
its transaction, and only a client inside an explicit transaction ends one, unless the answer
cannot be sent. -/
def Conforms (s : Server) (round : Round) : Prop :=
  (s.clients round.client).connected = true →
    match round.request with
    | .statement thrown => thrown ≠ .transactionAbort
    | .txnCommit | .txnRollback => (s.clients round.client).explicit = true ∨ round.sent = false
    | .txnBegin | .exit => True

def Conforming : Server → List Round → Prop
  | _, [] => True
  | s, round :: rounds => s.Conforms round ∧ Conforming (s.step round) rounds

/-- The transaction that a client refers to. -/
def txnOf (s : Server) (c : ℕ) : Option Transaction := s.txnMgr.getTransaction (s.clients c).txnId

/-- What holds whatever the states of the transactions are. -/
structure Base (s : Server) : Prop where
  nextTxnId : 0 ≤ s.txnMgr.nextTxnId
  ids : ∀ txn ∈ s.txnMgr.txnMap, txn.txnId < s.txnMgr.nextTxnId
  notFreed : ∀ txn ∈ s.txnMgr.txnMap, txn.freed = false
  endedOnce : ∀ e ∈ s.ended, e.2 ≠ .committed ∧ e.2 ≠ .aborted
  clientIds : ∀ c, (s.clients c).txnId < s.txnMgr.nextTxnId
  distinct : ∀ c c', c ≠ c' → (s.clients c).txnId = (s.clients c').txnId →
    (s.clients c).txnId = invalidTxnId

/-- A connected client is inside an explicit transaction that runs, or has no running one. -/
def ClientOk (s : Server) (c : ℕ) : Prop :=
  (s.clients c).connected = true →
    if (s.clients c).explicit then ∃ txn, s.txnOf c = some txn ∧ txn.state = .default ∧ txn.txnMode
    else (s.txnOf c).any (·.isActive) = false

structure Inv (s : Server) : Prop extends Base s where
  clientOk : ∀ c, s.ClientOk c

/-- Between `SetTransaction` and the end of the round the client has a running transaction,
in the given mode. -/
structure InRound (s : Server) (c : ℕ) (txnId : ℤ) (mode : Bool) : Prop extends Base s where
  others : ∀ c', c' ≠ c → s.ClientOk c'
  connected : (s.clients c).connected = true
  txnId : (s.clients c).txnId = txnId
  running : ∃ txn, s.txnOf c = some txn ∧ txn.state = .default ∧ txn.txnMode = mode

theorem Inv.lifeCycle {s : Server} (h : Inv s) : s.LifeCycle where
  endedOnce := h.endedOnce
  notFreed := h.notFreed
  explicit c hc hact := by
    by_contra he
    have := h.clientOk c hc
    rw [if_neg he] at this
    simp [txnOf, hact] at this

theorem inv_init (nextTimestamp : ℤ) : Inv (init nextTimestamp) where
  nextTxnId := le_rfl
  ids := by simp [init, TransactionManager.init]
  notFreed := by simp [init, TransactionManager.init]
  endedOnce := by simp [init]
  clientIds := by simp [init, TransactionManager.init, invalidTxnId]
  distinct := by simp [init]
  clientOk c := by simp [ClientOk, init, txnOf, getTransaction]

section frame
variable {s s' : Server} {c : ℕ}

/-- A client whose record and transaction stay as they are stays as it is. -/
theorem ClientOk.frame {c' : ℕ} (h : s.ClientOk c') (hc : s'.clients c' = s.clients c')
    (ht : s'.txnOf c' = s.txnOf c') : s'.ClientOk c' := by
  unfold ClientOk at h ⊢
  rwa [hc, ht]

theorem Base.txnId_ne (h : Base s) {c' : ℕ} (hc : c' ≠ c) {txn : Transaction}
    (ht : s.txnOf c = some txn) : (s.clients c').txnId ≠ (s.clients c).txnId := by
  intro heq
  have hinv := h.distinct c c' hc.symm heq.symm
  simp [txnOf, getTransaction, hinv] at ht

/-- Changing the states and modes of one transaction, without freeing it. -/
theorem Base.modifyTxn (h : Base s) (id : ℤ) {f : Transaction → Transaction}
    (hid : ∀ txn, (f txn).txnId = txn.txnId) (hfreed : ∀ txn, (f txn).freed = txn.freed)
    (htm : s'.txnMgr.txnMap = (s.txnMgr.modifyTxn id f).txnMap)
    (hnext : s'.txnMgr.nextTxnId = s.txnMgr.nextTxnId) (hcl : ∀ c, (s'.clients c).txnId = (s.clients c).txnId)
    (hended : ∀ e ∈ s'.ended, e.2 ≠ .committed ∧ e.2 ≠ .aborted) : Base s' where
  nextTxnId := hnext ▸ h.nextTxnId
  ids txn htxn := by
    obtain ⟨old, hold, rfl⟩ := mem_modifyTxn (htm ▸ htxn)
    rw [hnext]
    split
    · rw [hid]
      exact h.ids old hold
    · exact h.ids old hold
  notFreed txn htxn := by
    obtain ⟨old, hold, rfl⟩ := mem_modifyTxn (htm ▸ htxn)
    split
    · rw [hfreed]
      exact h.notFreed old hold
    · exact h.notFreed old hold
  endedOnce := hended
  clientIds c := by
    rw [hcl, hnext]
    exact h.clientIds c
  distinct c c' := by
    rw [hcl, hcl]
    exact h.distinct c c'

theorem getTransaction_of_txnMap {tm tm' : TransactionManager} (h : tm'.txnMap = tm.txnMap) (id : ℤ) :
    tm'.getTransaction id = tm.getTransaction id := by
  simp [getTransaction, h]

/-- Changing the transaction of one client leaves the other clients alone. -/
theorem InRound.modifyTxn {id : ℤ} {mode : Bool} (h : InRound s c id mode) (s' : Server) {f : Transaction → Transaction}
    (hid : ∀ txn, (f txn).txnId = txn.txnId) (hfreed : ∀ txn, (f txn).freed = txn.freed)
    (htm : s'.txnMgr.txnMap = (s.txnMgr.modifyTxn id f).txnMap)
    (hnext : s'.txnMgr.nextTxnId = s.txnMgr.nextTxnId)
    (hothers : ∀ c', c' ≠ c → s'.clients c' = s.clients c') (hclient : (s'.clients c).txnId = id)
    (hended : ∀ e ∈ s'.ended, e.2 ≠ .committed ∧ e.2 ≠ .aborted) :
    Base s' ∧ (∀ c', c' ≠ c → s'.ClientOk c') ∧ s'.txnOf c = (s.txnOf c).map f := by
  have hids : ∀ c', (s'.clients c').txnId = (s.clients c').txnId := by
    intro c'
    by_cases hc : c' = c
    · rw [hc, hclient, h.txnId]
    · rw [hothers c' hc]
  have htxn : ∀ c', s'.txnOf c' =
      if (s.clients c').txnId = id then (s.txnOf c').map f else s.txnOf c' := by
    intro c'
    rw [txnOf, hids, getTransaction_of_txnMap htm, getTransaction_modifyTxn_ite hid]
    rfl
  obtain ⟨txn, ht, -⟩ := h.running
  refine ⟨h.toBase.modifyTxn id hid hfreed htm hnext hids hended, fun c' hc => ?_, ?_⟩
  · have hne := h.txnId ▸ h.toBase.txnId_ne hc ht
    exact (h.others c' hc).frame (hothers c' hc) (by rw [htxn, if_neg hne])
  · rw [htxn, if_pos h.txnId]

/-- The round of a client is over once its transaction fits its record again. -/
theorem Base.inv (h : Base s) (hothers : ∀ c', c' ≠ c → s.ClientOk c') (hc : s.ClientOk c) : Inv s where
  toBase := h
  clientOk c' := by
    by_cases hc' : c' = c
    · exact hc' ▸ hc
    · exact hothers c' hc'

end frame

/-! ### The parts of a round -/

section round
variable {s : Server} {c : ℕ} {txnId : ℤ}

theorem ended_append {txn : Transaction} (h : Base s) (hst : txn.state = .default) :
    ∀ e ∈ (s.noteEnd txn).ended, e.2 ≠ .committed ∧ e.2 ≠ .aborted := by
  intro e he
  rcases List.mem_append.mp he with he | he
  · exact h.endedOnce e he
  · rw [List.mem_singleton.mp he, hst]
    simp

theorem beginTxn_inRound (h : Inv s) (hc : (s.clients c).connected = true) :
    InRound (s.beginTxn c).2 c (s.beginTxn c).1 true ∧
      ((s.beginTxn c).2.clients c).explicit = (s.clients c).explicit := by
  have hview : ∀ j, (s.beginTxn c).2.txnMgr.getTransaction j =
      if j = s.txnMgr.nextTxnId then some s.txnMgr.newTransaction
      else s.txnMgr.getTransaction j :=
    fun j => getTransaction_begin h.ids h.nextTxnId
  have hclients : (s.beginTxn c).2.clients =
      Function.update s.clients c { s.clients c with txnId := s.txnMgr.nextTxnId } := rfl
  have hid : ∀ c', ((s.beginTxn c).2.clients c').txnId =
      if c' = c then s.txnMgr.nextTxnId else (s.clients c').txnId := by
    intro c'
    rw [hclients]
    by_cases hc' : c' = c <;> simp [hc']
  have hmap : ∀ txn ∈ (s.beginTxn c).2.txnMgr.txnMap,
      txn ∈ s.txnMgr.txnMap ∨ txn = s.txnMgr.newTransaction := by
    intro txn htxn
    rcases List.mem_append.mp htxn with hold | hnew
    · exact .inl hold
    · exact .inr (List.mem_singleton.mp hnew)
  have hnext : (s.beginTxn c).2.txnMgr.nextTxnId = s.txnMgr.nextTxnId + 1 := rfl
  have hpos := h.nextTxnId
  have hbase : Base (s.beginTxn c).2 := by
    refine ⟨by omega, fun txn htxn => ?_, fun txn htxn => ?_, h.endedOnce, fun c' => ?_,
      fun c' c'' hne => ?_⟩
    · rcases hmap txn htxn with hold | rfl
      · have := h.ids txn hold
        omega
      · simp only [newTransaction]
        omega
    · rcases hmap txn htxn with hold | rfl
      · exact h.notFreed txn hold
      · rfl
    · have := h.clientIds c'
      rw [hid, hnext]
      split <;> omega
    · have h' := h.clientIds c'
      have h'' := h.clientIds c''
      rw [hid, hid]
      split <;> split
      · omega
      · omega
      · omega
      · exact h.distinct c' c'' hne
  refine ⟨⟨hbase, fun c' hc' => ?_, ?_, by rw [hid, if_pos rfl]; rfl, s.txnMgr.newTransaction, ?_,
    rfl, rfl⟩, by rw [hclients, Function.update_self]⟩
  · have hlt := h.clientIds c'
    refine (h.clientOk c').frame (by rw [hclients, Function.update_of_ne hc']) ?_
    rw [txnOf, hid, if_neg hc', hview, if_neg (by omega)]
    rfl
  · rw [hclients, Function.update_self]
    exact hc
  · rw [txnOf, hid, if_pos rfl, hview, if_pos rfl]

theorem setTxnMode_inRound {mode : Bool} (h : InRound s c txnId mode) (mode' : Bool) :
    InRound (s.setTxnMode txnId mode') c txnId mode' := by
  obtain ⟨hbase, hothers, hown⟩ := h.modifyTxn (s.setTxnMode txnId mode')
    (f := fun txn => { txn with txnMode := mode' }) (fun _ => rfl) (fun _ => rfl) rfl rfl
    (fun _ _ => rfl) h.txnId h.endedOnce
  obtain ⟨txn, ht, hst, -⟩ := h.running
  exact ⟨hbase, hothers, h.connected, h.txnId, { txn with txnMode := mode' }, by rw [hown, ht]; rfl,
    hst, rfl⟩

theorem setExplicit_inRound {mode : Bool} (h : InRound s c txnId mode) (explicit : Bool) :
    InRound (s.setClient c fun client => { client with explicit }) c txnId mode := by
  obtain ⟨hbase, hothers, hown⟩ := h.modifyTxn
    (s.setClient c fun client => { client with explicit }) (f := id) (fun _ => rfl)
    (fun _ => rfl) (by simp [setClient, modifyTxn]) rfl (fun c' hc' => by simp [setClient, hc'])
    (by simp [setClient, h.txnId]) h.endedOnce
  rw [Option.map_id_fun, id] at hown
  obtain ⟨txn, ht, hst, hmode⟩ := h.running
  exact ⟨hbase, hothers, by simpa [setClient] using h.connected, by simp [setClient, h.txnId], txn,
    hown.trans ht, hst, hmode⟩

theorem setTransaction_inRound (h : Inv s) (hc : (s.clients c).connected = true) :
    InRound (s.setTransaction c).2 c (s.setTransaction c).1 (s.clients c).explicit ∧
      ((s.setTransaction c).2.clients c).explicit = (s.clients c).explicit := by
  have hok := h.clientOk c hc
  cases he : (s.clients c).explicit with
  | true =>
    -- The explicit transaction is found and used again.
    rw [if_pos he] at hok
    obtain ⟨txn, ht, hst, hmode⟩ := hok
    have hid := (mem_of_getTransaction ht).2
    have hre : (s.txnMgr.getTransaction (s.clients c).txnId).filter reusable = some txn := by
      have ht' : s.txnMgr.getTransaction (s.clients c).txnId = some txn := ht
      simp [ht', reusable, hst, hmode]
    simp only [setTransaction, hre]
    exact ⟨⟨h.toBase, fun c' _ => h.clientOk c', hc, hid.symm, txn, ht, hst, hmode⟩, he⟩
  | false =>
    -- A new transaction is begun and taken out of explicit mode.
    rw [if_neg (by simp [he])] at hok
    have hre : (s.txnMgr.getTransaction (s.clients c).txnId).filter reusable = none := by
      cases ht : s.txnMgr.getTransaction (s.clients c).txnId with
      | none => rfl
      | some txn =>
        have hact : txn.isActive = false := by simpa [txnOf, ht] using hok
        cases hst : txn.state <;> simp [reusable, hst] <;> simp [Transaction.isActive, hst] at hact
    obtain ⟨hround, hexp⟩ := beginTxn_inRound h hc
    simp only [setTransaction, hre]
    exact ⟨setTxnMode_inRound hround false, hexp.trans he⟩

/-- `commit` and `abort` change one transaction, into an ended one with the same mode. -/
structure Ends (s s' : Server) (txnId : ℤ) : Prop where
  txnMap : ∃ f : Transaction → Transaction, s'.txnMgr.txnMap = (s.txnMgr.modifyTxn txnId f).txnMap ∧
    ∀ txn, (f txn).txnId = txn.txnId ∧ (f txn).freed = txn.freed ∧ (f txn).txnMode = txn.txnMode ∧
      (f txn).isActive = false ∧ ((f txn).state = .committed ∨ (f txn).state = .aborted)
  nextTxnId : s'.txnMgr.nextTxnId = s.txnMgr.nextTxnId
  clients : s'.clients = s.clients

theorem commit_ends (txn : Transaction) : Ends s (s.commit txn) txn.txnId where
  txnMap := ⟨_, modifyTxn_modifyTxn fun _ => rfl, fun _ => ⟨rfl, rfl, rfl, rfl, .inl rfl⟩⟩
  nextTxnId := rfl
  clients := rfl

theorem abort_ends (txn : Transaction) : Ends s (s.abort txn) txn.txnId where
  txnMap := ⟨_, rfl, fun _ => ⟨rfl, rfl, rfl, rfl, .inr rfl⟩⟩
  nextTxnId := rfl
  clients := rfl

/-- Ending the running transaction leaves a client that is not inside one. -/
theorem Ends.inv {mode : Bool} {s' : Server} (hend : Ends s s' txnId) (h : InRound s c txnId mode)
    (s'' : Server) (htm : s''.txnMgr = s'.txnMgr) (hothers : ∀ c', c' ≠ c → s''.clients c' = s.clients c')
    (hid : (s''.clients c).txnId = txnId) (hexp : (s''.clients c).explicit = false)
    (hended : ∀ e ∈ s''.ended, e.2 ≠ .committed ∧ e.2 ≠ .aborted) :
    Inv s'' ∧ ∃ txn, s''.txnMgr.getTransaction txnId = some txn ∧ txn.txnMode = mode ∧
      (txn.state = .committed ∨ txn.state = .aborted) := by
  obtain ⟨⟨f, hmap, hf⟩, hnext, -⟩ := hend
  obtain ⟨hbase, hok, hown⟩ := h.modifyTxn s'' (fun txn => (hf txn).1)
    (fun txn => (hf txn).2.1) (htm ▸ hmap) (htm ▸ hnext) hothers hid hended
  obtain ⟨txn, ht, -, hmode⟩ := h.running
  rw [ht] at hown
  refine ⟨hbase.inv hok fun _ => ?_, f txn, ?_, (hf txn).2.2.1.trans hmode, (hf txn).2.2.2.2⟩
  · rw [if_neg (by simp [hexp]), hown]
    exact (hf txn).2.2.2.1
  · rw [← hid]
    exact hown

theorem Base.disconnect (h : Base s) (hothers : ∀ c', c' ≠ c → s.ClientOk c') :
    Inv (s.setClient c fun client => { client with connected := false }) := by
  have hid : ∀ c', ((s.setClient c fun client => { client with connected := false }).clients c').txnId =
      (s.clients c').txnId := by
    intro c'
    by_cases hc : c' = c
    · subst hc
      simp [setClient]
    · simp [setClient, hc]
  refine ⟨⟨h.nextTxnId, h.ids, h.notFreed, h.endedOnce, fun c' => ?_, fun c' c'' => ?_⟩, fun c' => ?_⟩
  · rw [hid]
    exact h.clientIds c'
  · rw [hid, hid]
    exact h.distinct c' c''
  · by_cases hc : c' = c
    · intro hconn
      simp [setClient, hc] at hconn
    · exact (hothers c' hc).frame (by simp [setClient, hc]) (by rw [txnOf, hid]; rfl)

theorem autocommit_eq {txn : Transaction} (ht : s.txnMgr.getTransaction txnId = some txn) :
    s.autocommit txnId = if txn.txnMode then s else s.commit txn := by
  cases hm : txn.txnMode <;> simp [autocommit, ht, Option.filter, hm]

/-- After a request that leaves the transaction running. -/
theorem InRound.finish {mode : Bool} (h : InRound s c txnId mode) (sent : Bool)
    (hexp : (s.clients c).explicit = mode) :
    Inv (if sent then s.autocommit txnId
      else s.setClient c fun client => { client with connected := false }) := by
  obtain ⟨txn, ht, hst, hmode⟩ := h.running
  have ht' : s.txnMgr.getTransaction txnId = some txn := by rw [← h.txnId]; exact ht
  have hid := (mem_of_getTransaction ht').2
  split
  · rw [autocommit_eq ht', hmode]
    cases mode with
    | true =>
      refine h.toBase.inv h.others fun _ => ?_
      rw [if_pos hexp]
      exact ⟨txn, ht, hst, hmode⟩
    | false =>
      have hend : Ends s (s.commit txn) txnId := hid ▸ commit_ends txn
      exact (hend.inv h _ rfl (fun _ _ => rfl) h.txnId hexp (ended_append h.toBase hst)).1
  · exact h.toBase.disconnect h.others

/-- After a request that ends the transaction of a client inside one, or whose answer cannot
be sent. -/
theorem Ends.finish {mode : Bool} {s' : Server} (hend : Ends s s' txnId) (h : InRound s c txnId mode)
    (hended : ∀ e ∈ s'.ended, e.2 ≠ .committed ∧ e.2 ≠ .aborted) {sent : Bool}
    (hok : mode = true ∨ sent = false) :
    Inv (let s' := s'.setClient c fun client => { client with explicit := false }
      if sent then s'.autocommit txnId
      else s'.setClient c fun client => { client with connected := false }) := by
  have hcl := hend.clients
  obtain ⟨hinv, txn, ht, hmode, -⟩ := hend.inv h
    (s'.setClient c fun client => { client with explicit := false }) rfl
    (fun c' hc' => by simp [setClient, hc', hcl]) (by simp [setClient, hcl, h.txnId])
    (by simp [setClient]) hended
  dsimp only
  split
  · rename_i hsent
    have hmode' : txn.txnMode = true := by
      rcases hok with rfl | hs
      · exact hmode
      · simp [hs] at hsent
    rw [autocommit_eq ht, if_pos hmode']
    exact hinv
  · exact hinv.toBase.disconnect fun c' _ => hinv.clientOk c'

theorem step_inv (h : Inv s) (round : Round) (hr : s.Conforms round) : Inv (s.step round) := by
  obtain ⟨c, request, sent⟩ := round
  simp only [step, handle]
  split
  · exact h
  · rename_i hconn
    have hconn : (s.clients c).connected = true := by simpa using hconn
    have hr := hr hconn
    split
    · exact h.toBase.disconnect fun c' _ => h.clientOk c'
    · obtain ⟨hround, hexp⟩ := setTransaction_inRound h hconn
      generalize (s.setTransaction c) = started at hround hexp
      obtain ⟨txnId, s₁⟩ := started
      dsimp only at hround hexp
      obtain ⟨txn, ht, hst, -⟩ := hround.running
      have ht' : s₁.txnMgr.getTransaction txnId = some txn := by rw [← hround.txnId]; exact ht
      have hid := (mem_of_getTransaction ht').2
      cases request with
      | statement thrown =>
        cases thrown with
        | nothing => exact hround.finish sent hexp
        | rmdbError => exact hround.finish sent hexp
        | transactionAbort => exact absurd rfl hr
      | txnBegin =>
        exact (setExplicit_inRound (setTxnMode_inRound hround true) true).finish sent
          (by simp [setClient])
      | txnCommit =>
        have hend : Ends s₁ (s₁.commit txn) txnId := hid ▸ commit_ends txn
        simp only [execute, ht']
        exact hend.finish hround (ended_append hround.toBase hst) hr
      | txnRollback =>
        have hend : Ends s₁ (s₁.abort txn) txnId := hid ▸ abort_ends txn
        simp only [execute, ht']
        exact hend.finish hround (ended_append hround.toBase hst) hr
      | exit => contradiction

/-! ### Rounds that break the life cycle -/

theorem commit_keeps_freed (txn : Transaction) (h : ∃ t ∈ s.txnMgr.txnMap, t.freed = true) :
    ∃ t ∈ (s.commit txn).txnMgr.txnMap, t.freed = true := by
  obtain ⟨t, ht, hfreed⟩ := h
  obtain ⟨⟨f, hmap, hf⟩, -⟩ := commit_ends (s := s) txn
  rw [hmap]
  refine ⟨_, List.mem_map.mpr ⟨t, ht, rfl⟩, ?_⟩
  split
  · rw [(hf t).2.1, hfreed]
  · exact hfreed

theorem handleAbort_freed {txn : Transaction} (ht : s.txnMgr.getTransaction txnId = some txn) :
    ∃ t ∈ (s.handleAbort c txnId).2.txnMgr.txnMap, t.freed = true := by
  obtain ⟨hmem, hid⟩ := mem_of_getTransaction ht
  simp only [handleAbort, ht]
  refine ⟨{ txn with state := .aborted, freed := true }, List.mem_append_left _ ?_, rfl⟩
  refine List.mem_map.mpr ⟨{ txn with state := .aborted }, List.mem_map.mpr ⟨txn, hmem, ?_⟩, ?_⟩ <;>
    simp [hid]

/-- A transaction that was ended by its own request is committed once more. -/
private theorem ended_twice {s' : Server} (hend : Ends s s' txnId) (h : InRound s c txnId false)
    (hended : ∀ e ∈ s'.ended, e.2 ≠ .committed ∧ e.2 ≠ .aborted) :
    ¬LifeCycle ((s'.setClient c fun client => { client with explicit := false }).autocommit txnId) := by
  have hcl := hend.clients
  obtain ⟨-, txn, ht, hmode, hst⟩ := hend.inv h
    (s'.setClient c fun client => { client with explicit := false }) rfl
    (fun c' hc' => by simp [setClient, hc', hcl]) (by simp [setClient, hcl, h.txnId])
    (by simp [setClient]) hended
  rw [autocommit_eq ht, if_neg (by simp [hmode])]
  intro hlife
  have := hlife.endedOnce (txn.txnId, txn.state) (by simp [commit, noteEnd])
  rcases hst with hst | hst <;> simp [hst] at this

theorem step_not_lifeCycle (h : Inv s) (round : Round) (hr : ¬s.Conforms round) :
    ¬LifeCycle (s.step round) := by
  obtain ⟨c, request, sent⟩ := round
  simp only [Conforms, Classical.not_imp] at hr
  obtain ⟨hconn, hr⟩ := hr
  simp only [step, handle, hconn, Bool.true_eq_false, if_false]
  obtain ⟨hround, hexp⟩ := setTransaction_inRound h hconn
  generalize (s.setTransaction c) = started at hround hexp
  obtain ⟨txnId, s₁⟩ := started
  dsimp only at hround hexp
  obtain ⟨txn, ht, hst, -⟩ := hround.running
  have ht' : s₁.txnMgr.getTransaction txnId = some txn := by rw [← hround.txnId]; exact ht
  have hid := (mem_of_getTransaction ht').2
  cases request with
  | statement thrown =>
    have hthrown : thrown = .transactionAbort := by simpa using hr
    subst hthrown
    have hfreed := handleAbort_freed (c := c) ht'
    intro hlife
    obtain ⟨t, hmem, hf⟩ : ∃ t ∈ (if sent then
        (s₁.handleAbort c txnId).2.autocommit (s₁.handleAbort c txnId).1
        else (s₁.handleAbort c txnId).2.setClient c fun client =>
          { client with connected := false }).txnMgr.txnMap, t.freed = true := by
      split
      · unfold autocommit
        split
        · exact commit_keeps_freed _ hfreed
        · exact hfreed
      · exact hfreed
    simpa [hf] using hlife.notFreed t hmem
  | txnBegin => simp at hr
  | txnCommit =>
    simp only [not_or, Bool.not_eq_true, Bool.not_eq_false] at hr
    obtain ⟨he, rfl⟩ := hr
    have hend : Ends s₁ (s₁.commit txn) txnId := hid ▸ commit_ends txn
    simp only [reduceCtorEq, if_false, if_true, execute, ht']
    exact ended_twice hend (he ▸ hround) (ended_append hround.toBase hst)
  | txnRollback =>
    simp only [not_or, Bool.not_eq_true, Bool.not_eq_false] at hr
    obtain ⟨he, rfl⟩ := hr
    have hend : Ends s₁ (s₁.abort txn) txnId := hid ▸ abort_ends txn
    simp only [reduceCtorEq, if_false, if_true, execute, ht']
    exact ended_twice hend (he ▸ hround) (ended_append hround.toBase hst)
  | exit => simp at hr

end round

/-- The life cycle holds after every round of a run exactly if all rounds conform. -/
theorem lifeCycle_iff_conforming (nextTimestamp : ℤ) (rounds : List Round) :
    (∀ done todo, done ++ todo = rounds → ((init nextTimestamp).run done).LifeCycle) ↔
      Conforming (init nextTimestamp) rounds := by
  suffices h : ∀ s : Server, s.Inv →
      ((∀ done todo, done ++ todo = rounds → (s.run done).LifeCycle) ↔ Conforming s rounds) from
    h _ (inv_init nextTimestamp)
  induction rounds with
  | nil =>
    intro s hs
    refine iff_of_true (fun done todo h => ?_) trivial
    rw [(List.append_eq_nil_iff.mp h).1]
    exact hs.lifeCycle
  | cons round rounds ih =>
    intro s hs
    by_cases hr : s.Conforms round
    · have hrec := ih _ (step_inv hs round hr)
      simp only [Conforming, hr, true_and, ← hrec]
      constructor
      · intro h done todo hsplit
        exact h (round :: done) todo (by rw [List.cons_append, hsplit])
      · intro h done todo hsplit
        cases done with
        | nil => exact hs.lifeCycle
        | cons r done =>
          rw [List.cons_append] at hsplit
          obtain ⟨rfl, htail⟩ := List.cons.inj hsplit
          exact h done todo htail
    · refine iff_of_false (fun h => ?_) fun h => hr h.1
      exact step_not_lifeCycle hs round hr (h [round] rounds rfl)

/-- A plain statement that aborts leaves a deleted object in the table and an active
transaction that the client never asked for; a `COMMIT` outside a transaction commits twice. -/
theorem not_lifeCycle_abort_commit :
    ¬((init 0).run [⟨0, .statement .transactionAbort, true⟩]).LifeCycle ∧
      ¬((init 0).run [⟨0, .txnCommit, true⟩]).LifeCycle := by
  constructor
  · intro h
    have hexplicit := h.explicit 0 rfl rfl
    cases hexplicit
  · intro h
    exact (h.endedOnce (0, .committed) (by decide)).1 rfl

end Server
end Rmdb
