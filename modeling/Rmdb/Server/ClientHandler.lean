import Rmdb.Transaction.Manager

/-! The session state machine of `client_handler`: what a request does to the transaction of
its client, whatever the statement in it does to the data. -/
namespace Rmdb

/-- What the execution of a statement throws. -/
inductive Thrown where
  | nothing
  | rmdbError
  | transactionAbort
deriving DecidableEq, Repr

/-- A request, as far as transactions are concerned. `statement` is everything that is not a
transaction command, whether it parses or not; `ABORT` and `ROLLBACK` do the same. -/
inductive Request where
  | statement (thrown : Thrown)
  | txnBegin
  | txnCommit
  | txnRollback
  /-- The client sends `exit` or closes the connection. -/
  | exit
deriving DecidableEq, Repr

/-- `explicit` is not in the source: the client has issued `BEGIN`, has not ended that
transaction, and no statement of it was aborted. -/
structure Client where
  connected : Bool
  txnId : ℤ
  explicit : Bool
deriving DecidableEq, Repr

/-- `ended` is not in the source: the calls of `commit` and `abort`, with the state of the
transaction before the call. -/
structure Server where
  txnMgr : TransactionManager
  clients : ℕ → Client
  ended : List (ℤ × TransactionState)

namespace Server

def init (nextTimestamp : ℤ) : Server where
  txnMgr := .init nextTimestamp
  clients _ := ⟨true, invalidTxnId, false⟩
  ended := []

variable (s : Server)

def setClient (c : ℕ) (f : Client → Client) : Server :=
  { s with clients := Function.update s.clients c (f (s.clients c)) }

def setTxnMode (txnId : ℤ) (mode : Bool) : Server :=
  { s with txnMgr := s.txnMgr.modifyTxn txnId fun txn => { txn with txnMode := mode } }

/-- Append the call to `ended`; a call on a transaction that the table does not have cannot
be made. -/
def noteEnd (txn : Transaction) : Server := { s with ended := s.ended ++ [(txn.txnId, txn.state)] }

def commit (txn : Transaction) : Server :=
  let commitTs := s.txnMgr.nextTimestamp
  let tm := { s.txnMgr with nextTimestamp := commitTs + 1 }
  { s.noteEnd txn with
    txnMgr := (tm.stampCommit txn.txnId commitTs).finishCommit txn.txnId txn.startTs commitTs }

def abort (txn : Transaction) : Server :=
  { s.noteEnd txn with txnMgr := s.txnMgr.markAborted txn.txnId txn.startTs }

/-- The transaction is an explicit one that has not ended. -/
def reusable (txn : Transaction) : Bool :=
  txn.state ≠ .committed && txn.state ≠ .aborted && txn.txnMode

/-- Begin a transaction for a client; it starts in explicit mode. -/
def beginTxn (c : ℕ) : ℤ × Server :=
  let (txnId, tm) := s.txnMgr.begin
  (txnId, ({ s with txnMgr := tm }).setClient c fun client => { client with txnId })

/-- Returns the transaction that the request runs in. The parse tree is not there yet, so the
branch for read-only statements is never taken. -/
def setTransaction (c : ℕ) : ℤ × Server :=
  match (s.txnMgr.getTransaction (s.clients c).txnId).filter reusable with
  | some txn => (txn.txnId, s)
  | none =>
    let (txnId, s) := s.beginTxn c
    (txnId, s.setTxnMode txnId false)

/-- The handler of `TransactionAbortException`: the old object is deleted but stays in the
table, and a new transaction is begun. -/
def handleAbort (c : ℕ) (txnId : ℤ) : ℤ × Server :=
  match s.txnMgr.getTransaction txnId with
  | none => (txnId, s)
  | some txn =>
    let s := s.abort txn
    let s := { s with txnMgr := s.txnMgr.modifyTxn txnId fun txn => { txn with freed := true } }
    let (newId, s) := s.beginTxn c
    (newId, s.setClient c fun client => { client with explicit := false })

/-- Run the request in transaction `txnId` and return the transaction that the context is
left with. -/
def execute (c : ℕ) (txnId : ℤ) : Request → ℤ × Server
  | .statement .transactionAbort => s.handleAbort c txnId
  | .statement _ => (txnId, s)
  | .txnBegin =>
    (txnId, (s.setTxnMode txnId true).setClient c fun client => { client with explicit := true })
  | .txnCommit =>
    match s.txnMgr.getTransaction txnId with
    | none => (txnId, s)
    | some txn => (txnId, (s.commit txn).setClient c fun client => { client with explicit := false })
  | .txnRollback =>
    match s.txnMgr.getTransaction txnId with
    | none => (txnId, s)
    | some txn => (txnId, (s.abort txn).setClient c fun client => { client with explicit := false })
  | .exit => (txnId, s)

/-- A transaction that is not in explicit mode is committed after its request. -/
def autocommit (txnId : ℤ) : Server :=
  match (s.txnMgr.getTransaction txnId).filter (!·.txnMode) with
  | some txn => s.commit txn
  | none => s

/-- One round of the loop of `client_handler`; `sent` says whether the answer could be
written to the client. -/
def handle (c : ℕ) (request : Request) (sent : Bool) : Server :=
  if (s.clients c).connected = false then s
  else if request = .exit then s.setClient c fun client => { client with connected := false }
  else
    let (txnId, s) := s.setTransaction c
    let (txnId, s) := s.execute c txnId request
    if sent then s.autocommit txnId
    else s.setClient c fun client => { client with connected := false }

structure Round where
  client : ℕ
  request : Request
  sent : Bool
deriving DecidableEq, Repr

def step (round : Round) : Server := s.handle round.client round.request round.sent

def run (rounds : List Round) : Server := rounds.foldl step s

/-- No transaction is ended twice, the table holds no deleted object, and a connected client
has an active transaction only if it is inside one of its own. -/
structure LifeCycle : Prop where
  endedOnce : ∀ e ∈ s.ended, e.2 ≠ .committed ∧ e.2 ≠ .aborted
  notFreed : ∀ txn ∈ s.txnMgr.txnMap, txn.freed = false
  explicit : ∀ c, (s.clients c).connected = true →
    ((s.txnMgr.getTransaction (s.clients c).txnId).any (·.isActive)) = true →
      (s.clients c).explicit = true

end Server
end Rmdb
