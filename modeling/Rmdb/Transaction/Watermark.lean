import Mathlib.Data.Int.Notation
import Mathlib.Algebra.Order.Group.Int

/-! The read timestamps of running transactions and the watermark kept over them. -/
namespace Rmdb

structure Watermark where
  commitTs : ℤ
  watermark : ℤ
  /-- How many running transactions read at a timestamp. -/
  currentReads : List (ℤ × ℕ)
deriving DecidableEq, Repr

namespace Watermark

def init (commitTs : ℤ) : Watermark := ⟨commitTs, commitTs, []⟩

variable (w : Watermark)

/-- The least read timestamp, as the first key of the ordered map. -/
def firstRead : Option ℤ := (w.currentReads.map (·.1)).min?

def addTxn (readTs : ℤ) : Watermark :=
  let reads :=
    if w.currentReads.any (·.1 = readTs) then
      w.currentReads.map fun e => if e.1 = readTs then (e.1, e.2 + 1) else e
    else w.currentReads ++ [(readTs, 1)]
  { w with currentReads := reads, watermark := if readTs < w.watermark then readTs else w.watermark }

def removeTxn (readTs : ℤ) : Watermark :=
  match w.currentReads.find? (·.1 = readTs) with
  | none => w
  | some (_, count) =>
    if count = 1 then
      let w := { w with currentReads := w.currentReads.filter (·.1 ≠ readTs) }
      if readTs = w.watermark then { w with watermark := w.firstRead.getD w.commitTs } else w
    else
      { w with currentReads := w.currentReads.map fun e => if e.1 = readTs then (e.1, e.2 - 1) else e }

def updateCommitTs (commitTs : ℤ) : Watermark :=
  { w with commitTs, watermark := if w.currentReads.isEmpty then commitTs else w.watermark }

end Watermark
end Rmdb
