import Rmdb.Storage.BufferPool
import Rmdb.Lib.Stays

/-! The LRU replacer as it lies in memory: a linked list of frames and a hash map of iterators into it.
The buffer pool's replacer is what it stands for. -/
namespace Rmdb.LruReplacer

/-- An element of `LRUlist_`. An iterator to it is its address. -/
structure Node where
  addr : ℕ
  frameId : ℤ
deriving DecidableEq, Repr

structure Linked where
  lruList : List Node
  lruHash : ℤ → Option ℕ
  nextAddr : ℕ
  maxSize : ℕ

inductive Call where
  | victim
  | pin (frameId : ℤ)
  | unpin (frameId : ℤ)
deriving DecidableEq, Repr

/-- A call that was made; of `victim` also what it found. -/
inductive Event where
  | victim (found : Option ℤ)
  | pin (frameId : ℤ)
  | unpin (frameId : ℤ)
deriving DecidableEq, Repr

def Event.call : Event → Call
  | .victim _ => .victim
  | .pin frameId => .pin frameId
  | .unpin frameId => .unpin frameId

namespace Linked

def fresh (numPages : ℕ) : Linked := ⟨[], fun _ => none, 0, numPages⟩

def victim (lru : Linked) : Option ℤ × Linked :=
  match lru.lruList.getLast? with
  | none => (none, lru)
  | some last => (some last.frameId, { lru with
      lruList := lru.lruList.dropLast
      lruHash := Function.update lru.lruHash last.frameId none })

/-- The iterator must point into the list. -/
def pin (lru : Linked) (frameId : ℤ) : Option Linked :=
  match lru.lruHash frameId with
  | none => some lru
  | some addr =>
    if addr ∈ lru.lruList.map Node.addr then
      some { lru with
        lruList := lru.lruList.filter fun node => node.addr ≠ addr
        lruHash := Function.update lru.lruHash frameId none }
    else none

def unpin (lru : Linked) (frameId : ℤ) : Linked :=
  match lru.lruHash frameId with
  | some _ => lru
  | none => { lru with
      lruList := ⟨lru.nextAddr, frameId⟩ :: lru.lruList
      lruHash := Function.update lru.lruHash frameId (some lru.nextAddr)
      nextAddr := lru.nextAddr + 1 }

def size (lru : Linked) : ℕ := lru.lruList.length

/-- One call, and `none` where its behaviour is not defined. -/
def step (lru : Linked) : Call → Option (Event × Linked)
  | .victim => some (.victim lru.victim.1, lru.victim.2)
  | .pin frameId => (lru.pin frameId).map fun lru => (.pin frameId, lru)
  | .unpin frameId => some (.unpin frameId, lru.unpin frameId)

def run (lru : Linked) : List Call → Option (List Event × Linked)
  | [] => some ([], lru)
  | call :: calls => do
    let (event, lru) ← lru.step call
    let (events, lru) ← lru.run calls
    return (event :: events, lru)

def frames (lru : Linked) : List ℤ := lru.lruList.map Node.frameId

/-- The list and the hash map hold the same frames, each once. -/
structure Consistent (lru : Linked) : Prop where
  nodup : lru.frames.Nodup
  hash_iff : ∀ frameId addr, lru.lruHash frameId = some addr ↔ ⟨addr, frameId⟩ ∈ lru.lruList
  addrs : (lru.lruList.map Node.addr).Nodup
  below : ∀ node ∈ lru.lruList, node.addr < lru.nextAddr

end Linked

/-- What begins a stay in the replacer, of a frame that is not there. -/
def Begins (frameId : ℤ) (event : Event) : Prop := event = .unpin frameId

def Ends (frameId : ℤ) (event : Event) : Prop := event = .pin frameId ∨ event = .victim (some frameId)

/-- A frame that was unpinned, and neither pinned nor evicted since. -/
abbrev Evictable (history : List Event) (frameId : ℤ) : Prop := Stays.Present Begins Ends history frameId

abbrev StayBegan (history : List Event) (frameId : ℤ) (i : ℕ) : Prop := Stays.Began Begins Ends history frameId i

/-- No frame is found if none is evictable, and else the one whose current stay began earliest. -/
structure FindsOldest (history : List Event) (found : Option ℤ) : Prop where
  none_iff : found = none ↔ ∀ frameId, ¬Evictable history frameId
  some_iff : ∀ frameId, found = some frameId ↔ ∃ i, StayBegan history frameId i ∧
    ∀ frameId' j, StayBegan history frameId' j → i ≤ j

/-- One call begins the stay of one frame. -/
theorem eq_of_began {history : List Event} {frameId frameId' : ℤ} {i : ℕ} (h : StayBegan history frameId i)
    (h' : StayBegan history frameId' i) : frameId = frameId' := by
  obtain ⟨event, hget, hbegins⟩ := h.stays.begun
  obtain ⟨event', hget', hbegins'⟩ := h'.stays.begun
  have hevent : event = event' := Option.some.inj (hget.symm.trans hget')
  exact Event.unpin.inj (hbegins.symm.trans (hevent.trans hbegins'))

namespace Linked

variable {lru lru' : Linked} {frameId : ℤ} {history : List Event}

theorem fresh_consistent (numPages : ℕ) : (fresh numPages).Consistent :=
  ⟨List.nodup_nil, fun _ _ => iff_of_false nofun List.not_mem_nil, List.nodup_nil,
    fun _ h => absurd h List.not_mem_nil⟩

namespace Consistent

section
variable (h : lru.Consistent)
include h

theorem hash_isSome_iff : (lru.lruHash frameId).isSome ↔ frameId ∈ lru.frames := by
  rw [Option.isSome_iff_exists, frames, List.mem_map]
  constructor
  · intro ⟨addr, haddr⟩
    exact ⟨⟨addr, frameId⟩, (h.hash_iff frameId addr).mp haddr, rfl⟩
  · intro ⟨node, hnode, hframe⟩
    exact ⟨node.addr, (h.hash_iff frameId node.addr).mpr (hframe ▸ hnode)⟩

theorem hash_eq_none_iff : lru.lruHash frameId = none ↔ frameId ∉ lru.frames := by
  rw [← h.hash_isSome_iff, Option.not_isSome_iff_eq_none]

/-- A node is gone, and its frame from the map. -/
theorem without (frameId : ℤ) {rest : List Node} (hrest : rest.Sublist lru.lruList)
    (hmemRest : ∀ node, node ∈ rest ↔ node ∈ lru.lruList ∧ node.frameId ≠ frameId) :
    { lru with lruList := rest, lruHash := Function.update lru.lruHash frameId none }.Consistent := by
  refine ⟨h.nodup.sublist (hrest.map _), fun frameId' addr' => ?_, h.addrs.sublist (hrest.map _),
    fun node hnode => h.below node (hrest.subset hnode)⟩
  rw [hmemRest]
  change Function.update lru.lruHash frameId none frameId' = some addr' ↔ _
  by_cases heq : frameId' = frameId
  · rw [heq, Function.update_self]
    exact iff_of_false nofun fun hnode => hnode.2 rfl
  · rw [Function.update_of_ne heq, h.hash_iff, and_iff_left heq]

theorem unpin (frameId : ℤ) : (lru.unpin frameId).Consistent ∧
    (lru.unpin frameId).frames = if frameId ∈ lru.frames then lru.frames else frameId :: lru.frames := by
  unfold Linked.unpin
  split
  · rename_i addr haddr
    have hmem : frameId ∈ lru.frames := h.hash_isSome_iff.mp (by rw [haddr]; rfl)
    exact ⟨h, (if_pos hmem).symm⟩
  · rename_i hnone
    have hnot : frameId ∉ lru.frames := h.hash_eq_none_iff.mp hnone
    refine ⟨⟨?_, ?_, ?_, ?_⟩, (if_neg hnot).symm⟩
    · exact List.nodup_cons.mpr ⟨hnot, h.nodup⟩
    · intro frameId' addr'
      rw [List.mem_cons, Node.mk.injEq]
      change Function.update lru.lruHash frameId (some lru.nextAddr) frameId' = some addr' ↔ _
      by_cases heq : frameId' = frameId
      · rw [heq, Function.update_self, Option.some.injEq]
        have hnode : ⟨addr', frameId⟩ ∉ lru.lruList := fun hmem => hnot (List.mem_map_of_mem hmem)
        rw [or_iff_left hnode, and_iff_left rfl, eq_comm]
      · rw [Function.update_of_ne heq, h.hash_iff, or_iff_right fun hboth => heq hboth.2]
    · refine List.nodup_cons.mpr ⟨fun hmem => ?_, h.addrs⟩
      obtain ⟨node, hnode, haddr⟩ := List.mem_map.mp hmem
      exact absurd haddr (Nat.ne_of_lt (h.below node hnode))
    · intro node hnode
      rcases List.mem_cons.mp hnode with rfl | hnode
      · exact Nat.lt_succ_self _
      · exact Nat.lt_succ_of_lt (h.below node hnode)

theorem eq_of_frameId {node node' : Node} (hnode : node ∈ lru.lruList)
    (hnode' : node' ∈ lru.lruList) (heq : node.frameId = node'.frameId) : node = node' :=
  List.inj_on_of_nodup_map h.nodup hnode hnode' heq

theorem eq_of_addr {node node' : Node} (hnode : node ∈ lru.lruList)
    (hnode' : node' ∈ lru.lruList) (heq : node.addr = node'.addr) : node = node' :=
  List.inj_on_of_nodup_map h.addrs hnode hnode' heq

/-- The element that the iterator points to is that of the frame. -/
theorem filter_addr {addr : ℕ} (hmem : ⟨addr, frameId⟩ ∈ lru.lruList) :
    (lru.lruList.filter fun node => node.addr ≠ addr) = lru.lruList.filter fun node => node.frameId ≠ frameId := by
  apply List.filter_congr
  intro node hnode
  have hiff : node.addr = addr ↔ node.frameId = frameId := by
    constructor
    · exact fun heq => congrArg Node.frameId (h.eq_of_addr hnode hmem heq)
    · exact fun heq => congrArg Node.addr (h.eq_of_frameId hnode hmem heq)
  rw [decide_eq_decide, ne_eq, hiff]

theorem frames_filter (frameId : ℤ) :
    (lru.lruList.filter fun node => node.frameId ≠ frameId).map Node.frameId = lru.frames.erase frameId := by
  rw [h.nodup.erase_eq_filter, frames, List.filter_map]
  congr 1
  apply List.filter_congr
  intro node _
  by_cases heq : node.frameId = frameId
  · simp [heq]
  · simp [heq]

/-- No iterator dangles, and a pinned frame is gone. -/
theorem pin (frameId : ℤ) : ∃ lru', lru.pin frameId = some lru' ∧ lru'.Consistent ∧
    lru'.frames = lru.frames.erase frameId := by
  cases hhash : lru.lruHash frameId with
  | none =>
    refine ⟨lru, ?_, h, ?_⟩
    · rw [Linked.pin, hhash]
    · exact (List.erase_of_not_mem (h.hash_eq_none_iff.mp hhash)).symm
  | some addr =>
    have hmem := (h.hash_iff frameId addr).mp hhash
    refine ⟨_, ?_, h.without frameId List.filter_sublist fun node => ?_, h.frames_filter frameId⟩
    · simp only [Linked.pin, hhash]
      rw [if_pos (List.mem_map_of_mem hmem), h.filter_addr hmem]
    · rw [List.mem_filter, decide_eq_true_iff]

/-- The last frame of the list is gone. -/
theorem victim : lru.victim.1 = lru.frames.getLast? ∧ lru.victim.2.Consistent ∧
    lru.victim.2.frames = lru.frames.dropLast := by
  have hlast : lru.frames.getLast? = lru.lruList.getLast?.map Node.frameId := List.getLast?_map
  have hdrop : lru.frames.dropLast = lru.lruList.dropLast.map Node.frameId := (List.map_dropLast ..).symm
  rw [hlast, hdrop]
  unfold Linked.victim
  cases hget : lru.lruList.getLast? with
  | none =>
    have hnil := List.getLast?_eq_none_iff.mp hget
    refine ⟨rfl, h, ?_⟩
    change lru.lruList.map Node.frameId = lru.lruList.dropLast.map Node.frameId
    rw [hnil]
    rfl
  | some last =>
    have hmem : ⟨last.addr, last.frameId⟩ ∈ lru.lruList := List.mem_of_getLast? hget
    refine ⟨rfl, h.without last.frameId (List.dropLast_sublist _) fun node => ?_, rfl⟩
    rw [mem_dropLast (List.Nodup.of_map _ h.nodup) hget, and_comm]
    apply and_congr_right
    intro hnode
    exact not_congr ⟨congrArg Node.frameId, h.eq_of_frameId hnode hmem⟩

end

end Consistent

/-- What holds after a history of calls: the list is ordered by the beginnings of the stays. -/
structure After (history : List Event) (lru : Linked) : Prop extends Consistent lru where
  byAge : Stays.ByAge Begins Ends history lru.frames

theorem fresh_after (numPages : ℕ) : (fresh numPages).After [] := ⟨fresh_consistent numPages, Stays.ByAge.nil⟩

theorem After.findsOldest (h : lru.After history) : FindsOldest history lru.victim.1 := by
  rw [h.toConsistent.victim.1]
  constructor
  · rw [List.getLast?_eq_none_iff, List.eq_nil_iff_forall_not_mem]
    exact forall_congr' fun frameId => not_congr (h.byAge.mem_iff frameId)
  · intro frameId
    constructor
    · intro hlast
      have hpresent := (h.byAge.mem_iff frameId).mp (List.mem_of_getLast? hlast)
      obtain ⟨i, hi⟩ := hpresent.exists_began
      refine ⟨i, hi, fun frameId' j hj => ?_⟩
      exact h.byAge.last_oldest (List.dropLast_append_getLast? frameId hlast).symm hi hj
    · intro ⟨i, hi, holdest⟩
      have hmem := (h.byAge.mem_iff frameId).mpr ⟨i, hi.stays⟩
      obtain ⟨last, hlast⟩ := Option.isSome_iff_exists.mp (List.getLast?_isSome.mpr (List.ne_nil_of_mem hmem))
      have hpresent := (h.byAge.mem_iff last).mp (List.mem_of_getLast? hlast)
      obtain ⟨j, hj⟩ := hpresent.exists_began
      have hle := h.byAge.last_oldest (List.dropLast_append_getLast? last hlast).symm hj hi
      obtain rfl : i = j := Nat.le_antisymm (holdest last j hj) hle
      rw [eq_of_began hi hj]
      exact hlast

/-- No call is undefined, and each leaves the list in order. -/
theorem After.step (h : lru.After history) (call : Call) : ∃ event lru', lru.step call = some (event, lru') ∧
    event.call = call ∧ lru'.After (history ++ [event]) := by
  cases call with
  | victim =>
    obtain ⟨hfound, hconsistent, hframes⟩ := h.toConsistent.victim
    refine ⟨_, _, rfl, rfl, hconsistent, ?_⟩
    rw [hframes, hfound]
    cases hlast : lru.frames.getLast? with
    | none =>
      rw [List.getLast?_eq_none_iff.mp hlast, List.dropLast_nil, ← List.getLast?_eq_none_iff.mp hlast]
      exact h.byAge.skip (fun _ hends => by simp [Ends] at hends) fun _ hbegins => by simp [Begins] at hbegins
    | some last =>
      refine h.byAge.remove (List.dropLast_sublist _) (fun _ => mem_dropLast h.nodup hlast) ?_ ?_
      · intro frameId'
        simp [Ends, eq_comm]
      · intro _ hbegins
        simp [Begins] at hbegins
  | pin frameId =>
    obtain ⟨lru', hpin, hconsistent, hframes⟩ := h.toConsistent.pin frameId
    refine ⟨.pin frameId, lru', ?_, rfl, hconsistent, ?_⟩
    · rw [Linked.step, hpin, Option.map_some]
    · rw [hframes]
      refine h.byAge.remove List.erase_sublist (fun _ => h.nodup.mem_erase_iff) ?_ ?_
      · intro frameId'
        simp [Ends, eq_comm]
      · intro _ hbegins
        simp [Begins] at hbegins
  | unpin frameId =>
    obtain ⟨hconsistent, hframes⟩ := h.toConsistent.unpin frameId
    have hends : ∀ frameId', ¬Ends frameId' (.unpin frameId) := fun _ hends => by simp [Ends] at hends
    refine ⟨.unpin frameId, lru.unpin frameId, rfl, rfl, hconsistent, ?_⟩
    rw [hframes]
    split
    · rename_i hmem
      exact h.byAge.skip hends fun frameId' hbegins => Event.unpin.inj hbegins ▸ hmem
    · rename_i hnot
      exact h.byAge.push hends hnot fun frameId' => by simp [Begins, eq_comm]

theorem After.run (h : lru.After history) (calls : List Call) : ∃ events lru', lru.run calls = some (events, lru') ∧
    events.map Event.call = calls ∧ lru'.After (history ++ events) := by
  induction calls generalizing lru history with
  | nil => exact ⟨[], lru, rfl, rfl, by rwa [List.append_nil]⟩
  | cons call calls ih =>
    obtain ⟨event, mid, hstep, hcall, hmid⟩ := h.step call
    obtain ⟨events, lru', hrun, hcalls, hafter⟩ := ih hmid
    refine ⟨event :: events, lru', ?_, ?_, ?_⟩
    · simp [Linked.run, hstep, hrun]
    · rw [List.map_cons, hcall, hcalls]
    · rwa [List.append_assoc] at hafter

/-- Whatever calls were made on a fresh replacer, the list and the map hold the same frames, each once, and
the next victim is the frame that has been evictable longest. -/
theorem run_findsOldest (numPages : ℕ) (calls : List Call) : ∃ events lru,
    (fresh numPages).run calls = some (events, lru) ∧ events.map Event.call = calls ∧ lru.frames.Nodup ∧
      (∀ frameId, (lru.lruHash frameId).isSome ↔ frameId ∈ lru.frames) ∧ FindsOldest events lru.victim.1 := by
  obtain ⟨events, lru, hrun, hcalls, hafter⟩ := (fresh_after numPages).run calls
  exact ⟨events, lru, hrun, hcalls, hafter.nodup, fun _ => hafter.toConsistent.hash_isSome_iff, hafter.findsOldest⟩

end Linked

variable {n : ℕ} {lru : LruReplacer n} {linked : Linked}

def frameId (f : Fin n) : ℤ := f.val

theorem frameId_injective : Function.Injective (frameId (n := n)) :=
  fun _ _ h => Fin.ext (Int.ofNat_inj.mp h)

/-- The list and the map in memory stand for the buffer pool's replacer. -/
structure Refines (lru : LruReplacer n) (linked : Linked) : Prop where
  consistent : linked.Consistent
  frames : linked.frames = lru.lruList.map frameId

namespace Refines

theorem victim (h : Refines lru linked) : linked.victim.1 = lru.victim.map (fun found => frameId found.1) ∧
    ∀ f lru', lru.victim = some (f, lru') → Refines lru' linked.victim.2 := by
  obtain ⟨hfound, hconsistent, hframes⟩ := h.consistent.victim
  constructor
  · rw [hfound, h.frames, List.getLast?_map, LruReplacer.victim, Option.map_map]
    rfl
  · intro f lru' hvictim
    obtain ⟨last, hlast, heq⟩ := Option.map_eq_some_iff.mp hvictim
    obtain ⟨rfl, rfl⟩ := Prod.mk.inj heq
    refine ⟨hconsistent, ?_⟩
    rw [hframes, h.frames, ← List.map_dropLast]

theorem pin (h : Refines lru linked) (f : Fin n) : ∃ linked', linked.pin (frameId f) = some linked' ∧
    Refines (lru.pin f) linked' := by
  obtain ⟨linked', hpin, hconsistent, hframes⟩ := h.consistent.pin (frameId f)
  refine ⟨linked', hpin, hconsistent, ?_⟩
  rw [hframes, h.frames]
  exact (List.map_erase frameId_injective lru.lruList).symm

theorem unpin (h : Refines lru linked) (f : Fin n) : Refines (lru.unpin f) (linked.unpin (frameId f)) := by
  obtain ⟨hconsistent, hframes⟩ := h.consistent.unpin (frameId f)
  have hmem : frameId f ∈ lru.lruList.map frameId ↔ f ∈ lru.lruList := List.mem_map_of_injective frameId_injective
  refine ⟨hconsistent, ?_⟩
  rw [hframes, h.frames, LruReplacer.unpin]
  by_cases hin : f ∈ lru.lruList
  · rw [if_pos (hmem.mpr hin), dif_pos hin]
  · rw [if_neg fun h => hin (hmem.mp h), dif_neg hin]
    rfl

end Refines
end Rmdb.LruReplacer
