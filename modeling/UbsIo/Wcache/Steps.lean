import UbsIo.Wcache.Model

/-! # The steps of the write cache

    `Trans` lists what a step can do.  A thread that only goes on `Moves`: it
    keeps the slice that it has taken, the reference that it holds and the call
    that it is in. -/

namespace UbsIo.Wcache

open UbsIo.Lib

variable {ι κ β : Type}

/-! ## What a thread has -/

/-- How a thread has a slice that is in no queue. -/
inductive Own where
  -- a `Put` that has not written the slice yet, or has
  | write | put
  -- an eviction from a tier, until the record is written
  | evict (tier : Tier)
  | leave (tier : Tier)
  -- the callback of the eviction
  | call (tier : Tier)
deriving DecidableEq, Repr

def Phase.owns : Phase κ β → Option (Own × Slot)
  | .write p => some (.write, p.slot)
  | .negotiate p => some (.put, p.slot)
  | .lock tier _ s => some (.evict tier, s)
  | .copy _ s => some (.evict .memory, s)
  | .underFs _ s => some (.evict .disk, s)
  | .mark _ s => some (.evict .disk, s)
  | .setSlice c _ s => some (.leave c.tier, s)
  | .unlock tier _ s false => some (.evict tier, s)
  | .requeue tier _ s => some (.evict tier, s)
  | .cursor c _ s => some (.call c.tier, s)
  | .truncate c _ s _ => some (.call c.tier, s)
  | .finish c _ s => some (.call c.tier, s)
  | _ => none

def Job.put : Job κ β → Option (PutArgs κ β)
  | .front p => some p
  | .background _ => none

def Ret.put : Ret κ β → Option (PutArgs κ β)
  | .evict _ j => j.put
  | _ => none

/-- The `Put` that the thread is in. -/
def Phase.put : Phase κ β → Option (PutArgs κ β)
  | .write p => some p
  | .negotiate p => some p
  | .frontMemory p => some p
  | .frontDisk p => some p
  | .insert p => some p
  | .lock _ j _ => j.put
  | .copy j _ => j.put
  | .underFs j _ => j.put
  | .mark j _ => j.put
  | .setSlice _ j _ => j.put
  | .unlock _ j _ _ => j.put
  | .requeue _ j _ => j.put
  | .cursor _ r _ => r.put
  | .truncate _ r _ _ => r.put
  | .finish _ r _ => r.put
  | .back r _ => r.put
  | .release r _ => r.put
  | _ => none

/-- The slice that the thread holds a reference of. -/
def Phase.reads : Phase κ β → Option Slot
  | .read _ s => some s
  | .release _ s => some s
  | .opLock _ s _ => some s
  | .deleteMark _ s _ => some s
  | .deleteIndex _ s _ => some s
  | .setState _ s _ => some s
  | .deleteUnlock _ s _ _ => some s
  | _ => none

def Ret.delete? : Ret κ β → Option (κ × Option Nat)
  | .delete key stamp _ => some (key, stamp)
  | _ => none

def Ret.erased? : Ret κ β → Option (κ × Option Nat)
  | .delete key stamp true => some (key, stamp)
  | _ => none

/-- The `Delete` that the thread is in. -/
def Phase.delete? : Phase κ β → Option (κ × Option Nat)
  | .opLock key _ stamp => some (key, stamp)
  | .deleteMark key _ stamp => some (key, stamp)
  | .deleteIndex key _ stamp => some (key, stamp)
  | .setState key _ stamp => some (key, stamp)
  | .deleteUnlock key _ stamp _ => some (key, stamp)
  | .release r _ => r.delete?
  | .cursor _ r _ => r.delete?
  | .truncate _ r _ _ => r.delete?
  | .finish _ r _ => r.delete?
  | .back r _ => r.delete?
  | _ => none

/-- The `Delete` of the thread, when it has taken the key off the index. -/
def Phase.erased? : Phase κ β → Option (κ × Option Nat)
  | .setState key _ stamp => some (key, stamp)
  | .deleteUnlock key _ stamp true => some (key, stamp)
  | .release r _ => r.erased?
  | .cursor _ r _ => r.erased?
  | .truncate _ r _ _ => r.erased?
  | .finish _ r _ => r.erased?
  | .back r _ => r.erased?
  | _ => none

/-- The `Delete` of the thread, when it has marked the record. -/
def Phase.marked? : Phase κ β → Option (κ × Option Nat)
  | .deleteIndex key _ stamp => some (key, stamp)
  | p => p.erased?

/-- The task that the thread runs: its tier, its flow and the offset that it
    has been answered. -/
def Job.task (tier : Tier) (s : Slot) :
    Job κ β → Option (Tier × Nat × Option Nat)
  | .front _ => none
  | .background glob => some (tier, s.flowId, glob)

def Ret.task (s : Slot) : Ret κ β → Option (Tier × Nat × Option Nat)
  | .evict tier j => j.task tier s
  | _ => none

def Phase.task : Phase κ β → Option (Tier × Nat × Option Nat)
  | .evictAll tier flowId glob => some (tier, flowId, glob)
  | .lock tier j s => j.task tier s
  | .copy j s => j.task .memory s
  | .underFs j s => j.task .disk s
  | .mark j s => j.task .disk s
  | .setSlice c j s => j.task c.tier s
  | .unlock tier j s _ => j.task tier s
  | .requeue tier j s => j.task tier s
  | .cursor _ r s => r.task s
  | .truncate _ r s _ => r.task s
  | .finish _ r s => r.task s
  | .back r s => r.task s
  | .release r s => r.task s
  | _ => none

/-- The slice that the thread has put into UnderFs, or need not. -/
def Phase.passed : Phase κ β → Option Slot
  | .mark _ s => some s
  | .setSlice (.toUnderFs _) _ s => some s
  | _ => none

/-- The slice that the thread is about to give up for good. -/
def Phase.releases : Phase κ β → Option Slot
  | .lock .disk _ s => some s
  | .underFs _ s => some s
  | .mark _ s => some s
  | .setSlice (.toUnderFs _) _ s => some s
  | _ => none

/-- The slice up to which the thread is about to truncate the disk tier. -/
def Phase.truncates : Phase κ β → Option (Nat × Nat)
  | .truncate (.toUnderFs _) _ s index => some (s.flowId, index)
  | _ => none

/-- The thread is in a call. -/
def Phase.calls : Phase κ β → Bool
  | p => p.put.isSome || p.reads.isSome || p.delete?.isSome ||
      match p with
      | .cursor _ .get _ => true
      | .truncate _ .get _ _ => true
      | .finish _ .get _ => true
      | .back .get _ => true
      | _ => false

/-- The thread goes on with what it has. -/
structure Moves (p q : Phase κ β) : Prop where
  owns : q.owns = p.owns
  put : q.put = p.put
  reads : q.reads = p.reads
  delete : q.delete? = none ∨ q.delete? = p.delete?
  marked : q.marked? = none ∨ q.marked? = p.marked?
  erased : q.erased? = none ∨ q.erased? = p.erased?
  calls : q.calls = true → p.calls = true
  task : q.task = none ∨ q.task = p.task
  passed : q.passed = none
  releases : q.releases = none ∨ q.releases = p.releases
  truncates : q.truncates = none

variable [DecidableEq ι] [DecidableEq κ]

/-! ## What a step can do -/

inductive Trans (L : Layout) (isMaster : Bool) (n : Node ι κ β) :
    Event ι κ β → Node ι κ β → Prop where
  | putCall (t : ι) (p : PutArgs κ β) (h : n.threads t = .idle)
      (hnew : p.slot ∉ n.used) :
      Trans L isMaster n (.put t p) (Node.goto
        { n with
          used := n.used ++ [p.slot]
          history := n.history.call t p.key }
        t (.write p))
  | missed (t : ι) (e : Event ι κ β) (h : n.threads t = .idle)
      (he : ∃ key, (e = .get t key ∨ e = .delete t key) ∧
        n.aquire key = none) :
      Trans L isMaster n e n
  | got (t : ι) (key : κ) (s : Slot) (r : SliceRef κ)
      (h : n.threads t = .idle) (hr : n.aquire key = some (s, r)) :
      Trans L isMaster n (.get t key) ((n.setRef s r).goto t (.read key s))
  | deleteCall (t : ι) (key : κ) (s : Slot) (r : SliceRef κ)
      (h : n.threads t = .idle) (hr : n.aquire key = some (s, r)) :
      Trans L isMaster n (.delete t key) ((n.setRef s r).goto t
        (.opLock key s (n.history.stamp key)))
  | started (t : ι) (tier : Tier) (flowId : Nat)
      (globEvictOffset : Option Nat) (h : n.threads t = .idle) :
      Trans L isMaster n (.evictAll t tier flowId globEvictOffset)
        (n.goto t (.evictAll tier flowId globEvictOffset))
  | moves (t : ι) (e : Event ι κ β) (q : Phase κ β)
      (he : e = .go t ∨ e = .fail t) (h : Moves (n.threads t) q) :
      Trans L isMaster n e (n.goto t q)
  | wrote (t : ι) (p : PutArgs κ β) (h : n.threads t = .write p) :
      Trans L isMaster n (.go t) ((((n.setRecord .memory p.slot
        ⟨p.key, L.offset p.slot, L.length p.slot, p.slot.flowId,
          false⟩).setContent .memory p.slot p.value).setRef p.slot
        ⟨some .memory, none, 0, false, true⟩).goto t (.negotiate p))
  | negotiating (t : ι) (p : PutArgs κ β) (q : Phase κ β)
      (h : n.threads t = .negotiate p)
      (hq : q = .insert p ∨ q = .frontMemory p) :
      Trans L isMaster n (.go t) (Node.goto
        { n with evictNegotiateMap := n.evictNegotiateMap ++ [p.slot] } t q)
  | popped (t : ι) (tier : Tier) (flowId : Nat) (s : Slot) (rest : List Slot)
      (q : Phase κ β) (hp : (n.threads t).owns = none)
      (hreads : (n.threads t).reads = none)
      (hdelete : (n.threads t).delete? = none)
      (hqueue : n.evictSliceQueue tier flowId = s :: rest)
      (hq : q.owns = some (.evict tier, s)) (hput : q.put = (n.threads t).put)
      (hreads' : q.reads = none) (hdelete' : q.delete? = none)
      (hmarked : q.marked? = none) (herased : q.erased? = none)
      (hcalls : q.calls = (n.threads t).calls) (hpassed : q.passed = none)
      (htask : (n.threads t).task = none ∧ q.task = none ∨
        ∃ glob, (n.threads t).task = some (tier, flowId, glob) ∧
          q.task = some (tier, s.flowId, glob))
      (hreleases : q.releases = none ∨ q.releases = some s ∧
        tier = .disk ∧
        ((∃ p, n.threads t = .frontDisk p ∧ p.slot.flowId = flowId) ∨
          ∃ glob, n.threads t = .evictAll .disk flowId glob ∧
            isBehind L s glob = false)) :
      Trans L isMaster n (.go t) ((n.setQueue tier flowId rest).goto t q)
  | dropped (t : ι) (flowId : Nat) (s : Slot) (rest : List Slot)
      (r : SliceRef κ) (glob : Option Nat)
      (h : n.threads t = .evictAll .disk flowId glob)
      (hqueue : n.evictSliceQueue .disk flowId = s :: rest)
      (hr : n.refs s = some r) (hslice : r.slice = none) :
      Trans L isMaster n (.go t) ((n.setQueue .disk flowId rest).goto t .idle)
  | locked (t : ι) (tier : Tier) (j : Job κ β) (s : Slot) (r : SliceRef κ)
      (h : n.threads t = .lock tier j s) (hr : n.refs s = some r) :
      Trans L isMaster n (.go t)
        ((n.setRef s { r with opLock := true }).goto t (evictFrom tier j s))
  | copied (t : ι) (j : Job κ β) (s : Slot) (r : SliceRef κ) (m : SliceMeta κ)
      (b : β) (h : n.threads t = .copy j s) (hr : n.refs s = some r)
      (hslice : r.slice ≠ none) (hm : n.getMeta .memory s = some m)
      (hb : n.getData .memory s = some b) :
      Trans L isMaster n (.go t)
        (((n.setContent .disk s b).setRecord .disk s m).goto t
          (.setSlice .toDisk j s))
  | flushed (t : ι) (j : Job κ β) (s : Slot) (r : SliceRef κ)
      (h : n.threads t = .underFs j s) (hr : n.refs s = some r)
      (hvalid : r.valid = true) (hmaster : isMaster = true) :
      Trans L isMaster n (.go t)
        (Node.goto { n with flushed := n.flushed ++ [s] } t (.mark j s))
  | passed (t : ι) (j : Job κ β) (s : Slot) (r : SliceRef κ)
      (h : n.threads t = .underFs j s) (hr : n.refs s = some r)
      (hnot : r.valid = false ∨ isMaster = false) :
      Trans L isMaster n (.go t) (n.goto t (.mark j s))
  | marked (t : ι) (j : Job κ β) (s : Slot) (m : SliceMeta κ)
      (h : n.threads t = .mark j s) (hm : n.getMeta .disk s = some m) :
      Trans L isMaster n (.go t)
        ((n.setRecord .disk s { m with hasEvict := true }).goto t
          (.setSlice (.toUnderFs m.key) j s))
  | markFailed (t : ι) (e : Event ι κ β) (j : Job κ β) (s : Slot)
      (he : e = .go t ∨ e = .fail t) (h : n.threads t = .mark j s) :
      Trans L isMaster n e (n.goto t (.unlock .disk j s false))
  | replaced (t : ι) (c : Callback κ) (j : Job κ β) (s : Slot)
      (r : SliceRef κ) (h : n.threads t = .setSlice c j s)
      (hr : n.refs s = some r) (href : r.ref = 0) :
      Trans L isMaster n (.go t)
        ((n.setRef s { r with slice := c.newSlice }).goto t
          (.cursor c (.evict c.tier j) s))
  | deferred (t : ι) (c : Callback κ) (j : Job κ β) (s : Slot)
      (r : SliceRef κ) (h : n.threads t = .setSlice c j s)
      (hr : n.refs s = some r) (href : r.ref ≠ 0) :
      Trans L isMaster n (.go t)
        ((n.setRef s { r with setSliceCallback := some c }).goto t
          (.unlock c.tier j s true))
  | unlocked (t : ι) (tier : Tier) (j : Job κ β) (s : Slot) (ok : Bool)
      (r : SliceRef κ) (h : n.threads t = .unlock tier j s ok)
      (hr : n.refs s = some r) :
      Trans L isMaster n (.go t)
        ((n.setRef s { r with opLock := false }).goto t
          (if ok then afterEvict tier s j else .requeue tier j s))
  | requeued (t : ι) (tier : Tier) (glob : Option Nat) (s : Slot)
      (h : n.threads t = .requeue tier (.background glob) s) :
      Trans L isMaster n (.go t)
        ((n.setQueue tier s.flowId
          (s :: n.evictSliceQueue tier s.flowId)).goto t .idle)
  | putRequeued (t : ι) (tier : Tier) (p : PutArgs κ β) (s : Slot)
      (h : n.threads t = .requeue tier (.front p) s) :
      Trans L isMaster n (.go t)
        ((n.setQueue tier s.flowId
          (s :: n.evictSliceQueue tier s.flowId)).putFailed t p)
  | cursor (t : ι) (c : Callback κ) (r : Ret κ β) (s : Slot) (q : Phase κ β)
      (h : n.threads t = .cursor c r s)
      (hq : q = .finish c r s ∨ q = .truncate c r s
        (advance (n.preTruncateSliceIndex c.tier s.flowId)
          ((n.evictedSlices c.tier s.flowId).orderedInsert (· ≤ ·)
            s.indexInFlow)).1) :
      Trans L isMaster n (.go t) (Node.goto
        { n with
          evictedSlices := Function.update n.evictedSlices c.tier
            (Function.update (n.evictedSlices c.tier) s.flowId
              (advance (n.preTruncateSliceIndex c.tier s.flowId)
                ((n.evictedSlices c.tier s.flowId).orderedInsert (· ≤ ·)
                  s.indexInFlow)).2)
          preTruncateSliceIndex :=
            Function.update n.preTruncateSliceIndex c.tier
              (Function.update (n.preTruncateSliceIndex c.tier) s.flowId
                (advance (n.preTruncateSliceIndex c.tier s.flowId)
                  ((n.evictedSlices c.tier s.flowId).orderedInsert (· ≤ ·)
                    s.indexInFlow)).1) }
        t q)
  | truncated (t : ι) (c : Callback κ) (r : Ret κ β) (s : Slot) (index : Nat)
      (h : n.threads t = .truncate c r s index) :
      Trans L isMaster n (.go t)
        ((n.truncate c.tier s.flowId index).goto t (.finish c r s))
  | enqueued (t : ι) (r : Ret κ β) (s : Slot)
      (h : n.threads t = .finish .toDisk r s) :
      Trans L isMaster n (.go t)
        ((n.setQueue .disk s.flowId
          (n.evictSliceQueue .disk s.flowId ++ [s])).goto t (.back r s))
  | ended (t : ι) (e : Event ι κ β) (key : κ) (r : Ret κ β) (s : Slot)
      (he : e = .go t ∨ e = .fail t)
      (h : n.threads t = .finish (.toUnderFs key) r s ∨
        ∃ i, n.threads t = .truncate (.toUnderFs key) r s i) :
      Trans L isMaster n e (n.goto t (.back r s))
  | unindexed (t : ι) (key : κ) (r : Ret κ β) (s : Slot) (ref : SliceRef κ)
      (h : n.threads t = .finish (.toUnderFs key) r s)
      (hr : n.refs s = some ref) (hvalid : ref.valid = true)
      (hindex : n.index key = some s) :
      Trans L isMaster n (.go t) (Node.goto
        { n with index := Function.update n.index key none } t (.back r s))
  | deleted (t : ι) (key : κ) (stamp : Option Nat) (s : Slot)
      (h : n.threads t = .back (.delete key stamp true) s) :
      Trans L isMaster n (.go t) (Node.goto
        { n with history := n.history.delete key stamp } t .idle)
  | released (t : ι) (r : Ret κ β) (s : Slot) (ref : SliceRef κ)
      (h : n.threads t = .release r s) (hr : n.refs s = some ref)
      (hkeep : ref.setSliceCallback = none ∨ ref.ref - 1 ≠ 0) :
      Trans L isMaster n (.go t)
        ((n.setRef s { ref with ref := ref.ref - 1 }).goto t (.back r s))
  | switched (t : ι) (c : Callback κ) (r : Ret κ β) (s : Slot)
      (ref : SliceRef κ) (h : n.threads t = .release r s)
      (hr : n.refs s = some ref) (hc : ref.setSliceCallback = some c)
      (hlast : ref.ref - 1 = 0) :
      Trans L isMaster n (.go t)
        ((n.setRef s
          { ref with
            ref := 0
            slice := c.newSlice
            setSliceCallback := none }).goto t (.cursor c r s))
  | opLocked (t : ι) (key : κ) (s : Slot) (stamp : Option Nat)
      (r : SliceRef κ) (h : n.threads t = .opLock key s stamp)
      (hr : n.refs s = some r) :
      Trans L isMaster n (.go t)
        ((n.setRef s { r with opLock := true }).goto t
          (.deleteMark key s stamp))
  | deleteMarked (t : ι) (key : κ) (s : Slot) (stamp : Option Nat)
      (r : SliceRef κ) (tier : Tier) (m : SliceMeta κ)
      (h : n.threads t = .deleteMark key s stamp) (hr : n.refs s = some r)
      (hslice : r.slice = some tier) (hm : n.getMeta tier s = some m) :
      Trans L isMaster n (.go t)
        ((n.setRecord tier s { m with hasEvict := true }).goto t
          (.deleteIndex key s stamp))
  | deletePassed (t : ι) (key : κ) (s : Slot) (stamp : Option Nat)
      (r : SliceRef κ) (h : n.threads t = .deleteMark key s stamp)
      (hr : n.refs s = some r) (hslice : r.slice = none) :
      Trans L isMaster n (.go t) (n.goto t (.deleteIndex key s stamp))
  | deleteErased (t : ι) (key : κ) (s : Slot) (stamp : Option Nat)
      (h : n.threads t = .deleteIndex key s stamp)
      (hindex : n.index key = some s) :
      Trans L isMaster n (.go t) (Node.goto
        { n with index := Function.update n.index key none } t
        (.setState key s stamp))
  | deleteExpired (t : ι) (key : κ) (s s' : Slot) (stamp : Option Nat)
      (h : n.threads t = .deleteIndex key s stamp)
      (hindex : n.index key = some s') (hne : s' ≠ s) :
      Trans L isMaster n (.go t) (n.goto t (.setState key s stamp))
  | invalidated (t : ι) (key : κ) (s : Slot) (stamp : Option Nat)
      (r : SliceRef κ) (h : n.threads t = .setState key s stamp)
      (hr : n.refs s = some r) :
      Trans L isMaster n (.go t)
        ((n.setRef s { r with valid := false }).goto t
          (.deleteUnlock key s stamp true))
  | deleteUnlocked (t : ι) (key : κ) (s : Slot) (stamp : Option Nat)
      (ok : Bool) (r : SliceRef κ)
      (h : n.threads t = .deleteUnlock key s stamp ok)
      (hr : n.refs s = some r) :
      Trans L isMaster n (.go t)
        ((n.setRef s { r with opLock := false }).goto t
          (.release (.delete key stamp ok) s))
  | inserted (t : ι) (p : PutArgs κ β) (h : n.threads t = .insert p) :
      Trans L isMaster n (.go t) (Node.goto
        { n with
          index := Function.update n.index p.key
            (some ((n.index p.key).getD p.slot))
          history := n.history.done t p.key p.slot p.value }
        t .idle)
  | putFailed (t : ι) (p : PutArgs κ β)
      (h : n.threads t = .write p ∨ n.threads t = .insert p) :
      Trans L isMaster n (.fail t) (n.putFailed t p)
  | negotiated (s : Slot) (h : s ∈ n.evictNegotiateMap) :
      Trans L isMaster n (.negotiated s)
        (({ n with
          evictNegotiateMap :=
            n.evictNegotiateMap.filter fun s' => decide (s' ≠ s) } :
            Node ι κ β).setQueue .memory s.flowId
              (n.evictSliceQueue .memory s.flowId ++ [s]))
  | elsewhere (s : Slot) :
      Trans L isMaster n (.flushed s) { n with flushed := n.flushed ++ [s] }

variable {L : Layout} {isMaster : Bool} {n n' : Node ι κ β} {t : ι}

theorem Trans.of_moves {q : Phase κ β} (p : Phase κ β) {e : Event ι κ β}
    (he : e = .go t ∨ e = .fail t) (hp : n.threads t = p) (h : Moves p q) :
    Trans L isMaster n e (n.goto t q) :=
  .moves t e q he (by rw [hp]; exact h)

/-- A section, phase by phase. -/
theorem trans_of_resume :
    ∀ p : Phase κ β, n.threads t = p → resume L isMaster n t p = some n' →
      Trans L isMaster n (.go t) n' := by
  intro p hp h
  cases p with
  | idle => exact nomatch h
  | write p =>
      cases h
      exact .wrote t p hp
  | negotiate p =>
      cases h
      refine .negotiating t p _ hp ?_
      by_cases hs : p.strategy = .memBack
      · exact .inl (if_pos hs)
      · exact .inr (if_neg hs)
  | frontMemory p =>
      simp only [resume] at h
      split at h
      · cases h
        refine .of_moves _ (.inl rfl) hp ?_
        by_cases hs : p.strategy = .diskBack
        · rw [if_pos hs]
          exact ⟨rfl, rfl, rfl, .inr rfl, .inr rfl, .inr rfl, fun _ => rfl,
            .inl rfl, rfl, .inl rfl, rfl⟩
        · rw [if_neg hs]
          exact ⟨rfl, rfl, rfl, .inr rfl, .inr rfl, .inr rfl, fun _ => rfl,
            .inl rfl, rfl, .inl rfl, rfl⟩
      next s rest hq =>
        cases h
        refine .popped t .memory p.slot.flowId s rest _ ?_ ?_ ?_ hq rfl ?_
          rfl rfl rfl rfl ?_ rfl (.inl ⟨?_, rfl⟩) (.inl rfl)
        all_goals rw [hp]; rfl
  | frontDisk p =>
      simp only [resume] at h
      split at h
      · cases h
        exact .of_moves _ (.inl rfl) hp
          ⟨rfl, rfl, rfl, .inr rfl, .inr rfl, .inr rfl, fun _ => rfl,
            .inl rfl, rfl, .inl rfl, rfl⟩
      next s rest hq =>
        cases h
        refine .popped t .disk p.slot.flowId s rest _ ?_ ?_ ?_ hq rfl ?_
          rfl rfl rfl rfl ?_ rfl (.inl ⟨?_, rfl⟩)
          (.inr ⟨rfl, rfl, .inl ⟨p, hp, rfl⟩⟩)
        all_goals rw [hp]; rfl
  | insert p =>
      cases h
      exact .inserted t p hp
  | evictAll tier flowId glob =>
      simp only [resume] at h
      split at h
      · cases h
        exact .of_moves _ (.inl rfl) hp
          ⟨rfl, rfl, rfl, .inr rfl, .inr rfl, .inr rfl, nofun,
            .inl rfl, rfl, .inl rfl, rfl⟩
      next s rest hq =>
        have hpop (q : Phase κ β) (hq' : q.owns = some (.evict tier, s))
            (hput : q.put = none) (hreads : q.reads = none)
            (hdelete : q.delete? = none) (hmarked : q.marked? = none)
            (herased : q.erased? = none) (hcalls : q.calls = false)
            (hpassed : q.passed = none)
            (htask : q.task = some (tier, s.flowId, glob))
            (hreleases : q.releases = none ∨ q.releases = some s ∧
              tier = .disk ∧ isBehind L s glob = false) :
            Trans L isMaster n (.go t)
              ((n.setQueue tier flowId rest).goto t q) := by
          refine .popped t tier flowId s rest q ?_ ?_ ?_ hq hq' ?_ hreads
            hdelete hmarked herased ?_ hpassed (.inr ⟨glob, ?_, htask⟩) ?_
          case refine_7 =>
            rcases hreleases with h' | ⟨h', rfl, hb⟩
            · exact .inl h'
            · exact .inr ⟨h', rfl, .inr ⟨glob, hp, hb⟩⟩
          all_goals rw [hp]; first | rfl | assumption
        cases tier with
        | memory =>
            cases h
            exact hpop _ rfl rfl rfl rfl rfl rfl rfl rfl rfl (.inl rfl)
        | disk =>
            cases hr : n.refs s with
            | none =>
                rw [show (n.setQueue .disk flowId rest).refs s = none
                  from hr] at h
                exact nomatch h
            | some r =>
                rw [show (n.setQueue .disk flowId rest).refs s = some r
                  from hr] at h
                by_cases hslice : r.slice = none
                · simp only [if_pos hslice] at h
                  cases h
                  exact .dropped t flowId s rest r glob hp hq hr hslice
                · simp only [if_neg hslice] at h
                  split at h
                  · cases h
                    exact hpop _ rfl rfl rfl rfl rfl rfl rfl rfl rfl (.inl rfl)
                  next hb =>
                    cases h
                    exact hpop _ rfl rfl rfl rfl rfl rfl rfl rfl rfl
                      (.inr ⟨rfl, rfl, Bool.eq_false_iff.mpr hb⟩)
  | lock tier j s =>
      simp only [resume] at h
      split at h
      · exact nomatch h
      next r hr =>
        split at h
        · cases h
          exact .of_moves _ (.inl rfl) hp
            ⟨rfl, rfl, rfl, .inl rfl, .inl rfl, .inl rfl, id,
            .inr rfl, rfl, .inl rfl, rfl⟩
        · cases h
          exact .locked t tier j s r hp hr
  | copy j s =>
      have hfail : Trans L isMaster n (.go t)
          (n.goto t (.unlock .memory j s false)) :=
        .of_moves _ (.inl rfl) hp
          ⟨rfl, rfl, rfl, .inl rfl, .inl rfl, .inl rfl, id,
            .inr rfl, rfl, .inl rfl, rfl⟩
      simp only [resume] at h
      split at h
      next r m b hr hm hb =>
        split at h
        · cases h
          exact hfail
        next hslice =>
          cases h
          exact .copied t j s r m b hp hr hslice hm hb
      · cases h
        exact hfail
  | underFs j s =>
      have hfail : Trans L isMaster n (.go t)
          (n.goto t (.unlock .disk j s false)) :=
        .of_moves _ (.inl rfl) hp
          ⟨rfl, rfl, rfl, .inl rfl, .inl rfl, .inl rfl, id,
            .inr rfl, rfl, .inl rfl, rfl⟩
      simp only [resume] at h
      split at h
      next r m hr hm =>
        split at h
        · cases h
          exact hfail
        · split at h
          next hv =>
            cases h
            obtain ⟨hvalid, hmaster⟩ := Bool.and_eq_true_iff.mp hv
            exact .flushed t j s r hp hr hvalid hmaster
          next hv =>
            cases h
            refine .passed t j s r hp hr ?_
            rcases Bool.eq_false_or_eq_true r.valid with hvalid | hvalid
            · refine .inr (Bool.eq_false_iff.mpr fun hmaster => hv ?_)
              rw [hvalid, hmaster]
              rfl
            · exact .inl hvalid
      · cases h
        exact hfail
  | mark j s =>
      simp only [resume] at h
      split at h
      next m hm =>
        cases h
        exact .marked t j s m hp hm
      · cases h
        exact .markFailed t _ j s (.inl rfl) hp
  | setSlice c j s =>
      simp only [resume] at h
      split at h
      · exact nomatch h
      next r hr =>
        split at h
        next href =>
          cases h
          exact .replaced t c j s r hp hr href
        next href =>
          cases h
          exact .deferred t c j s r hp hr href
  | unlock tier j s ok =>
      simp only [resume] at h
      split at h
      · exact nomatch h
      next r hr =>
        cases h
        exact .unlocked t tier j s ok r hp hr
  | requeue tier j s =>
      cases j with
      | front p =>
          cases h
          exact .putRequeued t tier p s hp
      | background glob =>
          cases h
          exact .requeued t tier glob s hp
  | cursor c r s =>
      simp only [resume] at h
      split at h
      · cases h
        exact .cursor t c r s _ hp (.inl rfl)
      · cases h
        exact .cursor t c r s _ hp (.inr rfl)
  | truncate c r s index =>
      cases h
      exact .truncated t c r s index hp
  | finish c r s =>
      cases c with
      | toDisk =>
          cases h
          exact .enqueued t r s hp
      | toUnderFs key =>
          simp only [resume] at h
          split at h
          · exact nomatch h
          next ref hr =>
            split at h
            next hv =>
              cases h
              exact .unindexed t key r s ref hp hr hv.1 hv.2
            · cases h
              exact .ended t _ key r s (.inl rfl) (.inl hp)
  | back r s =>
      cases r with
      | evict tier j =>
          cases h
          exact .of_moves _ (.inl rfl) hp
            ⟨rfl, rfl, rfl, .inl rfl, .inl rfl, .inl rfl, id,
            .inr rfl, rfl, .inl rfl, rfl⟩
      | get =>
          cases h
          exact .of_moves _ (.inl rfl) hp
            ⟨rfl, rfl, rfl, .inl rfl, .inl rfl, .inl rfl, nofun,
            .inr rfl, rfl, .inl rfl, rfl⟩
      | delete key stamp ok =>
          cases ok with
          | true =>
              cases h
              exact .deleted t key stamp s hp
          | false =>
              cases h
              exact .of_moves _ (.inl rfl) hp
                ⟨rfl, rfl, rfl, .inl rfl, .inl rfl, .inl rfl, nofun,
            .inr rfl, rfl, .inl rfl, rfl⟩
  | read key s =>
      cases h
      exact .of_moves _ (.inl rfl) hp
        ⟨rfl, rfl, rfl, .inl rfl, .inl rfl, .inl rfl, id,
            .inr rfl, rfl, .inl rfl, rfl⟩
  | release r s =>
      simp only [resume] at h
      split at h
      · exact nomatch h
      next ref hr =>
        split at h
        next c hc =>
          split at h
          next hlast =>
            cases h
            exact .switched t c r s ref hp hr hc hlast
          next hlast =>
            cases h
            exact .released t r s ref hp hr (.inr hlast)
        next hc =>
          cases h
          exact .released t r s ref hp hr (.inl hc)
  | opLock key s stamp =>
      simp only [resume] at h
      split at h
      · exact nomatch h
      next r hr =>
        split at h
        · cases h
          exact .of_moves _ (.inl rfl) hp
            ⟨rfl, rfl, rfl, .inr rfl, .inl rfl, .inl rfl, id,
            .inr rfl, rfl, .inl rfl, rfl⟩
        · cases h
          exact .opLocked t key s stamp r hp hr
  | deleteMark key s stamp =>
      simp only [resume] at h
      split at h
      · exact nomatch h
      next r hr =>
        split at h
        next hslice =>
          cases h
          exact .deletePassed t key s stamp r hp hr hslice
        next tier hslice =>
          split at h
          · cases h
            exact .of_moves _ (.inl rfl) hp
              ⟨rfl, rfl, rfl, .inr rfl, .inl rfl, .inl rfl, id,
            .inr rfl, rfl, .inl rfl, rfl⟩
          next m hm =>
            cases h
            exact .deleteMarked t key s stamp r tier m hp hr hslice hm
  | deleteIndex key s stamp =>
      simp only [resume] at h
      split at h
      · cases h
        exact .of_moves _ (.inl rfl) hp
          ⟨rfl, rfl, rfl, .inr rfl, .inl rfl, .inl rfl, id,
            .inr rfl, rfl, .inl rfl, rfl⟩
      next s' hindex =>
        split at h
        next heq =>
          cases h
          exact .deleteErased t key s stamp hp (heq ▸ hindex)
        next hne =>
          cases h
          exact .deleteExpired t key s s' stamp hp hindex hne
  | setState key s stamp =>
      simp only [resume] at h
      split at h
      · exact nomatch h
      next r hr =>
        cases h
        exact .invalidated t key s stamp r hp hr
  | deleteUnlock key s stamp ok =>
      simp only [resume] at h
      split at h
      · exact nomatch h
      next r hr =>
        cases h
        exact .deleteUnlocked t key s stamp ok r hp hr

/-- A section that fails. -/
theorem trans_of_interrupt :
    ∀ p : Phase κ β, n.threads t = p → interrupt n t p = some n' →
      Trans L isMaster n (.fail t) n' := by
  intro p hp h
  cases p with
  | write p =>
      cases h
      exact .putFailed t p (.inl hp)
  | insert p =>
      cases h
      exact .putFailed t p (.inr hp)
  | evictAll tier flowId glob =>
      cases h
      exact .of_moves _ (.inr rfl) hp
        ⟨rfl, rfl, rfl, .inr rfl, .inr rfl, .inr rfl, nofun,
            .inl rfl, rfl, .inl rfl, rfl⟩
  | copy j s =>
      cases h
      exact .of_moves _ (.inr rfl) hp
        ⟨rfl, rfl, rfl, .inl rfl, .inl rfl, .inl rfl, id,
            .inr rfl, rfl, .inl rfl, rfl⟩
  | underFs j s =>
      cases h
      exact .of_moves _ (.inr rfl) hp
        ⟨rfl, rfl, rfl, .inl rfl, .inl rfl, .inl rfl, id,
            .inr rfl, rfl, .inl rfl, rfl⟩
  | mark j s =>
      cases h
      exact .markFailed t _ j s (.inr rfl) hp
  | truncate c r s index =>
      cases c with
      | toDisk =>
          cases h
          exact .of_moves _ (.inr rfl) hp
            ⟨rfl, rfl, rfl, .inr rfl, .inr rfl, .inr rfl, fun h => by
              cases r with
              | get => rfl
              | evict tier j => exact h
              | delete key stamp ok => rfl, .inr rfl, rfl, .inl rfl, rfl⟩
      | toUnderFs key =>
          cases h
          exact .ended t _ key r s (.inr rfl) (.inr ⟨index, hp⟩)
  | read key s =>
      cases h
      exact .of_moves _ (.inr rfl) hp
        ⟨rfl, rfl, rfl, .inl rfl, .inl rfl, .inl rfl, id,
            .inr rfl, rfl, .inl rfl, rfl⟩
  | deleteMark key s stamp =>
      cases h
      exact .of_moves _ (.inr rfl) hp
        ⟨rfl, rfl, rfl, .inr rfl, .inl rfl, .inl rfl, id,
            .inr rfl, rfl, .inl rfl, rfl⟩
  | _ => exact nomatch h

/-- **INVERSION**: what an accepted event does. -/
theorem trans_of_step {e : Event ι κ β}
    (h : step L isMaster n e = some n') : Trans L isMaster n e n' := by
  cases e with
  | put t p =>
      simp only [step] at h
      split at h
      next ht =>
        split at h
        · exact nomatch h
        next hnew =>
          cases h
          exact .putCall t p ht hnew
      · exact nomatch h
  | get t key =>
      simp only [step] at h
      split at h
      next ht =>
        split at h
        next hr =>
          cases h
          exact .missed t _ ht ⟨key, .inl rfl, hr⟩
        next s r hr =>
          cases h
          exact .got t key s r ht hr
      · exact nomatch h
  | delete t key =>
      simp only [step] at h
      split at h
      next ht =>
        split at h
        next hr =>
          cases h
          exact .missed t _ ht ⟨key, .inr rfl, hr⟩
        next s r hr =>
          cases h
          exact .deleteCall t key s r ht hr
      · exact nomatch h
  | evictAll t tier flowId glob =>
      simp only [step] at h
      split at h
      next ht =>
        cases h
        exact .started t tier flowId glob ht
      · exact nomatch h
  | go t => exact trans_of_resume _ rfl h
  | fail t => exact trans_of_interrupt _ rfl h
  | negotiated s =>
      simp only [step] at h
      split at h
      next hs =>
        cases h
        exact .negotiated s hs
      · exact nomatch h
  | flushed s =>
      cases h
      exact .elsewhere s

/-! ## What a thread has after a step -/

/-- The record that the reference of a slice shows, if any, is marked. -/
def MarksRecord (n n' : Node ι κ β) (s : Slot) : Prop :=
  ∃ r, n.refs s = some r ∧ (r.slice = none ∧ n'.records = n.records ∨
    ∃ tier m, r.slice = some tier ∧ n.getMeta tier s = some m ∧
      n'.records = (n.setRecord tier s { m with hasEvict := true }).records)

/-- Thread `t` goes from `p` to `q`: what it has in `q` it has had in `p`, or
    the event tells where it is from. -/
structure Follows (L : Layout) (isMaster : Bool) (n : Node ι κ β)
    (e : Event ι κ β) (n' : Node ι κ β) (t : ι) (p q : Phase κ β) : Prop where
  put : q.put = none ∨ q.put = p.put ∨ ∃ a, e = .put t a ∧ q.put = some a
  reads : q.reads = none ∨ q.reads = p.reads ∨
    ∃ key s r, (e = .get t key ∨ e = .delete t key) ∧
      n.aquire key = some (s, r) ∧ q.reads = some s
  delete : q.delete? = none ∨ q.delete? = p.delete? ∨
    ∃ key, e = .delete t key ∧ q.delete? = some (key, n.history.stamp key)
  marked : q.marked? = none ∨ q.marked? = p.marked? ∨
    ∃ key s stamp, p = .deleteMark key s stamp ∧ e = .go t ∧
      q.marked? = some (key, stamp) ∧ MarksRecord n n' s
  erased : q.erased? = none ∨ q.erased? = p.erased? ∨
    ∃ key s stamp, p = .deleteIndex key s stamp ∧ e = .go t ∧
      q.erased? = some (key, stamp) ∧ n'.index key ≠ some s
  calls : q.calls = false ∨ q.calls = p.calls ∨
    (∃ a, e = .put t a) ∨ ∃ key, e = .get t key ∨ e = .delete t key
  passed : q.passed = none ∨ q.passed = p.passed ∨
    ∃ j s, p = .underFs j s ∧ e = .go t ∧ q.passed = some s ∧
      (s ∈ n'.flushed ∨ ∃ r, n.refs s = some r ∧
        (r.valid = false ∨ isMaster = false))
  task : q.task = none ∨ q.task = p.task ∨
    (∃ tier f glob, e = .evictAll t tier f glob ∧
      q.task = some (tier, f, glob)) ∨
    ∃ tier f glob s, p.task = some (tier, f, glob) ∧
      s ∈ n.evictSliceQueue tier f ∧ q.task = some (tier, s.flowId, glob)
  releases : q.releases = none ∨ q.releases = p.releases ∨
    ∃ f s rest, n.evictSliceQueue .disk f = s :: rest ∧ e = .go t ∧
      q.releases = some s ∧ ((∃ a, p = .frontDisk a ∧ a.slot.flowId = f) ∨
        ∃ glob, p = .evictAll .disk f glob ∧ isBehind L s glob = false)

omit [DecidableEq ι] [DecidableEq κ] in
/-- What follows the eviction of a slice has the job, and nothing else. -/
theorem afterEvict_parts (tier : Tier) (j : Job κ β) (s : Slot) :
    (afterEvict tier s j).put = j.put ∧ (afterEvict tier s j).reads = none ∧
      (afterEvict tier s j).delete? = none ∧
      (afterEvict tier s j).marked? = none ∧
      (afterEvict tier s j).erased? = none ∧
      (afterEvict tier s j).calls = j.put.isSome ∧
      (afterEvict tier s j).passed = none ∧
      (afterEvict tier s j).task = j.task tier s ∧
      (afterEvict tier s j).releases = none := by
  cases j with
  | background glob => exact ⟨rfl, rfl, rfl, rfl, rfl, rfl, rfl, rfl, rfl⟩
  | front p =>
      simp only [afterEvict]
      split
      all_goals exact ⟨rfl, rfl, rfl, rfl, rfl, rfl, rfl, rfl, rfl⟩

omit [DecidableEq ι] [DecidableEq κ] in
theorem calls_release (r : Ret κ β) (s : Slot) :
    (Phase.release r s).calls = true := by
  cases r with
  | evict tier j =>
      show (j.put.isSome || true || _ || _) = true
      rw [Bool.or_true]
      rfl
  | get => rfl
  | delete key stamp ok => rfl

/-- **THREADS**: a step moves one thread at most. -/
theorem Trans.follows {e : Event ι κ β} (h : Trans L isMaster n e n') :
    n'.threads = n.threads ∨ ∃ t q,
      n'.threads = Function.update n.threads t q ∧
        Follows L isMaster n e n' t (n.threads t) q := by
  cases h with
  | putCall t p hp hnew =>
      refine .inr ⟨t, _, rfl, ?_⟩
      exact ⟨.inr (.inr ⟨p, rfl, rfl⟩), .inl rfl, .inl rfl, .inl rfl, .inl rfl,
        .inr (.inr (.inl ⟨p, rfl⟩)), .inl rfl, .inl rfl, .inl rfl⟩
  | missed t e hp he => exact .inl rfl
  | got t key s r hp hr =>
      refine .inr ⟨t, _, rfl, ?_⟩
      exact ⟨.inl rfl, .inr (.inr ⟨key, s, r, .inl rfl, hr, rfl⟩), .inl rfl,
        .inl rfl, .inl rfl, .inr (.inr (.inr ⟨key, .inl rfl⟩)), .inl rfl,
        .inl rfl, .inl rfl⟩
  | deleteCall t key s r hp hr =>
      refine .inr ⟨t, _, rfl, ?_⟩
      exact ⟨.inl rfl, .inr (.inr ⟨key, s, r, .inr rfl, hr, rfl⟩),
        .inr (.inr ⟨key, rfl, rfl⟩), .inl rfl, .inl rfl,
        .inr (.inr (.inr ⟨key, .inr rfl⟩)), .inl rfl, .inl rfl, .inl rfl⟩
  | started t tier f glob hp =>
      refine .inr ⟨t, _, rfl, ?_⟩
      exact ⟨.inl rfl, .inl rfl, .inl rfl, .inl rfl, .inl rfl, .inl rfl,
        .inl rfl, .inr (.inr (.inl ⟨tier, f, glob, rfl, rfl⟩)), .inl rfl⟩
  | moves t e q he hm =>
      refine .inr ⟨t, q, rfl, .inr (.inl hm.put), .inr (.inl hm.reads),
        hm.delete.imp_right .inl, hm.marked.imp_right .inl,
        hm.erased.imp_right .inl, ?_, .inl hm.passed,
        hm.task.imp_right .inl, hm.releases.imp_right .inl⟩
      cases hq : q.calls with
      | false => exact .inl rfl
      | true => exact .inr (.inl (hm.calls hq).symm)
  | wrote t p hp =>
      refine .inr ⟨t, _, rfl, ?_⟩
      rw [hp]
      exact ⟨.inr (.inl rfl), .inl rfl, .inl rfl, .inl rfl, .inl rfl,
        .inr (.inl rfl), .inl rfl, .inl rfl, .inl rfl⟩
  | negotiating t p q hp hq =>
      refine .inr ⟨t, q, rfl, ?_⟩
      rw [hp]
      rcases hq with rfl | rfl
      all_goals exact ⟨.inr (.inl rfl), .inl rfl, .inl rfl, .inl rfl, .inl rfl,
        .inr (.inl rfl), .inl rfl, .inl rfl, .inl rfl⟩
  | popped t tier f s rest q hp hreads hdelete hqueue hq hput hreads' hdelete'
      hmarked herased hcalls hpassed htask hreleases =>
      refine .inr ⟨t, q, rfl, .inr (.inl hput), .inl hreads', .inl hdelete',
        .inl hmarked, .inl herased, .inr (.inl hcalls), .inl hpassed, ?_, ?_⟩
      · rcases htask with ⟨-, htask⟩ | ⟨glob, htask, htask'⟩
        · exact .inl htask
        · exact .inr (.inr (.inr ⟨tier, f, glob, s, htask,
            hqueue ▸ List.mem_cons_self .., htask'⟩))
      · rcases hreleases with h | ⟨h, rfl, hby⟩
        · exact .inl h
        · exact .inr (.inr ⟨f, s, rest, hqueue, rfl, h, hby⟩)
  | dropped t f s rest r glob hp hqueue hr hslice =>
      refine .inr ⟨t, _, rfl, ?_⟩
      exact ⟨.inl rfl, .inl rfl, .inl rfl, .inl rfl, .inl rfl, .inl rfl,
        .inl rfl, .inl rfl, .inl rfl⟩
  | locked t tier j s r hp hr =>
      refine .inr ⟨t, _, rfl, ?_⟩
      rw [hp]
      cases tier
      all_goals exact ⟨.inr (.inl rfl), .inl rfl, .inl rfl, .inl rfl, .inl rfl,
        .inr (.inl rfl), .inl rfl, .inr (.inl rfl), .inr (.inl rfl)⟩
  | copied t j s r m b hp hr hslice hm hb =>
      refine .inr ⟨t, _, rfl, ?_⟩
      rw [hp]
      exact ⟨.inr (.inl rfl), .inl rfl, .inl rfl, .inl rfl, .inl rfl,
        .inr (.inl rfl), .inl rfl, .inr (.inl rfl), .inl rfl⟩
  | flushed t j s r hp hr hvalid hmaster =>
      refine .inr ⟨t, _, rfl, ?_⟩
      rw [hp]
      exact ⟨.inr (.inl rfl), .inl rfl, .inl rfl, .inl rfl, .inl rfl,
        .inr (.inl rfl), .inr (.inr ⟨j, s, rfl, rfl, rfl, .inl
          (List.mem_append_right _ (List.mem_singleton_self s))⟩),
        .inr (.inl rfl), .inr (.inl rfl)⟩
  | passed t j s r hp hr hnot =>
      refine .inr ⟨t, _, rfl, ?_⟩
      rw [hp]
      exact ⟨.inr (.inl rfl), .inl rfl, .inl rfl, .inl rfl, .inl rfl,
        .inr (.inl rfl), .inr (.inr ⟨j, s, rfl, rfl, rfl, .inr ⟨r, hr, hnot⟩⟩),
        .inr (.inl rfl), .inr (.inl rfl)⟩
  | marked t j s m hp hm =>
      refine .inr ⟨t, _, rfl, ?_⟩
      rw [hp]
      exact ⟨.inr (.inl rfl), .inl rfl, .inl rfl, .inl rfl, .inl rfl,
        .inr (.inl rfl), .inr (.inl rfl), .inr (.inl rfl), .inr (.inl rfl)⟩
  | markFailed t e j s he hp =>
      refine .inr ⟨t, _, rfl, ?_⟩
      rw [hp]
      exact ⟨.inr (.inl rfl), .inl rfl, .inl rfl, .inl rfl, .inl rfl,
        .inr (.inl rfl), .inl rfl, .inr (.inl rfl), .inl rfl⟩
  | replaced t c j s r hp hr href =>
      refine .inr ⟨t, _, rfl, ?_⟩
      rw [hp]
      exact ⟨.inr (.inl rfl), .inl rfl, .inl rfl, .inl rfl, .inl rfl,
        .inr (.inl rfl), .inl rfl, .inr (.inl rfl), .inl rfl⟩
  | deferred t c j s r hp hr href =>
      refine .inr ⟨t, _, rfl, ?_⟩
      rw [hp]
      exact ⟨.inr (.inl rfl), .inl rfl, .inl rfl, .inl rfl, .inl rfl,
        .inr (.inl rfl), .inl rfl, .inr (.inl rfl), .inl rfl⟩
  | unlocked t tier j s ok r hp hr =>
      refine .inr ⟨t, _, rfl, ?_⟩
      rw [hp]
      cases ok with
      | true =>
          obtain ⟨h1, h2, h3, h4, h5, h6, h7, h8, h9⟩ :=
            afterEvict_parts tier j s
          refine ⟨.inr (.inl h1), .inl h2, .inl h3, .inl h4, .inl h5,
            .inr (.inl (h6.trans ?_)), .inl h7, .inr (.inl h8), .inl h9⟩
          cases j
          all_goals rfl
      | false =>
          exact ⟨.inr (.inl rfl), .inl rfl, .inl rfl, .inl rfl, .inl rfl,
            .inr (.inl rfl), .inl rfl, .inr (.inl rfl), .inl rfl⟩
  | requeued t tier glob s hp =>
      refine .inr ⟨t, _, rfl, ?_⟩
      exact ⟨.inl rfl, .inl rfl, .inl rfl, .inl rfl, .inl rfl, .inl rfl,
        .inl rfl, .inl rfl, .inl rfl⟩
  | putRequeued t tier p s hp =>
      refine .inr ⟨t, _, rfl, ?_⟩
      exact ⟨.inl rfl, .inl rfl, .inl rfl, .inl rfl, .inl rfl, .inl rfl,
        .inl rfl, .inl rfl, .inl rfl⟩
  | cursor t c r s q hp hq =>
      refine .inr ⟨t, q, rfl, ?_⟩
      rw [hp]
      rcases hq with rfl | rfl
      all_goals
        refine ⟨.inr (.inl rfl), .inl rfl, .inr (.inl rfl), .inr (.inl rfl),
          .inr (.inl rfl), .inr (.inl ?_), .inl rfl, .inr (.inl rfl),
          .inl rfl⟩
        cases r
        all_goals rfl
  | truncated t c r s index hp =>
      refine .inr ⟨t, _, rfl, ?_⟩
      rw [hp]
      refine ⟨.inr (.inl rfl), .inl rfl, .inr (.inl rfl), .inr (.inl rfl),
        .inr (.inl rfl), .inr (.inl ?_), .inl rfl, .inr (.inl rfl), .inl rfl⟩
      cases r
      all_goals rfl
  | enqueued t r s hp =>
      refine .inr ⟨t, _, rfl, ?_⟩
      rw [hp]
      refine ⟨.inr (.inl rfl), .inl rfl, .inr (.inl rfl), .inr (.inl rfl),
        .inr (.inl rfl), .inr (.inl ?_), .inl rfl, .inr (.inl rfl), .inl rfl⟩
      cases r
      all_goals rfl
  | ended t e key r s he hp =>
      refine .inr ⟨t, _, rfl, ?_⟩
      rcases hp with hp | ⟨i, hp⟩
      all_goals
        rw [hp]
        refine ⟨.inr (.inl rfl), .inl rfl, .inr (.inl rfl), .inr (.inl rfl),
          .inr (.inl rfl), .inr (.inl ?_), .inl rfl, .inr (.inl rfl),
          .inl rfl⟩
        cases r
        all_goals rfl
  | unindexed t key r s ref hp hr hvalid hindex =>
      refine .inr ⟨t, _, rfl, ?_⟩
      rw [hp]
      refine ⟨.inr (.inl rfl), .inl rfl, .inr (.inl rfl), .inr (.inl rfl),
        .inr (.inl rfl), .inr (.inl ?_), .inl rfl, .inr (.inl rfl), .inl rfl⟩
      cases r
      all_goals rfl
  | deleted t key stamp s hp =>
      refine .inr ⟨t, _, rfl, ?_⟩
      exact ⟨.inl rfl, .inl rfl, .inl rfl, .inl rfl, .inl rfl, .inl rfl,
        .inl rfl, .inl rfl, .inl rfl⟩
  | released t r s ref hp hr hkeep =>
      refine .inr ⟨t, _, rfl, ?_⟩
      rw [hp]
      refine ⟨.inr (.inl rfl), .inl rfl, .inr (.inl rfl), .inr (.inl rfl),
        .inr (.inl rfl), ?_, .inl rfl, .inr (.inl rfl), .inl rfl⟩
      cases hq : (Phase.back r s : Phase κ β).calls with
      | false => exact .inl rfl
      | true => exact .inr (.inl (calls_release r s).symm)
  | switched t c r s ref hp hr hc hlast =>
      refine .inr ⟨t, _, rfl, ?_⟩
      rw [hp]
      refine ⟨.inr (.inl rfl), .inl rfl, .inr (.inl rfl), .inr (.inl rfl),
        .inr (.inl rfl), ?_, .inl rfl, .inr (.inl rfl), .inl rfl⟩
      cases hq : (Phase.cursor c r s : Phase κ β).calls with
      | false => exact .inl rfl
      | true => exact .inr (.inl (calls_release r s).symm)
  | opLocked t key s stamp r hp hr =>
      refine .inr ⟨t, _, rfl, ?_⟩
      rw [hp]
      exact ⟨.inl rfl, .inr (.inl rfl), .inr (.inl rfl), .inl rfl, .inl rfl,
        .inr (.inl rfl), .inl rfl, .inl rfl, .inl rfl⟩
  | deleteMarked t key s stamp r tier m hp hr hslice hm =>
      refine .inr ⟨t, _, rfl, ?_⟩
      rw [hp]
      exact ⟨.inl rfl, .inr (.inl rfl), .inr (.inl rfl),
        .inr (.inr ⟨key, s, stamp, rfl, rfl, rfl, r, hr,
          .inr ⟨tier, m, hslice, hm, rfl⟩⟩), .inl rfl,
        .inr (.inl rfl), .inl rfl, .inl rfl, .inl rfl⟩
  | deletePassed t key s stamp r hp hr hslice =>
      refine .inr ⟨t, _, rfl, ?_⟩
      rw [hp]
      exact ⟨.inl rfl, .inr (.inl rfl), .inr (.inl rfl),
        .inr (.inr ⟨key, s, stamp, rfl, rfl, rfl, r, hr, .inl ⟨hslice, rfl⟩⟩),
        .inl rfl, .inr (.inl rfl), .inl rfl, .inl rfl, .inl rfl⟩
  | deleteErased t key s stamp hp hindex =>
      refine .inr ⟨t, _, rfl, ?_⟩
      rw [hp]
      exact ⟨.inl rfl, .inr (.inl rfl), .inr (.inl rfl), .inr (.inl rfl),
        .inr (.inr ⟨key, s, stamp, rfl, rfl, rfl, fun h => nomatch
          (Function.update_self ..).symm.trans h⟩),
        .inr (.inl rfl), .inl rfl, .inl rfl, .inl rfl⟩
  | deleteExpired t key s s' stamp hp hindex hne =>
      refine .inr ⟨t, _, rfl, ?_⟩
      rw [hp]
      exact ⟨.inl rfl, .inr (.inl rfl), .inr (.inl rfl), .inr (.inl rfl),
        .inr (.inr ⟨key, s, stamp, rfl, rfl, rfl, fun h =>
          hne (Option.some.inj (hindex.symm.trans h))⟩),
        .inr (.inl rfl), .inl rfl, .inl rfl, .inl rfl⟩
  | invalidated t key s stamp r hp hr =>
      refine .inr ⟨t, _, rfl, ?_⟩
      rw [hp]
      exact ⟨.inl rfl, .inr (.inl rfl), .inr (.inl rfl), .inr (.inl rfl),
        .inr (.inl rfl), .inr (.inl rfl), .inl rfl, .inl rfl, .inl rfl⟩
  | deleteUnlocked t key s stamp ok r hp hr =>
      refine .inr ⟨t, _, rfl, ?_⟩
      rw [hp]
      cases ok
      all_goals exact ⟨.inl rfl, .inr (.inl rfl), .inr (.inl rfl),
        .inr (.inl rfl), .inr (.inl rfl), .inr (.inl rfl), .inl rfl, .inl rfl,
        .inl rfl⟩
  | inserted t p hp =>
      refine .inr ⟨t, _, rfl, ?_⟩
      exact ⟨.inl rfl, .inl rfl, .inl rfl, .inl rfl, .inl rfl, .inl rfl,
        .inl rfl, .inl rfl, .inl rfl⟩
  | putFailed t p hp =>
      refine .inr ⟨t, _, rfl, ?_⟩
      exact ⟨.inl rfl, .inl rfl, .inl rfl, .inl rfl, .inl rfl, .inl rfl,
        .inl rfl, .inl rfl, .inl rfl⟩
  | negotiated s hs => exact .inl rfl
  | elsewhere s => exact .inl rfl

end UbsIo.Wcache
