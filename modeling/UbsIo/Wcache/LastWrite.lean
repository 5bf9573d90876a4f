import UbsIo.Wcache.Contents

/-! # The last write wins

    As a map from keys to values the write cache answers a `Get` with what was
    put last, as long as `WCacheIndex` has the slice of the last `Put` of a key.
    But `Insert` keeps a slice that is in the index under the key already.  So
    `Fresh` has every `Put` find its key free there: each slice of the key that
    was put before has left the index for UnderFs, or was deleted.

    `Put`, `Get` and `Delete` are called one after another here, and evictions
    run at any time.  A standby does not write to UnderFs itself; `Fresh` has it
    give up only what the master has done with. -/

namespace UbsIo.Wcache

open UbsIo.Lib

variable {ι κ β : Type}

/-! ## Statements -/

def Event.isCall : Event ι κ β → Bool
  | .put _ _ => true
  | .get _ _ => true
  | .delete _ _ => true
  | _ => false

/-- No call starts while another one runs. -/
def Serial (n : Node ι κ β) (e : Event ι κ β) : Prop :=
  e.isCall = true → ∀ t, (n.threads t).calls = false

/-- A `Get` that reads finds the value that was put last under its key, and one
    that misses asks for a key that was never put, was deleted after its last
    `Put`, or whose last slice has been put into UnderFs. -/
def LastWrite (n : Node ι κ β) : Event ι κ β → Prop
  | .go t => ∀ key s, n.threads t = .read key s →
      ∃ s' b, n.history.lastPut key = some (s', b) ∧ n.readSlice s = some b
  | .get _ key => n.aquire key = none →
      n.history.lastPut key = none ∨ n.history.erased key = true ∨
        ∃ s b, n.history.lastPut key = some (s, b) ∧ s ∈ n.flushed
  | _ => True

/-- A `Put` that succeeds finds no slice in the index under its key, and a
    standby gives up only slices that the master has done with. -/
def Fresh (isMaster : Bool) (n : Node ι κ β) : Event ι κ β → Prop
  | .go t => (∀ p, n.threads t = .insert p → n.index p.key = none) ∧
      (isMaster = false → ∀ j s, n.threads t = .underFs j s → Evicted n s)
  | _ => True

/-! ## The index and the history -/

variable [DecidableEq ι] [DecidableEq κ] {L : Layout} {isMaster : Bool}
  {n n' : Node ι κ β} {e : Event ι κ β} {loc : Slot → Loc ι}

/-- What a step does to the index, and to what the callers know. -/
inductive MapStep (n : Node ι κ β) (e : Event ι κ β) (n' : Node ι κ β) :
    Prop where
  | same (hindex : n'.index = n.index)
      (hlast : n'.history.lastPut = n.history.lastPut)
      (herased : ∀ key, n.history.erased key = true →
        n'.history.erased key = true)
  | inserted (t : ι) (p : PutArgs κ β) (he : e = .go t)
      (hp : n.threads t = .insert p) (hq : n'.threads t = .idle)
      (hindex : n'.index = Function.update n.index p.key
        (some ((n.index p.key).getD p.slot)))
      (hhistory : n'.history = n.history.done t p.key p.slot p.value)
  | removed (key : κ) (s : Slot) (hindex : n.index key = some s)
      (hindex' : n'.index = Function.update n.index key none)
      (hhistory : n'.history = n.history)
      (hwhy : (∃ t r ref, n.threads t = .finish (.toUnderFs key) r s ∧
        n.refs s = some ref ∧ ref.valid = true) ∨
        ∃ t stamp, n.threads t = .deleteIndex key s stamp ∧
          n'.threads t = .setState key s stamp)

theorem Trans.mapStep (h : Trans L isMaster n e n') : MapStep n e n' := by
  cases h with
  | inserted t p hp => exact .inserted t p rfl hp (goto_self ..) rfl rfl
  | unindexed t key r s ref hp hr hvalid hindex =>
      exact .removed key s hindex rfl rfl (.inl ⟨t, r, ref, hp, hr, hvalid⟩)
  | deleteErased t key s stamp hp hindex =>
      exact .removed key s hindex rfl rfl (.inr ⟨t, stamp, hp, goto_self ..⟩)
  | deleted t key stamp s hp =>
      refine .same rfl rfl fun k hk => ?_
      show Function.update n.history.erased key true k = true
      by_cases hkey : k = key
      · rw [hkey, Function.update_self]
      · rw [Function.update_of_ne hkey]
        exact hk
  | _ => exact .same rfl rfl fun _ h => h

/-- Only a `Put` that returns changes what was put last. -/
theorem MapStep.lastPut_eq (h : MapStep n e n')
    (hno : ∀ t p, e = .go t → n.threads t ≠ .insert p) :
    n'.history.lastPut = n.history.lastPut := by
  cases h with
  | same _ hlast _ => exact hlast
  | inserted t p he hp _ _ _ => exact absurd hp (hno t p he)
  | removed _ _ _ _ hhistory _ => rw [hhistory]

/-- Other steps put nothing into the index. -/
theorem MapStep.index_of (h : MapStep n e n')
    (hno : ∀ t p, e = .go t → n.threads t ≠ .insert p) {key : κ} {s : Slot}
    (hindex : n'.index key = some s) : n.index key = some s := by
  cases h with
  | same hsame _ _ => exact hsame ▸ hindex
  | inserted t p he hp _ _ _ => exact absurd hp (hno t p he)
  | removed key' s' _ hnone _ _ =>
      rw [hnone] at hindex
      by_cases hkey : key = key'
      · rw [hkey, Function.update_self] at hindex
        cases hindex
      · rwa [Function.update_of_ne hkey] at hindex

omit [DecidableEq ι] [DecidableEq κ] in
theorem calls_of_put {p : Phase κ β} {a : PutArgs κ β} (h : p.put = some a) :
    p.calls = true := by
  simp [Phase.calls, h]

omit [DecidableEq ι] [DecidableEq κ] in
theorem calls_of_reads {p : Phase κ β} {s : Slot} (h : p.reads = some s) :
    p.calls = true := by
  simp [Phase.calls, h]

omit [DecidableEq ι] [DecidableEq κ] in
theorem calls_of_delete {p : Phase κ β} {x : κ × Option Nat}
    (h : p.delete? = some x) : p.calls = true := by
  simp [Phase.calls, h]

/-- Only a `Delete` that is at the end makes a slice invalid. -/
theorem Deleted.of_trans {s : Slot} (h : Deleted n' s)
    (ht : Trans L isMaster n e n') :
    Deleted n s ∨ ∃ t key stamp, n.threads t = .setState key s stamp := by
  obtain ⟨r, hr, hinvalid⟩ := h
  cases ht.refStep s with
  | same heq => exact .inl ⟨r, heq ▸ hr, hinvalid⟩
  | kept r₀ r' hr₀ hr' _ _ hvalid =>
      rw [hr'] at hr
      cases hr
      rcases hvalid with hvalid | ⟨-, hby⟩
      · exact .inl ⟨r₀, hr₀, hvalid ▸ hinvalid⟩
      · exact .inr hby
  | wrote _ _ _ _ hr' =>
      rw [hr'] at hr
      cases hr
      cases hinvalid
  | replaced _ _ _ r₀ _ hr₀ hr' =>
      rw [hr'] at hr
      cases hr
      exact .inl ⟨r₀, hr₀, hinvalid⟩
  | deferred _ _ _ r₀ _ hr₀ hr' =>
      rw [hr'] at hr
      cases hr
      exact .inl ⟨r₀, hr₀, hinvalid⟩
  | switched _ r₀ hr₀ _ hr' =>
      rw [hr'] at hr
      cases hr
      exact .inl ⟨r₀, hr₀, hinvalid⟩

theorem Trans.put_new {t : ι} {p : PutArgs κ β}
    (h : Trans L isMaster n (.put t p) n') : p.slot ∉ n.used := by
  cases h with
  | putCall _ _ _ hnew => exact hnew
  | missed _ _ _ he =>
      obtain ⟨_, h | h, -⟩ := he
      all_goals cases h
  | moves _ _ _ he => exact he.elim nofun nofun
  | markFailed _ _ _ _ he => exact he.elim nofun nofun
  | ended _ _ _ _ _ he => exact he.elim nofun nofun

/-- The one that aquires a slice holds it. -/
theorem held_of_aquire {t : ι} {key : κ} {s : Slot} {r : SliceRef κ}
    (h : step L isMaster n e = some n')
    (he : e = .get t key ∨ e = .delete t key)
    (hr : n.aquire key = some (s, r)) : Held n' s := by
  obtain ⟨r₀, -, -, hslice, -, rfl⟩ := aquire_eq_some hr
  rcases he with rfl | rfl
  all_goals
    simp only [step, hr] at h
    split at h
    · cases h
      exact ⟨_, setRef_self _, hslice, Nat.succ_pos _⟩
    · cases h

/-- The one that releases a slice does not read it any more. -/
theorem reads_release {t : ι} {r : Ret κ β} {s : Slot}
    (h : step L isMaster n (.go t) = some n')
    (hp : n.threads t = .release r s) : (n'.threads t).reads = none := by
  simp only [step, hp, resume] at h
  split at h
  · cases h
  · split at h
    · split at h
      all_goals
        cases h
        exact congrArg Phase.reads (goto_self ..)
    · cases h
      exact congrArg Phase.reads (goto_self ..)

/-! ## One call at a time -/

/-- At most one call runs. -/
def Alone (n : Node ι κ β) : Prop :=
  ∀ t u, (n.threads t).calls = true → (n.threads u).calls = true → t = u

/-- A thread stays where it is, or it is the one that moves. -/
theorem Trans.thread_cases (h : Trans L isMaster n e n') (t : ι) :
    n'.threads t = n.threads t ∨
      Follows L isMaster n e n' t (n.threads t) (n'.threads t) := by
  rcases h.follows with heq | ⟨u, q, heq, hfol⟩
  · exact .inl (congrFun heq t)
  · by_cases hu : t = u
    · subst hu
      right
      rwa [heq, Function.update_self]
    · left
      rw [heq, Function.update_of_ne hu]

omit [DecidableEq ι] [DecidableEq κ] in
/-- While another call runs no `Put` is about to return. -/
theorem Alone.no_insert (h : Alone n) {t : ι}
    (hcalls : (n.threads t).calls = true)
    (hp : ∀ p, n.threads t ≠ .insert p) (u : ι) (p : PutArgs κ β)
    (_ : e = .go u) : n.threads u ≠ .insert p := by
  intro hu
  have hut : u = t := h u t (by rw [hu]; rfl) hcalls
  exact hp p (hut ▸ hu)

omit [DecidableEq ι] [DecidableEq κ] in
theorem Serial.not_calls (h : Serial n e) {t : ι}
    (he : (∃ a, e = .put t a) ∨ ∃ key, e = .get t key ∨ e = .delete t key)
    (u : ι) : (n.threads u).calls = false := by
  refine h ?_ u
  rcases he with ⟨a, rfl⟩ | ⟨key, rfl | rfl⟩
  all_goals rfl

theorem Alone.trans (h : Alone n) (hserial : Serial n e)
    (ht : Trans L isMaster n e n') : Alone n' := by
  rcases ht.follows with heq | ⟨v, q, heq, hfol⟩
  · intro t u htc huc
    rw [heq] at htc huc
    exact h t u htc huc
  · -- a thread that is in a call after its step
    have hmoved : ∀ u, q.calls = true → (n.threads u).calls = true →
        u = v := by
      intro u hq hu
      rcases hfol.calls with hno | hsame | hcall
      · rw [hq] at hno
        cases hno
      · exact h u v hu (hsame ▸ hq)
      · rw [hserial.not_calls hcall u] at hu
        cases hu
    intro t u htc huc
    rw [heq] at htc huc
    by_cases htv : t = v
    · subst htv
      rw [Function.update_self] at htc
      by_cases hut : u = t
      · exact hut.symm
      · rw [Function.update_of_ne hut] at huc
        exact (hmoved u htc huc).symm
    · rw [Function.update_of_ne htv] at htc
      by_cases huv : u = v
      · subst huv
        rw [Function.update_self] at huc
        exact hmoved t huc htc
      · rw [Function.update_of_ne huv] at huc
        exact h t u htc huc

/-! ## The invariant -/

/-- What is in the index, or about to come in or to go out, is what was put
    last, and what was put last has gone out for a reason. -/
structure Mapped (n : Node ι κ β) : Prop where
  alone : Alone n
  returned : Returned (Wrote n) n
  alive : ∀ t p, (n.threads t).put = some p → ¬ Deleted n p.slot
  index : ∀ key s, n.index key = some s →
    (∃ b, n.history.lastPut key = some (s, b)) ∧ ¬ Deleted n s
  reading : ∀ t key s, n.threads t = .read key s →
    ∃ b, n.history.lastPut key = some (s, b)
  deleting : ∀ t key stamp s, (n.threads t).delete? = some (key, stamp) →
    (n.threads t).reads = some s → ∃ b, n.history.lastPut key = some (s, b)
  erasing : ∀ t x s, (n.threads t).erased? = some x →
    (n.threads t).reads = some s → ∀ key, n.index key ≠ some s
  held : ∀ t s, (n.threads t).reads = some s → Held n s
  lost : ∀ key s b, n.history.lastPut key = some (s, b) →
    n.index key = some s ∨ n.history.erased key = true ∨ s ∈ n.flushed ∨
      ∃ t stamp, (n.threads t).erased? = some (key, stamp)

omit [DecidableEq ι] [DecidableEq κ] in
theorem mapped_init : Mapped (Node.init ι κ β) where
  alone := nofun
  returned := ⟨nofun, nofun⟩
  alive := nofun
  index := nofun
  reading := nofun
  deleting := nofun
  erasing := nofun
  held := nofun
  lost := nofun

omit [DecidableEq ι] [DecidableEq κ] in
/-- A slice has one key. -/
theorem Mapped.key_eq (h : Mapped n) {s : Slot} {key key' : κ} {b b' : β}
    (hlast : n.history.lastPut key = some (s, b))
    (hlast' : n.history.lastPut key' = some (s, b')) : key = key' := by
  obtain ⟨m, hm, hkey⟩ := (h.returned.last key s b hlast).keyed
  obtain ⟨m', hm', hkey'⟩ := (h.returned.last key' s b' hlast').keyed
  rw [hm] at hm'
  cases hm'
  exact hkey.symm.trans hkey'

omit [DecidableEq ι] [DecidableEq κ] in
/-- A slice that a call is about to make invalid is not in the index. -/
theorem Mapped.not_indexed (h : Mapped n) {t : ι} {key : κ} {s : Slot}
    {stamp : Option Nat} (hp : n.threads t = .setState key s stamp)
    (key' : κ) : n.index key' ≠ some s :=
  h.erasing t (key, stamp) s (by rw [hp]; rfl) (by rw [hp]; rfl) key'

section

variable (h : Mapped n)
include h

theorem alive_step (hserial : Serial n e) (hl : Placed n loc)
    (hs : step L isMaster n e = some n') (t : ι) (p : PutArgs κ β)
    (hput : (n'.threads t).put = some p) : ¬ Deleted n' p.slot := by
  have ht := trans_of_step hs
  intro hdeleted
  have hold (hput : (n.threads t).put = some p) : False := by
    rcases hdeleted.of_trans ht with hd | ⟨u, key, stamp, hu⟩
    · exact h.alive t p hput hd
    · -- the `Delete` that makes it invalid would be another call
      have hut : u = t :=
        h.alone u t (by rw [hu]; rfl) (calls_of_put hput)
      rw [← hut, hu] at hput
      cases hput
  rcases ht.thread_cases t with heq | hfol
  · exact hold (heq ▸ hput)
  · rcases hfol.put with hnone | hsame | ⟨a, rfl, hq⟩
    · rw [hput] at hnone
      cases hnone
    · exact hold (hsame ▸ hput)
    · rw [hput] at hq
      cases hq
      rcases hdeleted.of_trans ht with ⟨r, hr, -⟩ | ⟨u, key, stamp, hu⟩
      · have hfits := hl.fits p.slot
        have hslice := hfits.slice
        rw [hfits.used ht.put_new, hr] at hslice
        cases hslice
      · have hno := hserial rfl u
        rw [hu] at hno
        cases hno

theorem index_step (hfresh : Fresh isMaster n e)
    (hs : step L isMaster n e = some n') (key : κ) (s : Slot)
    (hindex : n'.index key = some s) :
    (∃ b, n'.history.lastPut key = some (s, b)) ∧ ¬ Deleted n' s := by
  have ht := trans_of_step hs
  have hold (hindex : n.index key = some s)
      (hlast : n'.history.lastPut key = n.history.lastPut key) :
      (∃ b, n'.history.lastPut key = some (s, b)) ∧ ¬ Deleted n' s := by
    obtain ⟨hput, hvalid⟩ := h.index key s hindex
    refine ⟨hlast ▸ hput, fun hdeleted => ?_⟩
    rcases hdeleted.of_trans ht with hd | ⟨u, key', stamp, hu⟩
    · exact hvalid hd
    · exact h.not_indexed hu key hindex
  cases ht.mapStep with
  | same hsame hlast _ => exact hold (hsame ▸ hindex) (by rw [hlast])
  | inserted t p he hp hq hinsert hhistory =>
      subst he
      by_cases hkey : key = p.key
      · rw [hinsert, hkey, Function.update_self, hfresh.1 p hp,
          Option.getD_none] at hindex
        cases hindex
        refine ⟨⟨p.value, ?_⟩, fun hdeleted => ?_⟩
        · rw [hhistory, hkey]
          exact Function.update_self ..
        · rcases hdeleted.of_trans ht with hd | ⟨u, key', stamp, hu⟩
          · exact h.alive t p (by rw [hp]; rfl) hd
          · have hut : u = t :=
              h.alone u t (by rw [hu]; rfl) (by rw [hp]; rfl)
            rw [hut, hp] at hu
            cases hu
      · rw [hinsert, Function.update_of_ne hkey] at hindex
        refine hold hindex ?_
        rw [hhistory]
        exact Function.update_of_ne hkey ..
  | removed key' s' _ hnone hhistory _ =>
      rw [hnone] at hindex
      by_cases hkey : key = key'
      · rw [hkey, Function.update_self] at hindex
        cases hindex
      · rw [Function.update_of_ne hkey] at hindex
        exact hold hindex (by rw [hhistory])

theorem reading_step (hs : step L isMaster n e = some n') (t : ι) (key : κ)
    (s : Slot) (hq : n'.threads t = .read key s) :
    ∃ b, n'.history.lastPut key = some (s, b) := by
  have hmap := (trans_of_step hs).mapStep
  rcases get_of_step hs hq with hp | ⟨r, rfl, hr⟩
  · rw [hmap.lastPut_eq (h.alone.no_insert (t := t) (by rw [hp]; rfl)
      (by rw [hp]; exact nofun))]
    exact h.reading t key s hp
  · obtain ⟨-, hindex, -⟩ := aquire_eq_some hr
    rw [hmap.lastPut_eq nofun]
    exact (h.index key s hindex).1

theorem deleting_step (hserial : Serial n e)
    (hs : step L isMaster n e = some n') (t : ι) (key : κ)
    (stamp : Option Nat) (s : Slot)
    (hdelete : (n'.threads t).delete? = some (key, stamp))
    (hreads : (n'.threads t).reads = some s) :
    ∃ b, n'.history.lastPut key = some (s, b) := by
  have ht := trans_of_step hs
  have hold (hdelete : (n.threads t).delete? = some (key, stamp))
      (hreads : (n.threads t).reads = some s) :
      ∃ b, n'.history.lastPut key = some (s, b) := by
    rw [ht.mapStep.lastPut_eq (h.alone.no_insert (calls_of_delete hdelete)
      fun p hp => by rw [hp] at hdelete; cases hdelete)]
    exact h.deleting t key stamp s hdelete hreads
  rcases ht.thread_cases t with heq | hfol
  · exact hold (heq ▸ hdelete) (heq ▸ hreads)
  · rcases hfol.delete with hnone | hsame | ⟨key', rfl, hq⟩
    · rw [hdelete] at hnone
      cases hnone
    · rcases hfol.reads with hnone | hsame' | ⟨key', s', r, he, hr, hq⟩
      · rw [hreads] at hnone
        cases hnone
      · exact hold (hsame ▸ hdelete) (hsame' ▸ hreads)
      · -- the thread was in a `Delete` when it was called
        have hno := hserial.not_calls (.inr ⟨key', he⟩) t
        rw [calls_of_delete (hsame ▸ hdelete)] at hno
        cases hno
    · rcases hfol.reads with hnone | hsame' | ⟨key'', s', r, he, hr, hq'⟩
      · rw [hreads] at hnone
        cases hnone
      · have hno := hserial rfl t
        rw [calls_of_reads (hsame' ▸ hreads)] at hno
        cases hno
      · rw [hdelete] at hq
        cases hq
        rw [hreads] at hq'
        cases hq'
        rcases he with he | he
        · cases he
        · cases he
          obtain ⟨-, hindex, -⟩ := aquire_eq_some hr
          rw [ht.mapStep.lastPut_eq nofun]
          exact (h.index key s hindex).1

theorem erasing_step (hserial : Serial n e)
    (hs : step L isMaster n e = some n') (t : ι) (x : κ × Option Nat)
    (s : Slot) (herased : (n'.threads t).erased? = some x)
    (hreads : (n'.threads t).reads = some s) (key : κ) :
    n'.index key ≠ some s := by
  have ht := trans_of_step hs
  intro hindex
  have hback (hreads : (n.threads t).reads = some s) :
      n.index key = some s :=
    ht.mapStep.index_of (h.alone.no_insert (calls_of_reads hreads)
      fun p hp => by rw [hp] at hreads; cases hreads) hindex
  rcases ht.thread_cases t with heq | hfol
  · exact h.erasing t x s (heq ▸ herased) (heq ▸ hreads) key
      (hback (heq ▸ hreads))
  · rcases hfol.reads with hnone | hsame' | ⟨key', s', r, he, hr, hq⟩
    · rw [hreads] at hnone
      cases hnone
    · rw [hsame'] at hreads
      have hindex' := hback hreads
      rcases hfol.erased with hnone | hsame | ⟨key', s', stamp, hp, -, hq, hno⟩
      · rw [herased] at hnone
        cases hnone
      · exact h.erasing t x s (hsame ▸ herased) hreads key hindex'
      · -- the key has just been taken off the index
        rw [hp] at hreads
        cases hreads
        obtain ⟨b, hlast⟩ := (h.index key s hindex').1
        obtain ⟨b', hlast'⟩ := h.deleting t key' stamp s (by rw [hp]; rfl)
          (by rw [hp]; rfl)
        rw [h.key_eq hlast hlast'] at hindex
        exact hno hindex
    · have hno := hserial.not_calls (.inr ⟨key', he⟩) t
      rcases hfol.erased with hnone | hsame | ⟨key'', s'', stamp, hp, -, -, -⟩
      · rw [herased] at hnone
        cases hnone
      · rw [calls_of_delete (delete_of_erased (hsame ▸ herased))] at hno
        cases hno
      · rw [hp] at hno
        cases hno

theorem held_step (hl : Placed n loc) (hs : step L isMaster n e = some n')
    (t : ι) (s : Slot) (hreads : (n'.threads t).reads = some s) :
    Held n' s := by
  have ht := trans_of_step hs
  have hold (hreads' : (n.threads t).reads = some s) : Held n' s := by
    rcases (h.held t s hreads').trans hl ht with hheld | ⟨u, r, rfl, hu⟩
    · exact hheld
    · have hut : u = t :=
        h.alone u t (by rw [hu]; exact calls_release r s)
          (calls_of_reads hreads')
      subst hut
      rw [reads_release hs hu] at hreads
      cases hreads
  rcases ht.thread_cases t with heq | hfol
  · exact hold (heq ▸ hreads)
  · rcases hfol.reads with hnone | hsame | ⟨key, s', r, he, hr, hq⟩
    · rw [hreads] at hnone
      cases hnone
    · exact hold (hsame ▸ hreads)
    · rw [hreads] at hq
      cases hq
      exact held_of_aquire hs he hr

/-- What has been put last goes off the index once it is in UnderFs, or by a
    `Delete` that goes on to the end. -/
theorem lost_step (hletGo : LetGo (Evicted n) n) (hl : Placed n loc)
    (hfresh : Fresh isMaster n e) (hs : step L isMaster n e = some n')
    (key : κ) (s : Slot) (b : β)
    (hlast : n'.history.lastPut key = some (s, b)) :
    n'.index key = some s ∨ n'.history.erased key = true ∨ s ∈ n'.flushed ∨
      ∃ t stamp, (n'.threads t).erased? = some (key, stamp) := by
  have ht := trans_of_step hs
  have hold (hlast : n.history.lastPut key = some (s, b))
      (herased : n.history.erased key = true → n'.history.erased key = true)
      (hindex : n.index key = some s → n'.index key = some s ∨
        n'.history.erased key = true ∨ s ∈ n'.flushed ∨
          ∃ t stamp, (n'.threads t).erased? = some (key, stamp)) :
      n'.index key = some s ∨ n'.history.erased key = true ∨ s ∈ n'.flushed ∨
        ∃ t stamp, (n'.threads t).erased? = some (key, stamp) := by
    rcases h.lost key s b hlast with hin | hgone | hflushed | ⟨t, stamp, hp⟩
    · exact hindex hin
    · exact .inr (.inl (herased hgone))
    · exact .inr (.inr (.inl (ht.flushed_mono hflushed)))
    · rcases erased_of_step hs hp with hq | hdone
      · exact .inr (.inr (.inr ⟨t, stamp, hq⟩))
      · exact .inr (.inl hdone)
  cases ht.mapStep with
  | same hsame hlast' herased =>
      refine hold (hlast' ▸ hlast) (herased key) fun hin => .inl ?_
      rw [hsame]
      exact hin
  | inserted t p he hp hq hinsert hhistory =>
      subst he
      rw [hhistory] at hlast
      by_cases hkey : key = p.key
      · left
        subst hkey
        change Function.update n.history.lastPut p.key
          (some (p.slot, p.value)) p.key = some (s, b) at hlast
        rw [Function.update_self] at hlast
        cases hlast
        rw [hinsert, Function.update_self, hfresh.1 p hp, Option.getD_none]
      · have hput : n.history.lastPut key = some (s, b) :=
          (Function.update_of_ne hkey ..).symm.trans hlast
        refine hold hput (fun hgone => ?_) fun hin => .inl ?_
        · rw [hhistory]
          exact (Function.update_of_ne hkey ..).trans hgone
        · rw [hinsert, Function.update_of_ne hkey]
          exact hin
  | removed key' s' hindex hnone hhistory hwhy =>
      rw [hhistory] at hlast
      refine hold hlast (hhistory ▸ id) fun hin => ?_
      by_cases hkey : key = key'
      · subst hkey
        rw [hindex] at hin
        cases hin
        rcases hwhy with ⟨t, r, ref, hp, hr, hvalid⟩ | ⟨t, stamp, hp, hq⟩
        · -- the slice has left for UnderFs
          have hgone : Gone n s := by
            have hslice := (hl.fits s).slice
            rw [hl.at hp (o := .call .disk) rfl] at hslice
            exact Option.map_eq_some_iff.mp hslice
          rcases hletGo.gone s hgone with hflushed | ⟨r', hr', hinvalid⟩
          · exact .inr (.inr (.inl (ht.flushed_mono hflushed)))
          · rw [hr] at hr'
            cases hr'
            rw [hvalid] at hinvalid
            cases hinvalid
        · exact .inr (.inr (.inr ⟨t, stamp, by rw [hq]; rfl⟩))
      · left
        rw [hnone, Function.update_of_ne hkey]
        exact hin

end

theorem Mapped.step (h : Mapped n) (hletGo : LetGo (Evicted n) n)
    (hl : Placed n loc) (hserial : Serial n e) (hfresh : Fresh isMaster n e)
    (hs : step L isMaster n e = some n') : Mapped n' where
  alone := h.alone.trans hserial (trans_of_step hs)
  returned := h.returned.step hs
    (fun _ _ _ hw => hw.trans hl (trans_of_step hs))
    fun _ _ hkey hvalue => ⟨hkey, hvalue⟩
  alive := alive_step h hserial hl hs
  index := index_step h hfresh hs
  reading := reading_step h hs
  deleting := deleting_step h hserial hs
  erasing := erasing_step h hserial hs
  held := held_step h hl hs
  lost := lost_step h hletGo hl hfresh hs

/-- The places, the tiers and the map. -/
structure Settled (n : Node ι κ β) : Prop where
  placed : ∃ loc, Placed n loc
  letGo : LetGo (Evicted n) n
  truncated : Truncated n
  behind : Behind n
  copied : Copied n
  mapped : Mapped n

omit [DecidableEq ι] [DecidableEq κ] in
theorem settled_init : Settled (Node.init ι κ β) where
  placed := ⟨_, placed_init⟩
  letGo := ⟨nofun, nofun, nofun⟩
  truncated := ⟨nofun, nofun, nofun, fun _ => Nat.le_refl _⟩
  behind := ⟨nofun, nofun, nofun, fun _ => Nat.le_refl _⟩
  copied := nofun
  mapped := mapped_init

/-- **STEP**: a serial step that the condition allows keeps the invariant. -/
theorem Settled.step (h : Settled n) (hserial : Serial n e)
    (hfresh : Fresh isMaster n e) (hs : step L isMaster n e = some n') :
    Settled n' := by
  obtain ⟨loc, hl⟩ := h.placed
  have ht := trans_of_step hs
  have hmono : ∀ s, Evicted n s → Evicted n' s := fun s hs => hs.trans hl ht
  refine ⟨hl.trans ht, ?_, h.truncated.trans hl ht, h.behind.step hl hs,
    h.copied.trans hl ht, h.mapped.step h.letGo hl hserial hfresh hs⟩
  refine h.letGo.trans ht hmono ?_
  rintro t j s hp rfl (hflushed | ⟨r, hr, hinvalid | hstandby⟩)
  · exact .inl hflushed
  · exact hmono s (.inr ⟨r, hr, hinvalid⟩)
  · exact hmono s (hfresh.2 hstandby j s hp)

omit [DecidableEq ι] [DecidableEq κ] in
/-- **ANSWERS**: what the invariant says of a `Get`. -/
theorem Settled.lastWrite (h : Settled n) (hserial : Serial n e) :
    LastWrite n e := by
  obtain ⟨loc, hl⟩ := h.placed
  have hm := h.mapped
  cases e with
  | go t =>
      intro key s hp
      obtain ⟨b, hlast⟩ := hm.reading t key s hp
      obtain ⟨r, hr, hslice, -⟩ := hm.held t s (by rw [hp]; rfl)
      exact ⟨s, b, hlast, readSlice_eq hl h.behind h.truncated h.copied
        (hm.returned.last key s b hlast) hr hslice⟩
  | get t key =>
      intro hmiss
      cases hlast : n.history.lastPut key with
      | none => exact .inl rfl
      | some x =>
          obtain ⟨s, b⟩ := x
          right
          rcases hm.lost key s b hlast with hin | hgone | hflushed |
            ⟨u, stamp, hp⟩
          · right
            refine ⟨s, b, rfl, ?_⟩
            -- the slice has left its reference, but not the index
            obtain ⟨-, hvalid⟩ := hm.index key s hin
            have hwritten : ∃ r, n.refs s = some r := by
              obtain ⟨m, hrec, -⟩ := (hm.returned.last key s b hlast).keyed
              have hmemory := (hl.fits s).memory
              rw [hrec, ← (hl.fits s).slice, Option.isSome_map] at hmemory
              exact Option.isSome_iff_exists.mp hmemory.symm
            obtain ⟨r, hr⟩ := hwritten
            have hslice : r.slice = none := by
              by_contra hthere
              have htrue : r.valid = true := by
                cases hv : r.valid with
                | true => rfl
                | false => exact absurd ⟨r, hr, hv⟩ hvalid
              simp only [Node.aquire, hin, hr] at hmiss
              rw [if_pos ⟨hthere, htrue⟩] at hmiss
              cases hmiss
            exact (h.letGo.gone s ⟨r, hr, hslice⟩).resolve_right hvalid
          · exact .inl hgone
          · exact .inr ⟨s, b, rfl, hflushed⟩
          · have hno := hserial rfl u
            rw [calls_of_delete (delete_of_erased hp)] at hno
            cases hno
  | _ => exact trivial

/-- **LAST WRITE WINS**: in every run of calls that are made one after another,
    with evictions at any time, as long as no `Put` that succeeds finds a slice
    in the index under its key, and a standby gives up only what the master has
    done with. -/
theorem last_write_wins (L : Layout) (isMaster : Bool)
    (es : List (Event ι κ β))
    (hes : Along (step L isMaster)
      (fun n e => Serial n e ∧ Fresh isMaster n e) (Node.init ι κ β) es) :
    Along (step L isMaster) LastWrite (Node.init ι κ β) es := by
  have hboth : Along (step L isMaster)
      (fun n e => (Serial n e ∧ Fresh isMaster n e) ∧ LastWrite n e)
      (Node.init ι κ β) es := by
    refine (along_iff_along (I := Settled) ?_ ?_ es _ settled_init).mpr hes
    · intro n e h
      exact ⟨fun hg => hg.1, fun hg => ⟨hg, h.lastWrite hg.1⟩⟩
    · intro n e n' h hg hs
      exact h.step hg.1 hg.2 hs
  exact along_of_invariant (I := fun _ => True) (fun _ _ _ _ _ => trivial)
    (fun _ _ _ hg => hg.2) es _ trivial hboth

/-! ## Two runs -/

/-- The conditions, evaluated. -/
def serialCall (n : Node Bool Nat Nat) (e : Event Bool Nat Nat) : Bool :=
  !e.isCall || !(n.threads true).calls && !(n.threads false).calls

def freshIndex (n : Node Bool Nat Nat) : Event Bool Nat Nat → Bool
  | .go t =>
      match n.threads t with
      | .insert p => (n.index p.key).isNone
      | _ => true
  | _ => true

theorem serial_of_eval (n : Node Bool Nat Nat) (e : Event Bool Nat Nat)
    (h : serialCall n e = true) : Serial n e := by
  intro hcall t
  rw [serialCall, hcall, Bool.not_true, Bool.false_or, Bool.and_eq_true_iff,
    Bool.not_eq_true', Bool.not_eq_true'] at h
  cases t with
  | true => exact h.1
  | false => exact h.2

theorem fresh_of_eval (n : Node Bool Nat Nat) (e : Event Bool Nat Nat)
    (h : freshIndex n e = true) : Fresh true n e := by
  cases e with
  | go t =>
      refine ⟨fun p hp => ?_, nofun⟩
      simp only [freshIndex, hp] at h
      exact Option.isNone_iff_eq_none.mp h
  | _ => exact trivial

/-- Thread `true` puts another value under key 7. -/
def putSevenAgain : List (Event Bool Nat Nat) :=
  [.put true ⟨⟨0, 1⟩, 7, 71, .memBack, true⟩, .go true, .go true, .go true]

/-- Key 7 is put again after it has been deleted. -/
theorem last_write_wins_deleted :
    Along (step bytes true) LastWrite (Node.init Bool Nat Nat)
      (putSeven ++ deleteSeven ++ putSevenAgain ++
        [.get true 7, .go true]) := by
  refine last_write_wins bytes true _ (along_of_alongB
    (b := fun n e => serialCall n e && freshIndex n e) ?_ _ _ ?_)
  · intro n e h
    obtain ⟨hserial, hfresh⟩ := Bool.and_eq_true_iff.mp h
    exact ⟨serial_of_eval n e hserial, fresh_of_eval n e hfresh⟩
  · decide +kernel

/-- The second `Put` has returned, and a `Get` finds the first value. -/
theorem first_write_stays :
    ¬ ∀ es : List (Event Bool Nat Nat),
      Along (step bytes true) Serial (Node.init Bool Nat Nat) es →
      Along (step bytes true) LastWrite (Node.init Bool Nat Nat) es := by
  intro hall
  have hserial : Along (step bytes true) Serial (Node.init Bool Nat Nat)
      (putSeven ++ putSevenAgain ++ [.get true 7] ++ [.go true]) :=
    along_of_alongB serial_of_eval _ _ (by decide +kernel)
  have hrun : (runFrom (step bytes true) (Node.init Bool Nat Nat)
      (putSeven ++ putSevenAgain ++ [.get true 7])).map (fun n =>
        ((n.threads true).get?, n.history.lastPut 7, n.readSlice ⟨0, 0⟩)) =
      some (some (7, ⟨0, 0⟩), some (⟨0, 1⟩, 71), some 70) := by
    decide +kernel
  obtain ⟨n, hn, heq⟩ := Option.map_eq_some_iff.mp hrun
  obtain ⟨hget, heq⟩ := Prod.mk.inj heq
  obtain ⟨hlast, hread⟩ := Prod.mk.inj heq
  have hp : n.threads true = .read 7 ⟨0, 0⟩ := read_of_get hget
  obtain ⟨s, b, hlast', hread'⟩ :=
    ((along_append.mp (hall _ hserial)).2 n hn).1 7 ⟨0, 0⟩ hp
  rw [hlast] at hlast'
  cases hlast'
  rw [hread] at hread'
  cases hread'

end UbsIo.Wcache
