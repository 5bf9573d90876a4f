import UbsIo.Cache.Recover
import UbsIo.Client.Get
import UbsIo.Server.Coverage
import UbsIo.Server.Local

/-! # The code of a call

    A single node has nobody else to ask: a handler is what opens the way to
    the items, the decoder, and the loop over the items.  Its code is that of
    the last item that does not pass.  The code of a call is `MMS_OK` exactly
    if all items pass; what passes is `MMS_OK`, and for a deletion a key that
    is not there. -/

namespace UbsIo.Server

open UbsIo.Lib UbsIo.Cache UbsIo.Message
open UbsIo.Client (Code resultAfterSend GetItem serverGet Returns)

/-! ## The handlers of a single node -/

/-- What `GetPtInfo`, `ApplyForSeqNo2Mst` and `NegoSeqNo2Slv` answer before the
    block is looked at. -/
inductive Gate where
  | opens
  | err
  | innerRetry
  | allocFail
  | keyConflict
deriving DecidableEq

def Gate.ret : Gate → BResult
  | .opens => .ok
  | .err => .err
  | .innerRetry => .innerRetry
  | .allocFail => .allocFail
  | .keyConflict => .keyConflict

/-- What one call of a handler meets. -/
structure Attempt where
  gate : Gate
  ptId : Nat
  grants : Nat → Grants
  seconds : Nat

/-- The memory, and how many handlers have been called. -/
abbrev Node := Mem × Nat

/-- What the local functions store for an item. -/
def answerOf (reply : Reply) : Answer :=
  ⟨code reply.ret, UInt64.ofNat (reply.valueAddr.getD 0)⟩

def keyOf (bytes : Bytes) : Option Key :=
  if h : 0 < bytes.length ∧ bytes.length < maxKeySize then
    some ⟨bytes, h.1, h.2⟩
  else none

def toPutItem (d : DecodeItem) : Option PutItem := do
  let key ← keyOf d.key
  if h : 0 < d.value.length then some ⟨key, d.value, d.version, h⟩ else none

def toUpdateItem (d : DecodeItem) : Option UpdateItem := do
  let key ← keyOf d.key
  if h : 0 < d.value.length then
    some ⟨key, d.value, d.offset.toNat, d.version, h⟩
  else none

def toDeleteItem (d : DecodeItem) : Option DeleteItem := do
  let key ← keyOf d.key
  some ⟨key, d.version⟩

variable {ι : Type}

/-- `HandlePutDefImpl` and its copies, without replicas: `run` is `PutLocal` or
    its copy from the decoded items on. -/
def handleDefImpl (c : Config) (kind : Kind) (toItem : DecodeItem → Option ι)
    (run : Nat → Mem → List (ι × Grants) → Option (BResult × List Reply × Mem))
    (attempts : Nat → Attempt) : Handle Node := fun w item =>
  let a := attempts w.2
  if a.gate ≠ .opens then
    some (code a.gate.ret, item, a.seconds, w.1, w.2 + 1)
  else do
    match ← decodeRequest c kind (c.maxItemNum kind) item.buff item.reqLen with
    | .error ret => some (code ret, item, a.seconds, w.1, w.2 + 1)
    | .ok ds => do
        let items ← ds.mapM toItem
        let (ret, replies, m) ← run a.ptId w.1
          (items.mapIdx fun i item => (item, a.grants i))
        let buff ← storeAnswers kind item.buff ds (replies.map answerOf)
        some (code ret, { item with buff }, a.seconds, m, w.2 + 1)

/-- The handler of a call, on a node that is serviceable. -/
def ListCall.handle (L : Layout) (c : Config) (attempts : Nat → Attempt) :
    ListCall → Handle Node
  | .put _ =>
      handleDefImpl c .put toPutItem (fun ptId m => putLocal L true ptId m)
        attempts
  | .update _ =>
      handleDefImpl c .update toUpdateItem
        (fun ptId m => updateLocal L true ptId m) attempts
  | .delete _ =>
      handleDefImpl c .delete toDeleteItem (fun _ m => deleteLocal L m)
        attempts
  | .replace _ =>
      handleDefImpl c .update toUpdateItem (fun ptId m => replaceLocal L ptId m)
        attempts

/-- What does not make a request fail. -/
def ListCall.passes : ListCall → BResult → Bool
  | .delete _ => fun ret => ret == .ok || ret == .keyNotExists
  | _ => fun ret => ret == .ok

/-- The same for codes. -/
def ListCall.Passes : ListCall → Code → Prop
  | .delete _, x => x = code .ok ∨ x = code .keyNotExists
  | _, x => x = code .ok

theorem code_injective {a b : BResult} (h : code a = code b) : a = b := by
  cases a <;> cases b <;> first | rfl | exact absurd h (by decide)

theorem code_eq_iff {a b : BResult} :
    code a = code b ↔ (a == b) = true := by
  rw [beq_iff_eq]
  exact ⟨code_injective, congrArg code⟩

theorem passes_code {r : ListCall} {ret : BResult} :
    r.Passes (code ret) ↔ r.passes ret = true := by
  cases r with
  | delete itemList =>
      show _ ∨ _ ↔ (ret == .ok || ret == .keyNotExists) = true
      rw [Bool.or_eq_true, code_eq_iff, code_eq_iff]
  | _ => exact code_eq_iff

theorem passes_ok (r : ListCall) : r.passes .ok = true := by
  cases r <;> rfl

/-! ## The loops over the items -/

/-- In order. -/
def InOrder (L : Layout) (m : Mem) : Prop := ∃ c, Inv L m c

/-- A call that comes back, and leaves the cache in order. -/
def Comes (L : Layout) (call : Option (Reply × Mem)) : Prop :=
  ∃ reply m', call = some (reply, m') ∧ InOrder L m'

variable {L : Layout} {m : Mem} {g : Grants}

theorem put_comes (h : InOrder L m) (para : PutPara)
    (hpos : 0 < para.value.length) : Comes L (put L m g para) := by
  obtain ⟨c, hinv⟩ := h
  rcases put_cases hinv g para hpos with
    ⟨e, -, hcall, -⟩ | ⟨-, -, m', x, hcall, hinv', -⟩ |
    ⟨e, r, -, -, hcall, -⟩
  · exact ⟨_, _, hcall, c, hinv⟩
  · exact ⟨_, _, hcall, hinv'⟩
  · exact ⟨_, _, hcall, c, hinv⟩

theorem update_comes (h : InOrder L m) (para : UpdatePara)
    (hpos : 0 < para.value.length) : Comes L (update L m g para) := by
  obtain ⟨c, hinv⟩ := h
  rcases update_cases hinv g para hpos with
    ⟨-, hcall⟩ | ⟨e, -, ⟨-, hcall⟩ | ⟨-, m', hcall, hinv', -⟩⟩
  · exact ⟨_, _, hcall, c, hinv⟩
  · exact ⟨_, _, hcall, c, hinv⟩
  · exact ⟨_, _, hcall, c, hinv'⟩

theorem delete_comes (h : InOrder L m) (k : Key) (version : UInt32) :
    Comes L (delete L m g k version) := by
  obtain ⟨c, hinv⟩ := h
  by_cases hrec : m.mIsRecovering = true
  · rcases delete_recovering_cases hinv g k version hrec with
      ⟨e, m', -, hcall, hinv', -⟩ |
      ⟨-, ⟨-, hcall⟩ | ⟨m', ptId, hcall, hinv', -⟩⟩
    · exact ⟨_, _, hcall, hinv'⟩
    · exact ⟨_, _, hcall, c, hinv⟩
    · exact ⟨_, _, hcall, hinv'⟩
  · rcases delete_cases hinv g k version (Bool.eq_false_iff.mpr hrec) with
      ⟨-, hcall⟩ | ⟨e, m', -, hcall, hinv', -⟩
    · exact ⟨_, _, hcall, c, hinv⟩
    · exact ⟨_, _, hcall, hinv'⟩

theorem replace_comes (h : InOrder L m) (para : ReplacePara)
    (hpos : 0 < para.value.length) : Comes L (replace L m g para) := by
  obtain ⟨c, hinv⟩ := h
  rcases replace_cases hinv g para hpos with
    ⟨-, ⟨-, e, -, hcall⟩ | ⟨-, m', hcall, hinv', -⟩⟩ |
    ⟨e, -, ⟨-, hcall⟩ | ⟨-, -, hcall⟩ | ⟨-, -, m', hcall, hinv', -⟩⟩
  · exact ⟨_, _, hcall, c, hinv⟩
  · exact ⟨_, _, hcall, hinv'⟩
  · exact ⟨_, _, hcall, c, hinv⟩
  · exact ⟨_, _, hcall, c, hinv⟩
  · exact ⟨_, _, hcall, hinv'⟩

/-- What a loop over items gives: a reply for each, and the code of the last
    one that does not pass. -/
structure Replies (L : Layout) (passes : BResult → Bool) (num : Nat)
    (result : BResult) (out : BResult × List Reply × Mem) : Prop where
  length : out.2.1.length = num
  inOrder : InOrder L out.2.2
  ret : out.1 = result ∧ (∀ reply ∈ out.2.1, passes reply.ret = true) ∨
    ∃ reply ∈ out.2.1, passes reply.ret = false ∧ out.1 = reply.ret

/-- **THE LOOP OVER THE ITEMS**, by induction on them. -/
theorem forItems_replies {call : Mem → ι → Grants → Option (Reply × Mem)}
    {passes : BResult → Bool}
    (hcall : ∀ m item g, InOrder L m → Comes L (call m item g)) :
    ∀ (items : List (ι × Grants)) (result : BResult) {m : Mem}, InOrder L m →
      ∃ out, forItems call passes result m items = some out ∧
        Replies L passes items.length result out := by
  intro items
  induction items with
  | nil =>
      intro result m h
      refine ⟨(result, [], m), rfl, rfl, h, .inl ⟨rfl, ?_⟩⟩
      intro reply hreply
      cases hreply
  | cons p rest ih =>
      intro result m h
      obtain ⟨item, g⟩ := p
      obtain ⟨reply, m', hone, h'⟩ := hcall m item g h
      obtain ⟨⟨ret, replies, m''⟩, hrest, hlen, hin, hret⟩ :=
        ih (if passes reply.ret then result else reply.ret) h'
      refine ⟨(ret, reply :: replies, m''), ?_, ?_, hin, ?_⟩
      · simp only [forItems, hone, hrest, Option.bind_eq_bind,
          Option.bind_some]
      · exact congrArg Nat.succ hlen
      · rcases hret with ⟨hsame, hall⟩ | ⟨last, hlast, hfail, hcode⟩
        · cases hpass : passes reply.ret with
          | true =>
              rw [hpass, if_pos rfl] at hsame
              exact .inl ⟨hsame, List.forall_mem_cons.mpr ⟨hpass, hall⟩⟩
          | false =>
              rw [hpass, if_neg Bool.false_ne_true] at hsame
              exact .inr ⟨reply, List.mem_cons_self .., hpass, hsame⟩
        · exact .inr ⟨last, List.mem_cons_of_mem _ hlast, hfail, hcode⟩

/-! ## What a handler gives -/

theorem mapM_total {α β : Type} {f : α → Option β} : ∀ {as : List α},
    (∀ a ∈ as, ∃ b, f a = some b) →
    ∃ bs, as.mapM f = some bs ∧ bs.length = as.length := by
  intro as
  induction as with
  | nil => exact fun _ => ⟨[], rfl, rfl⟩
  | cons a as ih =>
      intro h
      obtain ⟨b, hb⟩ := h a (List.mem_cons_self ..)
      obtain ⟨bs, hbs, hlen⟩ := ih fun x hx => h x (List.mem_cons_of_mem _ hx)
      refine ⟨b :: bs, ?_, congrArg Nat.succ hlen⟩
      simp only [List.mapM_cons, hb, hbs, Option.bind_eq_bind,
        Option.bind_some, Option.pure_def]

theorem keyOf_bytes (k : Key) : keyOf k.bytes = some k :=
  dif_pos ⟨k.nonempty, k.short⟩

/-- The items of a block can be taken for items of the operation. -/
def Reads (kind : Kind) (toItem : DecodeItem → Option ι) : Prop :=
  ∀ (d : DecodeItem) (k : Key), d.key = k.bytes →
    (kind ≠ .delete → 0 < d.value.length) → ∃ item, toItem d = some item

theorem toPutItem_reads : Reads .put toPutItem := by
  intro d k hkey hvalue
  have hpos : 0 < d.value.length := hvalue (by decide)
  refine ⟨⟨k, d.value, d.version, hpos⟩, ?_⟩
  simp only [toPutItem, hkey, keyOf_bytes, Option.bind_eq_bind,
    Option.bind_some, dif_pos hpos]

theorem toUpdateItem_reads : Reads .update toUpdateItem := by
  intro d k hkey hvalue
  have hpos : 0 < d.value.length := hvalue (by decide)
  refine ⟨⟨k, d.value, d.offset.toNat, d.version, hpos⟩, ?_⟩
  simp only [toUpdateItem, hkey, keyOf_bytes, Option.bind_eq_bind,
    Option.bind_some, dif_pos hpos]

theorem toDeleteItem_reads : Reads .delete toDeleteItem := by
  intro d k hkey _
  refine ⟨⟨k, d.version⟩, ?_⟩
  simp only [toDeleteItem, hkey, keyOf_bytes, Option.bind_eq_bind,
    Option.bind_some]

theorem reads_decoded {kind : Kind} {toItem : DecodeItem → Option ι}
    (h : Reads kind toItem) : ∀ {l : List Slot} (offset : Nat),
    (∀ s ∈ l, s.Ok kind) →
      ∀ d ∈ decoded offset l, ∃ item, toItem d = some item := by
  intro l
  induction l with
  | nil =>
      intro offset _ d hd
      cases hd
  | cons s l ih =>
      intro offset hok d hd
      rcases List.mem_cons.mp hd with rfl | hd
      · exact h _ s.fields.key rfl (hok s (List.mem_cons_self ..)).nonempty
      · exact ih _ (fun x hx => hok x (List.mem_cons_of_mem _ hx)) d hd

/-- The results of a block are those of the replies. -/
theorem results_answered (kind : Kind) : ∀ {l : List Slot}
    {replies : List Reply}, replies.length = l.length →
    (l.zipWith (Slot.answered kind) (replies.map answerOf)).map Slot.result
      = replies.map fun reply => code reply.ret := by
  intro l
  induction l with
  | nil =>
      intro replies hlen
      rw [List.eq_nil_of_length_eq_zero hlen]
      rfl
  | cons s l ih =>
      intro replies hlen
      cases replies with
      | nil => cases hlen
      | cons reply replies =>
          have hrest := ih (Nat.succ.inj hlen)
          rw [List.map_cons, List.zipWith_cons_cons, List.map_cons, hrest]
          rfl

/-- Some result of the block does not pass; so it is before a block is sent,
    since `MMS_MAX` does not. -/
def Refuses (r : ListCall) (l : List Slot) : Prop :=
  ∃ s ∈ l, ¬ r.Passes s.result

def Accepts (r : ListCall) (l : List Slot) : Prop :=
  ∀ s ∈ l, r.Passes s.result

/-- **A HANDLER** answers `MMS_OK` only if all results of the block pass, and
    otherwise one of them does not. -/
theorem handleDefImpl_handles (r : ListCall) {c : Config} {kind : Kind}
    {toItem : DecodeItem → Option ι}
    {run : Nat → Mem → List (ι × Grants) → Option (BResult × List Reply × Mem)}
    (hreads : Reads kind toItem)
    (hrun : ∀ ptId (items : List (ι × Grants)) {m : Mem}, InOrder L m →
      ∃ out, run ptId m items = some out ∧
        Replies L r.passes items.length .ok out)
    (attempts : Nat → Attempt) :
    Handles c kind (fun w : Node => InOrder L w.1) (Refuses r) (Accepts r)
      (fun ret => ¬ r.Passes ret)
      (handleDefImpl c kind toItem run attempts) := by
  intro w item l hI huse hQ
  -- a handler that does not get to the items leaves the block as it is
  have hstop : ∀ ret, r.passes ret = false →
      ∃ ret' item' seconds l' w',
        some (code ret, item, (attempts w.2).seconds, w.1, w.2 + 1)
          = some (ret', item', seconds, w') ∧ item'.addr = item.addr ∧
        InUse c kind item' l' ∧ l'.length = l.length ∧ InOrder L w'.1 ∧
        (ret' = code .ok → Accepts r l') ∧
        (ret' ≠ code .ok → ¬ r.Passes ret' ∧ Refuses r l') := by
    intro ret hret
    have hfail : ¬ r.Passes (code ret) := by
      rw [passes_code, hret]
      exact Bool.false_ne_true
    refine ⟨code ret, item, _, l, (w.1, w.2 + 1), rfl, rfl, huse, rfl, hI,
      ?_, fun _ => ⟨hfail, hQ⟩⟩
    intro hok
    rw [hok, passes_code] at hfail
    exact absurd (passes_ok r) hfail
  by_cases hgate : (attempts w.2).gate ≠ .opens
  · have hret : r.passes (attempts w.2).gate.ret = false := by
      cases hg : (attempts w.2).gate with
      | opens => exact absurd hg hgate
      | _ => cases r <;> rfl
    simp only [handleDefImpl, if_pos hgate]
    exact hstop _ hret
  rcases huse.decode with hdec | hdec
  · obtain ⟨items, hitems, hlen⟩ := mapM_total
      (reads_decoded hreads ioDataRequestLen huse.carries.ok)
    obtain ⟨⟨ret, replies, m'⟩, hout, hreplies⟩ := hrun (attempts w.2).ptId
      (items.mapIdx fun i item => (item, (attempts w.2).grants i)) hI
    have hnum : replies.length = l.length := by
      have hall := hreplies.length
      rw [List.length_mapIdx, hlen, length_decoded] at hall
      exact hall
    have hanswers : (replies.map answerOf).length = l.length := by
      rw [List.length_map, hnum]
    obtain ⟨buff, hstore, huse'⟩ := huse.store hanswers
    have hresults := results_answered kind hnum
    have hmem : ∀ reply ∈ replies, ∃ s ∈ l.zipWith (Slot.answered kind)
        (replies.map answerOf), s.result = code reply.ret := by
      intro reply hreply
      have hin : code reply.ret ∈ (l.zipWith (Slot.answered kind)
          (replies.map answerOf)).map Slot.result := by
        rw [hresults]
        exact List.mem_map_of_mem hreply
      exact List.mem_map.mp hin
    refine ⟨code ret, { item with buff }, (attempts w.2).seconds,
      l.zipWith (Slot.answered kind) (replies.map answerOf),
      (m', w.2 + 1), ?_, rfl, huse', ?_, hreplies.inOrder, ?_, ?_⟩
    · simp only [handleDefImpl, if_neg hgate, hdec, hitems, hout, hstore,
        Option.bind_eq_bind, Option.bind_some]
    · rw [List.length_zipWith, hanswers, Nat.min_self]
    · intro hok
      rcases hreplies.ret with ⟨-, hall⟩ | ⟨reply, -, hfail, hcode⟩
      · intro s hs
        have hin : s.result ∈ replies.map fun reply => code reply.ret := by
          rw [← hresults]
          exact List.mem_map_of_mem hs
        obtain ⟨reply, hreply, hsame⟩ := List.mem_map.mp hin
        rw [← hsame, passes_code]
        exact hall reply hreply
      · change ret = reply.ret at hcode
        rw [← hcode, code_injective hok, passes_ok] at hfail
        cases hfail
    · intro hne
      rcases hreplies.ret with ⟨hok, -⟩ | ⟨reply, hreply, hfail, hcode⟩
      · change ret = .ok at hok
        rw [hok] at hne
        exact absurd rfl hne
      · change ret = reply.ret at hcode
        have hbad : ¬ r.Passes (code reply.ret) := by
          rw [passes_code, hfail]
          exact Bool.false_ne_true
        obtain ⟨s, hs, hsame⟩ := hmem reply hreply
        refine ⟨?_, s, hs, ?_⟩
        · rw [hcode]
          exact hbad
        · rw [hsame]
          exact hbad
  · have hret : r.passes .crcErr = false := by
      cases r <;> rfl
    simp only [handleDefImpl, if_neg hgate, hdec, Option.bind_eq_bind,
      Option.bind_some]
    exact hstop _ hret

theorem handle_handles (L : Layout) (c : Config) (attempts : Nat → Attempt)
    (r : ListCall) :
    Handles c (r.driver c).kind (fun w : Node => InOrder L w.1) (Refuses r)
      (Accepts r) (fun ret => ¬ r.Passes ret) (r.handle L c attempts) := by
  cases r with
  | put itemList =>
      refine handleDefImpl_handles (.put itemList) toPutItem_reads ?_ attempts
      intro ptId items m h
      refine forItems_replies ?_ items .ok h
      intro m item g h
      obtain ⟨reply, m', hcall, h'⟩ := put_comes (g := g) h
        ⟨item.key, item.value, item.version.toUInt32, ptId, true⟩ item.nonempty
      refine ⟨{ reply with
        ret := if reply.ret = .putRepeat then .ok else reply.ret }, m', ?_, h'⟩
      simp only [putItem, if_true, hcall, Option.bind_eq_bind,
        Option.bind_some]
  | update itemList =>
      refine handleDefImpl_handles (.update itemList) toUpdateItem_reads ?_
        attempts
      intro ptId items m h
      refine forItems_replies ?_ items .ok h
      intro m item g h
      exact update_comes h _ item.nonempty
  | delete itemList =>
      have hrun : ∀ (ptId : Nat) (items : List (DeleteItem × Grants))
          {m : Mem}, InOrder L m → ∃ out, deleteLocal L m items = some out ∧
            Replies L (ListCall.delete itemList).passes items.length .ok
              out := by
        intro _ items m h
        refine forItems_replies ?_ items .ok h
        intro m item g h
        exact delete_comes h item.key item.version.toUInt32
      exact handleDefImpl_handles (.delete itemList) toDeleteItem_reads hrun
        attempts
  | replace itemList =>
      refine handleDefImpl_handles (.replace itemList) toUpdateItem_reads ?_
        attempts
      intro ptId items m h
      refine forItems_replies ?_ items .ok h
      intro m item g h
      exact replace_comes h _ item.nonempty

/-! ## Whole calls -/

/-- What the code of a call says of the results so far. -/
def Agrees (r : ListCall) (result : Code) (rs : List Code) : Prop :=
  result = code .ok ↔ ∀ x ∈ rs, r.Passes x

/-- A round keeps it. -/
theorem agrees_adds (r : ListCall) {result result' : Code} {rs new : List Code}
    (h : Agrees r result rs)
    (hadds : Adds (Refuses r) (Accepts r) (fun ret => ¬ r.Passes ret) result
      result' new) : Agrees r result' (rs ++ new) := by
  have hok : r.Passes (code .ok) := passes_code.mpr (passes_ok r)
  -- a result that does not pass goes with a code that is not `MMS_OK`
  have hbad : ∀ {x ret : Code}, ¬ r.Passes ret → x ∈ new → ¬ r.Passes x →
      Agrees r ret (rs ++ new) := by
    intro x ret hret hx hfail
    constructor
    · intro heq
      rw [heq] at hret
      exact absurd hok hret
    · intro hall
      exact absurd (hall x (List.mem_append.mpr (.inr hx))) hfail
  cases hadds with
  | sent ls hls =>
      have hnew : ∀ x ∈ ls.flatten.map Slot.result, r.Passes x := by
        intro x hx
        obtain ⟨s, hs, rfl⟩ := List.mem_map.mp hx
        obtain ⟨l, hl, hsl⟩ := List.mem_flatten.mp hs
        exact hls l hl s hsl
      refine h.trans ⟨fun hall x hx => ?_, fun hall x hx => ?_⟩
      · rcases List.mem_append.mp hx with hx | hx
        · exact hall x hx
        · exact hnew x hx
      · exact hall x (List.mem_append.mpr (.inl hx))
  | failed _ _ hF ls hls =>
      obtain ⟨l, hl, s, hs, hfail⟩ := hls
      refine hbad hF (List.mem_map_of_mem
        (List.mem_flatten.mpr ⟨l, hl, hs⟩)) ?_
      rw [resultAfterSend]
      split
      · exact hF
      · exact hfail
  | refused _ hret =>
      have hfail : ¬ r.Passes result' := by
        rcases hret with rfl | rfl
        · rw [passes_code]
          cases r <;> exact Bool.false_ne_true
        · rw [passes_code]
          cases r <;> exact Bool.false_ne_true
      exact hbad hfail (List.mem_singleton_self _) hfail

/-- The code of `Get`. -/
theorem lastFailure_ok : ∀ {itemList : List GetItem} {result : BResult},
    Client.lastFailure result itemList = .ok ↔
      result = .ok ∧ ∀ item ∈ itemList, item.result = .ok := by
  intro itemList
  induction itemList with
  | nil =>
      intro result
      exact ⟨fun h => ⟨h, fun _ hx => absurd hx List.not_mem_nil⟩, And.left⟩
  | cons item itemList ih =>
      intro result
      have hstep : Client.lastFailure result (item :: itemList)
          = Client.lastFailure
            (if item.result = .ok then result else item.result) itemList :=
        rfl
      rw [hstep, ih, List.forall_mem_cons, and_left_comm, ← and_assoc]
      refine and_congr_left fun _ => ?_
      by_cases hok : item.result = .ok
      · rw [if_pos hok]
        exact (and_iff_right hok).symm
      · rw [if_neg hok]
        exact ⟨fun h => absurd h hok, fun h => absurd h.1 hok⟩

/-- **CODES OF CALLS** at a serving single node: `Put`, `Update`, `Delete` and
    `Replace` return, and answer `MMS_OK` exactly if every item has `MMS_OK`,
    where a deleted item may have `MMS_KEY_NOT_EXISTS`; `Get` returns, and
    answers `MMS_OK` exactly if every item has `MMS_OK`. -/
theorem codes_agree (c : Config) (L : Layout) (m : Mem)
    (cm : SlotId → List Addr) (h : Inv L m cm) (mIoTimeOut : Nat)
    (attempts : Nat → Attempt) :
    (∀ (r : ListCall) (rounds : Nat → Round c) (first : Cells),
      Ready (r.driver c) first →
      ∃ (p : Progress Node) (cells : Cells) (rs : List Code),
        serverCall c true (r.handle L c attempts) mIoTimeOut r rounds (m, 0)
          first = some (p, cells) ∧ rs.length = r.itemNum ∧
        cells.1 = rs.map some ++ first.1.drop r.itemNum ∧
        (p.result = code .ok ↔ ∀ x ∈ rs, r.Passes x)) ∧
    ∀ (itemList : List GetItem) (itemNum : UInt32),
      itemList.length = itemNum.toNat → (∀ item ∈ itemList, item.Own) →
      ∃ (ret : BResult) (answered : List GetItem),
        Returns (serverGet L true m itemList itemNum) (ret, answered) ∧
        answered.length = itemList.length ∧
        (ret = .ok ↔ ∀ item ∈ answered, item.result = .ok) := by
  constructor
  · intro r rounds first hready
    have hsend := serverSend_sends mIoTimeOut (handle_handles L c attempts r)
    have hfresh : ∀ l : List Slot, l ≠ [] → (∀ s ∈ l, s.Fresh) →
        Refuses r l := by
      intro l hne hall
      obtain ⟨s, hs⟩ := List.exists_mem_of_ne_nil l hne
      refine ⟨s, hs, ?_⟩
      rw [hall s hs, passes_code]
      cases r <;> exact Bool.false_ne_true
    have hstart : Agrees r (code .ok) [] := by
      refine ⟨fun _ x hx => ?_, fun _ => rfl⟩
      cases hx
    obtain ⟨p, rs, hlen, -, -, hagrees, hdrive⟩ := drive_spec (R := Agrees r)
      (driver_good c r) hsend hfresh (fun h hadds => agrees_adds r h hadds)
      hstart rounds (w := (m, 0)) ⟨cm, h⟩
    obtain ⟨cells, hrun, hfilled⟩ := hdrive first hready
    rw [driver_itemNum] at hlen
    refine ⟨p, cells, rs, hrun, hlen, ?_, hagrees⟩
    rw [hfilled.results, after, hlen]
  · intro itemList itemNum hlen hown
    obtain ⟨answered, hall⟩ := Client.answers_of_own h hown
    have hnum : itemNum.toNat < 2 ^ 32 := itemNum.toNat_lt
    have hfirst : itemNum.toNat = ([] : List GetItem).length
        + itemList.length := by
      rw [hlen, List.length_nil, Nat.zero_add]
    refine ⟨Client.lastFailure .ok answered, answered,
      ⟨itemList.length + 1, Client.getLoop_spec hnum hall rfl hfirst⟩,
      hall.length_eq.symm, ?_⟩
    rw [lastFailure_ok]
    exact and_iff_right rfl

/-! ## A key that is not there -/

def deleteLetter : DeleteItems := ⟨keyLetter, 0⟩

/-- Rounds with a block of zeros for each allocation. -/
def zeroRounds (_ : Nat) : Round (crcBlocks true) := ⟨zeroBlocks true, fun _ => 5⟩

/-- Handlers that get to the items at once. -/
def openAttempts (_ : Nat) : Attempt := ⟨.opens, 0, fun _ => refused, 0⟩

/-- `Delete` of one key. -/
def deleteOne (m : Mem) : Option (Progress Node × Cells) :=
  serverCall (crcBlocks true) true
    ((ListCall.delete [deleteLetter]).handle twoBuckets (crcBlocks true)
      openAttempts)
    60 (.delete [deleteLetter]) zeroRounds (m, 0) ([some 0], [])

/-- `Delete` of a key that an empty cache does not have answers `MMS_OK`, with
    `MMS_KEY_NOT_EXISTS` for the item. -/
theorem delete_missing_answers_ok :
    ∃ p cells, deleteOne init = some (p, cells) ∧ p.result = code .ok ∧
      cells.1 = [some (code .keyNotExists)] ∧
      code .keyNotExists ≠ code .ok := by
  have hrun : (deleteOne init).map (fun out => (out.1.result, out.2.1))
      = some (code .ok, [some (code .keyNotExists)]) := by decide +kernel
  obtain ⟨⟨p, cells⟩, hcall, hout⟩ := Option.map_eq_some_iff.mp hrun
  exact ⟨p, cells, hcall, congrArg Prod.fst hout, congrArg Prod.snd hout,
    by decide⟩

theorem codes_agree_delete :
    ∃ cm, Inv twoBuckets init cm ∧
      ∃ (p : Progress Node) (cells : Cells) (rs : List Code),
        deleteOne init = some (p, cells) ∧ rs.length = 1 ∧
        cells.1 = rs.map some ++ [] ∧
        (p.result = code .ok ↔ ∀ x ∈ rs,
          x = code .ok ∨ x = code .keyNotExists) := by
  obtain ⟨cm, hinv⟩ := (serving_init twoBuckets).inv
  have hready : Ready ((ListCall.delete [deleteLetter]).driver (crcBlocks true))
      ([some 0], []) := by
    refine ⟨?_, ?_⟩
    · intro i hi
      have hzero : i = 0 := Nat.lt_one_iff.mp hi
      exact ⟨0, by rw [hzero]; rfl⟩
    · intro h
      cases h
  exact ⟨cm, hinv, (codes_agree (crcBlocks true) twoBuckets init cm hinv 60
    openAttempts).1 (.delete [deleteLetter]) zeroRounds ([some 0], []) hready⟩

end UbsIo.Server
