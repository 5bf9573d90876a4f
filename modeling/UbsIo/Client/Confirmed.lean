import UbsIo.Client.Model
import UbsIo.Message.RoundTrip

/-! # Confirmed writes

    A result of a write is honest if it is `MMS_OK` only where the server has
    answered `MMS_OK` to the last request for every block.  `SendSingleReq`
    looks at the response of the first attempt; `FailHandle` does not look at
    the response of a retry.  So the results are honest as long as no retry
    comes through with a response other than `MMS_OK`. -/

namespace UbsIo.Client

open UbsIo.Lib UbsIo.Cache UbsIo.Message

/-- The last exchange went well, and the server answered `MMS_OK`. -/
def Call.Confirmed (call : Call) : Prop :=
  call.last.ret = code .ok ∧ call.last.rsp = code .ok

/-- No retry comes through with another response. -/
def Call.Plain (call : Call) : Prop :=
  ∀ a ∈ call.retries, a.ret = code .ok → a.rsp = code .ok

instance (call : Call) : Decidable call.Plain :=
  inferInstanceAs (Decidable (∀ a ∈ call.retries, _ → _))

theorem code_eq_ok {ret : BResult} (h : code ret = code .ok) : ret = .ok := by
  cases ret <;> first | rfl | exact absurd h (by decide)

theorem done_eq_some {α β : Type} {rest : List α} {b b' : β}
    (h : done rest b = some b') : rest = [] ∧ b' = b := by
  rw [done] at h
  split at h
  · rename_i hrest
    exact ⟨List.isEmpty_iff.mp hrest, (Option.some.inj h).symm⟩
  · cases h

/-! ## One block -/

variable {mIoTimeOut startTime : Nat} {ret r : Code} {updates : List Update}
  {retries : List Attempt} {c c' : KvClient} {req : IoCtrlRequest}
  {requests requests' : List IoCtrlRequest} {call : Call}

/-- The version does not change what has been sent. -/
theorem updateClientPtVersion_log : ∀ {updates : List Update}
    {retryCount : Nat} {c : KvClient},
    updateClientPtVersion retryCount updates c = some (r, c') →
    c'.history = c.history ∧ c'.blocks = c.blocks := by
  intro updates
  induction updates with
  | nil =>
      intro retryCount c h
      cases h
  | cons u rest ih =>
      intro retryCount c h
      rw [updateClientPtVersion] at h
      split at h
      · obtain ⟨-, heq⟩ := done_eq_some h
        cases heq
        exact ⟨rfl, rfl⟩
      · split at h
        · obtain ⟨-, heq⟩ := done_eq_some h
          cases heq
          exact ⟨rfl, rfl⟩
        · dsimp only at h
          split at h
          · have hrest := ih h
            exact hrest
          · obtain ⟨-, heq⟩ := done_eq_some h
            cases heq
            exact ⟨rfl, rfl⟩

/-- What comes out of the version part: an error, or the client with the same
    log. -/
theorem refreshPtVersion_spec
    {out : Code × KvClient ⊕ KvClient × IoCtrlRequest}
    (h : refreshPtVersion ret updates c req = some out) :
    (∃ updateRet c', out = .inl (updateRet, c') ∧ updateRet ≠ code .ok ∧
        c'.history = c.history ∧ c'.blocks = c.blocks) ∨
      ∃ c' req', out = .inr (c', req') ∧
        c'.history = c.history ∧ c'.blocks = c.blocks := by
  rw [refreshPtVersion] at h
  split at h
  · obtain ⟨⟨updateRet, c'⟩, hupdate, h⟩ := Option.bind_eq_some_iff.mp h
    have hlog := updateClientPtVersion_log hupdate
    dsimp only at h
    split at h
    · rename_i hne
      exact .inl ⟨updateRet, c', (Option.some.inj h).symm, hne, hlog⟩
    · exact .inr ⟨c', _, (Option.some.inj h).symm, hlog⟩
  · obtain ⟨-, rfl⟩ := done_eq_some h
    exact .inr ⟨c, req, rfl, rfl, rfl⟩

theorem not_isContinue_ok : ¬ isContinue (code .ok) := by decide

/-- A transport that went well ends the loop, whatever the response. -/
theorem failHandle_ok
    (h : failHandle mIoTimeOut startTime (code .ok) updates retries c req
      requests = some (r, c', requests')) :
    retries = [] ∧ r = code .ok := by
  unfold failHandle at h
  split at h
  · cases h
  · rename_i updateRet c₁ heq
    rw [refreshPtVersion, if_neg (by decide)] at heq
    cases (done_eq_some heq).2
  · rw [if_neg not_isContinue_ok] at h
    obtain ⟨hnil, heq⟩ := done_eq_some h
    exact ⟨hnil, congrArg Prod.fst heq⟩

/-- **FAILHANDLE** answers `MMS_OK` if and only if a retry comes through, which
    is the last one then. -/
theorem failHandle_spec : ∀ {retries : List Attempt} {ret : Code}
    {updates : List Update} {c : KvClient} {req : IoCtrlRequest}
    {requests : List IoCtrlRequest}, ret ≠ code .ok →
    failHandle mIoTimeOut startTime ret updates retries c req requests =
      some (r, c', requests') →
    (r = code .ok ↔ ∃ a ∈ retries, a.ret = code .ok) ∧
    ∀ a ∈ retries, a.ret = code .ok → retries.getLast? = some a := by
  intro retries
  induction retries with
  | nil =>
      intro ret updates c req requests hne h
      refine ⟨⟨?_, ?_⟩, nofun⟩
      · rintro rfl
        exfalso
        unfold failHandle at h
        split at h
        · cases h
        · rename_i updateRet c₁ heq
          rcases refreshPtVersion_spec heq with
            ⟨_, _, hout, hupdate, -⟩ | ⟨_, _, hout, -⟩
          · cases hout
            exact hupdate (congrArg Prod.fst (done_eq_some h).2).symm
          · cases hout
        · split at h
          · dsimp only at h
            split at h
            · exact hne (congrArg Prod.fst (done_eq_some h).2).symm
            · cases h
          · exact hne (congrArg Prod.fst (done_eq_some h).2).symm
      · rintro ⟨a, ha, -⟩
        cases ha
  | cons a rest ih =>
      intro ret updates c req requests hne h
      unfold failHandle at h
      split at h
      · cases h
      · cases (done_eq_some h).1
      · split at h
        · dsimp only at h
          split at h
          · cases (done_eq_some h).1
          · by_cases hok : a.ret = code .ok
            · rw [hok] at h
              obtain ⟨rfl, rfl⟩ := failHandle_ok h
              refine ⟨⟨fun _ => ⟨a, List.mem_singleton_self a, hok⟩,
                fun _ => rfl⟩, ?_⟩
              intro b hb _
              rw [List.mem_singleton.mp hb]
              rfl
            · obtain ⟨hiff, hlast⟩ := ih hok h
              constructor
              · rw [hiff]
                constructor
                · rintro ⟨b, hb, hbok⟩
                  exact ⟨b, List.mem_cons_of_mem _ hb, hbok⟩
                · rintro ⟨b, hb, hbok⟩
                  rcases List.mem_cons.mp hb with rfl | hb
                  · exact absurd hbok hok
                  · exact ⟨b, hb, hbok⟩
              · intro b hb hbok
                rcases List.mem_cons.mp hb with rfl | hb
                · exact absurd hbok hok
                · rw [List.getLast?_cons, hlast b hb hbok]
                  rfl
        · cases (done_eq_some h).1

theorem failHandle_log : ∀ {retries : List Attempt} {ret : Code}
    {updates : List Update} {c : KvClient} {req : IoCtrlRequest}
    {requests : List IoCtrlRequest},
    failHandle mIoTimeOut startTime ret updates retries c req requests =
      some (r, c', requests') →
    c'.history = c.history ∧ c'.blocks = c.blocks := by
  intro retries
  induction retries with
  | nil =>
      intro ret updates c req requests h
      unfold failHandle at h
      split at h
      · cases h
      · rename_i heq
        rcases refreshPtVersion_spec heq with ⟨_, _, hout, -, hlog⟩ |
          ⟨_, _, hout, -⟩
        · cases hout
          cases (done_eq_some h).2
          exact hlog
        · cases hout
      · rename_i heq
        rcases refreshPtVersion_spec heq with ⟨_, _, hout, -⟩ |
          ⟨_, _, hout, hlog⟩
        · cases hout
        cases hout
        split at h
        · dsimp only at h
          split at h
          · cases (done_eq_some h).2
            exact hlog
          · cases h
        · cases (done_eq_some h).2
          exact hlog
  | cons a rest ih =>
      intro ret updates c req requests h
      unfold failHandle at h
      split at h
      · cases h
      · cases (done_eq_some h).1
      · rename_i heq
        rcases refreshPtVersion_spec heq with ⟨_, _, hout, -⟩ |
          ⟨_, _, hout, hlog⟩
        · cases hout
        cases hout
        split at h
        · dsimp only at h
          split at h
          · cases (done_eq_some h).1
          · have hrest := ih h
            exact ⟨hrest.1.trans hlog.1, hrest.2.trans hlog.2⟩
        · cases (done_eq_some h).1

/-- **ONE BLOCK** is reported as written only if the server has confirmed it,
    if and only if no retry comes through with another response. -/
theorem sendSingleReq_spec
    (h : sendSingleReq mIoTimeOut req call c = some (r, c', requests)) :
    (r = code .ok → call.Confirmed) ↔ call.Plain := by
  rw [sendSingleReq] at h
  split at h
  · rename_i hfirst
    split at h
    · obtain ⟨hnil, -⟩ := done_eq_some h
      have hlast : call.last = call.first := by
        rw [Call.last, hnil]
        rfl
      constructor
      · intro _ a ha
        rw [hnil] at ha
        cases ha
      · intro _ _
        rw [Call.Confirmed, hlast]
        exact hfirst
    · cases h
  · rename_i hfirst
    have hne : (if call.first.ret = code .ok then call.first.rsp
        else call.first.ret) ≠ code .ok := by
      split
      · rename_i hret
        exact fun hrsp => hfirst ⟨hret, hrsp⟩
      · assumption
    obtain ⟨hiff, hlast⟩ := failHandle_spec hne h
    have hcall : ∀ a ∈ call.retries, a.ret = code .ok → call.last = a := by
      intro a ha hok
      rw [Call.last, List.getLastD_eq_getLast?, hlast a ha hok]
      rfl
    constructor
    · intro hconf a ha hok
      have hlast := hconf (hiff.mpr ⟨a, ha, hok⟩)
      rw [Call.Confirmed, hcall a ha hok] at hlast
      exact hlast.2
    · intro hplain hr
      obtain ⟨a, ha, hok⟩ := hiff.mp hr
      rw [Call.Confirmed, hcall a ha hok]
      exact ⟨hok, hplain a ha hok⟩

theorem sendSingleReq_log
    (h : sendSingleReq mIoTimeOut req call c = some (r, c', requests)) :
    c'.history = c.history ∧ c'.blocks = c.blocks := by
  rw [sendSingleReq] at h
  split at h
  · split at h
    · cases (done_eq_some h).2
      exact ⟨rfl, rfl⟩
    · cases h
  · have hlog := failHandle_log h
    exact hlog

/-! ## All blocks -/

/-- What one block is to be: reported as written only if it is. -/
def Sent.Honest (e : Sent) : Prop :=
  e.ret = code .ok → e.call.Confirmed

variable {cfg : Config} {σ : Type} {numaId : UInt16} {opCode : MmsOpCode}

/-- What `HandleSendReqs` adds to the history. -/
theorem handleSendReqs_spec : ∀ {items : List IOCtxItem} {calls : List Call}
    {c : KvClient},
    handleSendReqs mIoTimeOut numaId opCode items calls c = some (r, c') →
    ∃ l : List Sent, c'.history = c.history ++ l ∧ c'.blocks = c.blocks ∧
      l.map Sent.call = calls ∧
      (∀ e ∈ l, e.Honest ↔ e.call.Plain) ∧
      (r = code .ok → l.map Sent.item = items ∧ ∀ e ∈ l, e.ret = code .ok) := by
  intro items
  induction items with
  | nil =>
      intro calls c h
      obtain ⟨rfl, heq⟩ := done_eq_some h
      cases heq
      exact ⟨[], (List.append_nil _).symm, rfl, rfl, nofun, fun _ => ⟨rfl, nofun⟩⟩
  | cons item items ih =>
      intro calls c h
      cases calls with
      | nil => cases h
      | cons call calls =>
          obtain ⟨⟨ret, c₁, requests⟩, hsend, h⟩ :=
            Option.bind_eq_some_iff.mp h
          have hone := sendSingleReq_spec hsend
          obtain ⟨hhist, hblocks⟩ := sendSingleReq_log hsend
          dsimp only at h
          split at h
          · rename_i hne
            obtain ⟨rfl, heq⟩ := done_eq_some h
            cases heq
            refine ⟨[⟨item, requests, call, r⟩], ?_, hblocks, rfl, ?_, ?_⟩
            · rw [hhist]
            · intro e he
              rw [List.mem_singleton.mp he]
              exact hone
            · exact fun hr => absurd hr hne
          · rename_i hok
            obtain ⟨l, hl, hlb, hcalls, hhonest, hlast⟩ := ih h
            refine ⟨⟨item, requests, call, ret⟩ :: l, ?_, ?_, ?_, ?_, ?_⟩
            · rw [hl]
              show c₁.history ++ [_] ++ l = _
              rw [hhist, List.append_assoc]
              rfl
            · exact hlb.trans hblocks
            · rw [List.map_cons, hcalls]
            · exact List.forall_mem_cons.mpr ⟨hone, hhonest⟩
            · intro hr
              obtain ⟨hitems, hall⟩ := hlast hr
              refine ⟨by rw [List.map_cons, hitems], ?_⟩
              exact List.forall_mem_cons.mpr ⟨not_not.mp hok, hall⟩

/-- What the loop over the items adds to the history: the calls of all rounds,
    and no block is left out if the result is `MMS_OK`. -/
theorem sendItems_spec {op : Operation cfg σ} {s' : σ} :
    ∀ {batches : List (Batch cfg)} {curItemIndex : Nat} {result : Code}
      {s : σ} {c : KvClient},
    sendItems op mIoTimeOut numaId batches curItemIndex result s c =
      some (r, s', c') →
    ∃ (l : List Sent) (bs : List IOCtxItem), c'.history = c.history ++ l ∧
      c'.blocks = c.blocks ++ bs ∧
      l.map Sent.call = batches.flatMap Batch.calls ∧
      (∀ e ∈ l, e.Honest ↔ e.call.Plain) ∧
      (r = code .ok → result = code .ok ∧ l.map Sent.item = bs ∧
        ∀ e ∈ l, e.ret = code .ok) := by
  intro batches
  induction batches with
  | nil =>
      intro curItemIndex result s c h
      rw [sendItems] at h
      split at h
      · cases h
      · cases h
        exact ⟨[], [], (List.append_nil _).symm, (List.append_nil _).symm, rfl,
          nofun, fun hr => ⟨hr, rfl, nofun⟩⟩
  | cons batch rest ih =>
      intro curItemIndex result s c h
      rw [sendItems] at h
      split at h
      swap
      · cases h
      obtain ⟨out, -, h⟩ := Option.bind_eq_some_iff.mp h
      split at h
      · -- the blocks are sent
        obtain ⟨⟨ret, c₁⟩, hsend, h⟩ := Option.bind_eq_some_iff.mp h
        obtain ⟨next, s₁, h⟩ : ∃ next s₁, sendItems op mIoTimeOut numaId rest
            next (if ret = code .ok then result else ret) s₁ c₁ =
            some (r, s', c') := by
          by_cases hret : ret = code .ok
          · simp only [if_pos hret] at h ⊢
            obtain ⟨⟨next, s₁⟩, -, h⟩ := Option.bind_eq_some_iff.mp h
            exact ⟨next, s₁, h⟩
          · simp only [if_neg hret] at h ⊢
            obtain ⟨⟨next, s₁⟩, -, h⟩ := Option.bind_eq_some_iff.mp h
            exact ⟨next, s₁, h⟩
        obtain ⟨l₁, hl₁, hb₁, hcalls₁, hhonest₁, hlast₁⟩ :=
          handleSendReqs_spec hsend
        obtain ⟨l, bs, hl, hb, hcalls, hhonest, hlast⟩ := ih h
        refine ⟨l₁ ++ l, out.ctxItems ++ bs, ?_, ?_, ?_, ?_, ?_⟩
        · rw [hl, hl₁, List.append_assoc]
        · rw [hb, hb₁, List.append_assoc]
        · rw [List.map_append, hcalls₁, hcalls, List.flatMap_cons]
        · intro e he
          rcases List.mem_append.mp he with he | he
          · exact hhonest₁ e he
          · exact hhonest e he
        · intro hr
          obtain ⟨hresult, hitems, hall⟩ := hlast hr
          -- a result that is `MMS_OK` has never been anything else
          split at hresult
          · rename_i hret
            obtain ⟨hitems₁, hall₁⟩ := hlast₁ hret
            refine ⟨hresult, by rw [List.map_append, hitems₁, hitems], ?_⟩
            intro e he
            rcases List.mem_append.mp he with he | he
            · exact hall₁ e he
            · exact hall e he
          · rename_i hret
            exact absurd hresult hret
      · -- the item is not sent
        rename_i hnot
        obtain ⟨s₁, -, h⟩ := Option.bind_eq_some_iff.mp h
        obtain ⟨c₁, hdone, hrest⟩ := Option.bind_eq_some_iff.mp h
        obtain ⟨hnil, hc⟩ := done_eq_some hdone
        rw [hc] at hrest
        obtain ⟨l, bs, hl, hb, hcalls, hhonest, hlast⟩ := ih hrest
        refine ⟨l, bs, hl, hb, ?_, hhonest, ?_⟩
        · rw [hcalls, List.flatMap_cons, hnil, List.nil_append]
        · intro hr
          exact absurd (code_eq_ok (hlast hr).1) fun hok => hnot (.inl hok)

/-! ## The operations -/

/-- A new log. -/
def KvClient.start (ptVersion : UInt64) (time : Nat) : KvClient :=
  ⟨ptVersion, time, [], []⟩

/-- Every block that is reported as written is confirmed, and so are all blocks
    if the operation is reported as done. -/
def Honest (ret : Code) (c : KvClient) : Prop :=
  (∀ e ∈ c.history, e.Honest) ∧
  (ret = code .ok → c.history.map Sent.item = c.blocks ∧
    ∀ e ∈ c.history, e.call.Confirmed)

/-- No retry of the operation comes through with another response. -/
def AllPlain (batches : List (Batch cfg)) : Prop :=
  ∀ batch ∈ batches, ∀ call ∈ batch.calls, call.Plain

theorem honest_iff {op : Operation cfg σ} {batches : List (Batch cfg)}
    {result : Code} {s s' : σ} {ptVersion : UInt64} {time : Nat}
    (h : sendItems op mIoTimeOut numaId batches 0 (code .ok) s
      (.start ptVersion time) = some (result, s', c'))
    (hr : r = code .ok → result = code .ok) :
    Honest r c' ↔ AllPlain batches := by
  obtain ⟨l, bs, hl, hb, hcalls, hhonest, hlast⟩ := sendItems_spec h
  change c'.history = l at hl
  change c'.blocks = bs at hb
  have hmem : ∀ batch ∈ batches, ∀ call ∈ batch.calls,
      ∃ e ∈ l, e.call = call := by
    intro batch hbatch call hcall
    have hin : call ∈ l.map Sent.call := by
      rw [hcalls]
      exact List.mem_flatMap.mpr ⟨batch, hbatch, hcall⟩
    exact List.mem_map.mp hin
  constructor
  · rintro ⟨hall, -⟩ batch hbatch call hcall
    obtain ⟨e, he, rfl⟩ := hmem batch hbatch call hcall
    exact (hhonest e he).mp (hall e (by rw [hl]; exact he))
  · intro hplain
    have hall : ∀ e ∈ l, e.Honest := by
      intro e he
      have hin : e.call ∈ batches.flatMap Batch.calls := by
        rw [← hcalls]
        exact List.mem_map_of_mem he
      obtain ⟨batch, hbatch, hcall⟩ := List.mem_flatMap.mp hin
      exact (hhonest e he).mpr (hplain batch hbatch e.call hcall)
    refine ⟨by rw [hl]; exact hall, ?_⟩
    intro hok
    obtain ⟨-, hitems, hrets⟩ := hlast (hr hok)
    rw [hl, hb]
    exact ⟨hitems, fun e he => hall e he (hrets e he)⟩

theorem mmsPut_honest {w : Setting} {itemList : List PutItems}
    {get : Nat → Code × UInt64} {batches : List (Batch cfg)}
    {cells cells' : List Cell × List (Option UInt64)} {ptVersion : UInt64}
    {time : Nat}
    (h : mmsPut w itemList get batches cells (.start ptVersion time) =
      some (r, cells', c')) :
    Honest r c' ↔ AllPlain batches := by
  obtain ⟨⟨result, cells₁, c₁⟩, hsend, h⟩ := Option.bind_eq_some_iff.mp h
  obtain ⟨⟨ret, cells₂⟩, -, h⟩ := Option.bind_eq_some_iff.mp h
  cases h
  refine honest_iff hsend ?_
  intro hr
  split at hr
  · exact hr
  · rename_i hne
    exact absurd hr hne

/-- **CONFIRMED WRITES**: a block, and an operation, is reported as written only
    if the server has confirmed it, if and only if no retry comes through with
    another response. -/
theorem writes_confirmed (cfg : Config) (w : Setting) :
    (∀ (req : IoCtrlRequest) (call : Call) (c c' : KvClient) (r : Code)
      (requests : List IoCtrlRequest),
      sendSingleReq w.mIoTimeOut req call c = some (r, c', requests) →
      ((r = code .ok → call.Confirmed) ↔ call.Plain)) ∧
    ∀ (batches : List (Batch cfg)) (ptVersion : UInt64) (time : Nat) (r : Code)
      (c' : KvClient),
      (∀ itemList get cells cells',
        mmsPut w itemList get batches cells (.start ptVersion time) =
          some (r, cells', c') → (Honest r c' ↔ AllPlain batches)) ∧
      (∀ itemList cells cells',
        mmsUpdate w itemList batches cells (.start ptVersion time) =
          some (r, cells', c') → (Honest r c' ↔ AllPlain batches)) ∧
      (∀ itemList cells cells',
        mmsReplace w itemList batches cells (.start ptVersion time) =
          some (r, cells', c') → (Honest r c' ↔ AllPlain batches)) ∧
      ∀ itemList cells cells',
        mmsDelete w itemList batches cells (.start ptVersion time) =
          some (r, cells', c') → (Honest r c' ↔ AllPlain batches) := by
  refine ⟨fun _ _ _ _ _ _ h => sendSingleReq_spec h, ?_⟩
  intro batches ptVersion time r c'
  refine ⟨fun _ _ _ _ h => mmsPut_honest h, ?_, ?_, ?_⟩
  · intro itemList cells cells' h
    exact honest_iff h id
  · intro itemList cells cells' h
    exact honest_iff h id
  · intro itemList cells cells' h
    exact honest_iff h id

/-- The server is not ready at first, and then refuses. -/
def refusedRetry : Call :=
  ⟨⟨code .ok, code .innerRetry, 0, []⟩, [⟨code .ok, code .err, 0, []⟩]⟩

/-- The version of the client is too old at first. -/
def updatedRetry : Call :=
  ⟨⟨needUpdatePtVersion, 0, 0, [⟨code .netRetry, 0, 1⟩, ⟨code .ok, 2, 1⟩]⟩,
    [⟨code .ok, code .ok, 0, []⟩]⟩

/-- The deletion of one key. -/
def deleteLetter : DeleteItems :=
  ⟨⟨[97], letter_nonempty, letter_short⟩, 0⟩

def smallBlock (_ : Nat) : Option (RawBlock smallBlocks) :=
  some ⟨4096, List.replicate 1024 0, List.length_replicate⟩

/-- A request for a block. -/
def letterReq : IoCtrlRequest := ⟨.delete, 1, 0, 4096, 74⟩

/-- A deletion in one block. -/
def deleteWith (call : Call) : Option (Code × List Cell × KvClient) :=
  mmsDelete ⟨60, 0⟩ [deleteLetter] [⟨smallBlock, [call], id⟩] [some 0]
    (.start 1 0)

/-- Both `SendSingleReq` and `MmsDelete` answer `MMS_OK` though the server has
    refused the block. -/
theorem refused_retry_reported :
    (∃ c' requests, sendSingleReq 60 letterReq refusedRetry (.start 1 0) =
        some (code .ok, c', requests) ∧ ¬ refusedRetry.Confirmed) ∧
    ∃ cells c', deleteWith refusedRetry = some (code .ok, cells, c') ∧
      ∃ e ∈ c'.history, ¬ e.call.Confirmed := by
  have hnot : ¬ refusedRetry.Confirmed := fun h => absurd h.2 (by decide)
  refine ⟨⟨_, _, rfl, hnot⟩, ?_⟩
  have hrun : (deleteWith refusedRetry).any (fun out =>
      decide (out.1 = code .ok) &&
        decide (refusedRetry ∈ out.2.2.history.map Sent.call)) = true := by
    decide +kernel
  obtain ⟨⟨r, cells, c'⟩, hout, hcheck⟩ := (Option.any_eq_true _ _).mp hrun
  obtain ⟨hr, hmem⟩ := Bool.and_eq_true_iff.mp hcheck
  have hr : r = code .ok := of_decide_eq_true hr
  subst hr
  obtain ⟨e, he, hcall⟩ := List.mem_map.mp (of_decide_eq_true hmem)
  exact ⟨cells, c', hout, e, he, by rw [hcall]; exact hnot⟩

theorem writes_confirmed_updated :
    ∃ cells c', deleteWith updatedRetry = some (code .ok, cells, c') ∧
      c'.ptVersion = 2 ∧ Honest (code .ok) c' := by
  have hrun : (deleteWith updatedRetry).any (fun out =>
      decide (out.1 = code .ok) && decide (out.2.2.ptVersion = 2)) = true := by
    decide +kernel
  obtain ⟨⟨r, cells, c'⟩, hout, hcheck⟩ := (Option.any_eq_true _ _).mp hrun
  obtain ⟨hr, hversion⟩ := Bool.and_eq_true_iff.mp hcheck
  have hr : r = code .ok := of_decide_eq_true hr
  subst hr
  refine ⟨cells, c', hout, of_decide_eq_true hversion, ?_⟩
  obtain ⟨-, -, -, hdelete⟩ := (writes_confirmed smallBlocks ⟨60, 0⟩).2
    [⟨smallBlock, [updatedRetry], id⟩] 1 0 (code .ok) c'
  refine (hdelete _ _ _ hout).mpr ?_
  intro batch hbatch call hcall
  rw [List.mem_singleton.mp hbatch] at hcall
  rw [List.mem_singleton.mp hcall]
  decide

end UbsIo.Client
