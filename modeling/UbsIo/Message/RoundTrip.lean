import UbsIo.Message.Blocks

/-! # The request codec round trip

    What the encoders pack into blocks comes out of the decoders unchanged and
    in order, each block fits, and the results come back to the items they
    belong to. -/

namespace UbsIo.Message

open UbsIo.Lib UbsIo.Cache

variable {c : Config} {kind : Kind} {supply : Nat → Option (RawBlock c)}

/-! ## The encoder -/

/-- How the items are divided: a block that holds `cur` already, up to
    `offset`, takes items until one does not fit. -/
def pack (c : Config) : Nat → List Fields → List Fields → List (List Fields)
  | _, cur, [] => [cur]
  | offset, cur, f :: fs =>
      if offset + f.len > c.ioCtxBuffLen then
        cur :: pack c (ioDataRequestLen + f.len) [f] fs
      else pack c (offset + f.len) (cur ++ [f]) fs

/-- The blocks handed out by the first `n` allocations. -/
def allocated (supply : Nat → Option (RawBlock c)) (n : Nat) : List Addr :=
  (List.range n).filterMap fun i => (supply i).map (·.addr)

theorem allocated_succ_none {n : Nat} (h : supply n = none) :
    allocated supply (n + 1) = allocated supply n := by
  simp [allocated, List.range_succ, h]

theorem allocated_succ_some {n : Nat} {b : RawBlock c}
    (h : supply n = some b) :
    allocated supply (n + 1) = allocated supply n ++ [b.addr] := by
  simp [allocated, List.range_succ, h]

theorem fits_of_not_tooLarge {f : Fields} (hf : f.Sound kind)
    (h : ¬ TooLarge c kind f) :
    ioDataRequestLen + f.len ≤ c.ioCtxBuffLen := by
  have hge := c.buffLen_ge
  have hk := f.key.short
  rw [maxKeySize] at hk
  rw [ioDataRequestLen, Fields.len, ioDescriptionLen]
  by_cases hdel : kind = .delete
  · rw [hf.empty hdel, List.length_nil]
    omega
  · have hle : f.key.bytes.length + 1 + f.value.length ≤
        c.ioCtxBuffLen - ioctxHeaderLen :=
      Nat.not_lt.mp fun hlt => h ⟨hdel, hlt⟩
    rw [ioctxHeaderLen] at hle
    omega

/-- An item that fits is added to the block. -/
theorem encodeSingleKV_building {s : EncodeBufferState} {l : List Slot}
    {f : Fields} (h : Building c kind s l) (hf : f.Sound kind)
    (hfit : s.offset + f.len ≤ c.ioCtxBuffLen) :
    ∃ buff x, encodeSingleKV c kind s.buff s.offset f =
        some (.ok, buff, s.offset + f.len) ∧ x.fields = f ∧
      x.result = code .max ∧ Building c kind
        { s with
          buff
          offset := s.offset + f.len
          curItemNum := s.curItemNum + 1 } (l ++ [x]) := by
  obtain ⟨head, rest, hbuff, hhead⟩ := h.buff
  have hoff : (head ++ images l).length = s.offset := by
    rw [List.length_append, hhead, h.offset]
  rw [← hoff] at hfit
  obtain ⟨addr, hcall⟩ := encodeSingleKV_eq hbuff h.length hfit hf.empty
    hf.nonempty
  rw [hoff] at hcall hfit
  obtain ⟨x, hx⟩ : ∃ x, x = Slot.mk f (code .max) addr := ⟨_, rfl⟩
  rw [← hx] at hcall
  have hxf : x.fields = f := by rw [hx]
  have hxr : x.result = code .max := by rw [hx]
  refine ⟨_, x, hcall, hxf, hxr, ⟨head, rest.drop f.len, ?_, hhead⟩, ?_, ?_,
    ?_, ?_⟩
  · rw [images_append]
    simp only [images_cons, List.append_assoc]
    rfl
  · have hsum := h.length
    rw [hbuff] at hsum
    simp only [List.length_append, List.length_drop, x.length_image,
      hxf] at hsum ⊢
    have hlen : f.len ≤ rest.length := by
      rw [h.offset] at hfit
      rw [hhead] at hsum
      omega
    omega
  · simp only [h.offset, images_append, images_cons, List.length_append,
      x.length_image, hxf, Nat.add_assoc]
    rfl
  · simp [h.curItemNum]
  · intro y hy
    rcases List.mem_append.mp hy with hy | hy
    · exact h.ok y hy
    · rw [List.mem_singleton.mp hy]
      refine ⟨by rw [hxf]; exact hf, ?_⟩
      have hle := c.buffLen_le
      rw [Fields.len] at hfit
      rw [hxf]
      omega

/-- **THE ENCODER**: it answers `MMS_OK` with all items in blocks, or an item is
    larger than a block, or a block could not be had; and the blocks it gives
    back are those it has got. -/
theorem encodeLoop_spec : ∀ (fs : List Fields) {s : EncodeBufferState}
    {l : List Slot} {ctxItems : List IOCtxItem} {done : List (List Slot)}
    {asked : Nat}, Building c kind s l → s.offset ≤ c.ioCtxBuffLen →
    List.Forall₂ (Finished c kind) ctxItems done →
    ctxItems.map (·.addr) ++ [s.addr] = allocated supply asked →
    (∀ f ∈ fs, f.Sound kind) →
    ∃ out, encodeLoop c kind supply s ctxItems asked fs = some out ∧
      out.ctxItems.map (·.addr) = allocated supply out.asked ∧
      (out.ret = .ok ∧ (∀ f ∈ fs, ¬ TooLarge c kind f) ∧
          (∃ ls, List.Forall₂ (Finished c kind) out.ctxItems (done ++ ls) ∧
            ls.map (List.map Slot.fields) =
              pack c s.offset (l.map Slot.fields) fs) ∨
        out.ret = .invalidParam ∧ (∃ f ∈ fs, TooLarge c kind f) ∨
        out.ret = .allocFail ∧ ∃ i, i < out.asked ∧ supply i = none) := by
  intro fs
  induction fs with
  | nil =>
      intro s l ctxItems done asked h hfit hdone haddr _
      obtain ⟨item, hitem, hia, hfin⟩ := finishRequestBlock_eq h hfit
      refine ⟨⟨.ok, ctxItems ++ [item], asked⟩, ?_, ?_, Or.inl ⟨rfl, ?_, ?_⟩⟩
      · simp only [encodeLoop, hitem, Option.bind_eq_bind, Option.bind_some]
      · rw [List.map_append, List.map_singleton, hia, haddr]
      · intro f hf
        cases hf
      · refine ⟨[l], ?_, rfl⟩
        exact List.rel_append hdone (List.Forall₂.cons hfin List.Forall₂.nil)
  | cons f fs ih =>
      intro s l ctxItems done asked h hfit hdone haddr hsound
      have hf := hsound f (List.mem_cons_self ..)
      have hfs := fun x hx => hsound x (List.mem_cons_of_mem _ hx)
      by_cases hlarge : TooLarge c kind f
      · refine ⟨⟨.invalidParam, ctxItems ++ [s.item], asked⟩, ?_, ?_,
          Or.inr (Or.inl ⟨rfl, f, List.mem_cons_self .., hlarge⟩)⟩
        · rw [encodeLoop, if_pos hlarge]
        · rw [List.map_append, List.map_singleton]
          exact haddr
      have hone := fits_of_not_tooLarge hf hlarge
      by_cases hover : s.offset + f.len > c.ioCtxBuffLen
      · obtain ⟨item, hitem, hia, hfin⟩ := finishRequestBlock_eq h hfit
        have hdone' := List.rel_append hdone
          (List.Forall₂.cons hfin List.Forall₂.nil)
        cases hb : supply asked with
        | none =>
            refine ⟨⟨.allocFail, ctxItems ++ [item], asked + 1⟩, ?_, ?_,
              Or.inr (Or.inr ⟨rfl, asked, Nat.lt_succ_self _, hb⟩)⟩
            · rw [encodeLoop, if_neg hlarge, if_pos hover]
              simp only [hitem, hb, Option.bind_eq_bind, Option.bind_some]
            · rw [List.map_append, List.map_singleton, hia, haddr,
                allocated_succ_none hb]
        | some b =>
            obtain ⟨s', hs', hsa, hstart⟩ := startBlock_eq kind b
            have hoff : s'.offset = ioDataRequestLen := hstart.offset
            obtain ⟨buff, x, hcall, hxf, -, hbuild⟩ := encodeSingleKV_building
              hstart hf (by rw [hoff]; exact hone)
            obtain ⟨out, hrun, hout, hcases⟩ := ih hbuild
              (by show s'.offset + f.len ≤ _; rw [hoff]; exact hone) hdone'
              (by
                show _ ++ [s'.addr] = _
                rw [List.map_append, List.map_singleton, hia, haddr, hsa,
                  allocated_succ_some hb])
              hfs
            refine ⟨out, ?_, hout, ?_⟩
            · rw [encodeLoop, if_neg hlarge, if_pos hover]
              simp only [hitem, hb, hs', hcall, hrun, Option.bind_eq_bind,
                Option.bind_some]
            · rcases hcases with ⟨hok, hall, ls, hls, hpack⟩ |
                ⟨hret, y, hy, hylarge⟩ | hfail
              · refine Or.inl ⟨hok, ?_, l :: ls, ?_, ?_⟩
                · exact List.forall_mem_cons.mpr ⟨hlarge, hall⟩
                · rw [List.append_assoc] at hls
                  exact hls
                · rw [List.map_cons, hpack, pack, if_pos hover, hoff]
                  simp only [List.map_append, List.map_cons, hxf]
                  rfl
              · exact Or.inr (Or.inl ⟨hret, y, List.mem_cons_of_mem _ hy,
                  hylarge⟩)
              · exact Or.inr (Or.inr hfail)
      · obtain ⟨buff, x, hcall, hxf, -, hbuild⟩ := encodeSingleKV_building h hf
          (Nat.not_lt.mp hover)
        obtain ⟨out, hrun, hout, hcases⟩ := ih hbuild (Nat.not_lt.mp hover)
          hdone haddr hfs
        refine ⟨out, ?_, hout, ?_⟩
        · rw [encodeLoop, if_neg hlarge, if_neg hover]
          simp only [hcall, hrun, Option.bind_eq_bind, Option.bind_some]
        · rcases hcases with ⟨hok, hall, ls, hls, hpack⟩ |
            ⟨hret, y, hy, hylarge⟩ | hfail
          · refine Or.inl ⟨hok, ?_, ls, hls, ?_⟩
            · exact List.forall_mem_cons.mpr ⟨hlarge, hall⟩
            · rw [hpack, pack, if_neg hover, List.map_append]
              simp only [List.map_cons, hxf]
              rfl
          · exact Or.inr (Or.inl ⟨hret, y, List.mem_cons_of_mem _ hy, hylarge⟩)
          · exact Or.inr (Or.inr hfail)

/-- The same for a whole call. -/
theorem encodeRequest_spec (supply : Nat → Option (RawBlock c))
    (fs : List Fields) (hsound : ∀ f ∈ fs, f.Sound kind) :
    ∃ out, encodeRequest c kind supply fs = some out ∧
      out.ctxItems.map (·.addr) = allocated supply out.asked ∧
      (out.ret = .ok ∧ (∀ f ∈ fs, ¬ TooLarge c kind f) ∧
          (∃ ls, List.Forall₂ (Finished c kind) out.ctxItems ls ∧
            ls.map (List.map Slot.fields) = pack c ioDataRequestLen [] fs) ∨
        out.ret = .invalidParam ∧ (∃ f ∈ fs, TooLarge c kind f) ∨
        out.ret = .allocFail ∧ ∃ i, i < out.asked ∧ supply i = none) := by
  cases hb : supply 0 with
  | none =>
      refine ⟨⟨.allocFail, [], 1⟩, by simp [encodeRequest, hb], ?_,
        Or.inr (Or.inr ⟨rfl, 0, Nat.one_pos, hb⟩)⟩
      simp [allocated, List.range_succ, hb]
  | some b =>
      obtain ⟨s, hs, hsa, hstart⟩ := startBlock_eq kind b
      have hoff : s.offset = ioDataRequestLen := hstart.offset
      have hfit : s.offset ≤ c.ioCtxBuffLen := by
        have hge := c.buffLen_ge
        rw [hoff, ioDataRequestLen]
        omega
      obtain ⟨out, hrun, hout, hcases⟩ := encodeLoop_spec fs hstart hfit
        List.Forall₂.nil
        (show [].map IOCtxItem.addr ++ [s.addr] = allocated supply 1 by
          simp [allocated, List.range_succ, hb, hsa])
        hsound
      rw [hoff] at hcases
      refine ⟨out, ?_, hout, hcases⟩
      simp only [encodeRequest, hb, hs, hrun, Option.bind_eq_bind,
        Option.bind_some]

/-! ## Back again -/

/-- How many items the vector of a decoder holds. -/
def Config.maxItemNum (c : Config) : Kind → Nat
  | .put => c.maxPutItemNum
  | .update => c.maxUpdateItemNum
  | .delete => c.maxDeleteItemNum

/-- A block cannot hold more items than a decoder takes. -/
theorem Finished.length_le {item : IOCtxItem} {l : List Slot}
    (h : Finished c kind item l) : l.length ≤ c.maxItemNum kind := by
  have hfits := h.fits
  rw [h.reqLen] at hfits
  have hitem : ∀ x ∈ l, ioDescriptionLen + 2 ≤ x.fields.len := by
    intro x _
    have hk := x.fields.key.nonempty
    rw [Fields.len]
    omega
  have hvalue : kind ≠ .delete → ∀ x ∈ l, ioDescriptionLen + 3 ≤
      x.fields.len := by
    intro hkind x hx
    have hk := x.fields.key.nonempty
    have hv := (h.ok x hx).nonempty hkind
    rw [Fields.len]
    omega
  have hput : kind ≠ .delete → l.length ≤ c.maxPutItemNum := by
    intro hkind
    have hall := length_images_ge l (hvalue hkind)
    rw [Config.maxPutItemNum, Nat.le_div_iff_mul_le (by decide)]
    rw [ioDescriptionLen] at hall ⊢
    omega
  cases kind with
  | put => exact hput (by decide)
  | update => exact hput (by decide)
  | delete =>
      have hall := length_images_ge l hitem
      show l.length ≤ c.maxDeleteItemNum
      rw [Config.maxDeleteItemNum, Nat.le_div_iff_mul_le (by decide)]
      rw [ioDescriptionLen] at hall ⊢
      omega

/-- **THE DECODER**: it accepts a finished block and finds its items. -/
theorem Finished.decode {item : IOCtxItem} {l : List Slot}
    (h : Finished c kind item l) :
    decodeRequest c kind (c.maxItemNum kind) item.buff item.reqLen =
      some (.ok (decoded ioDataRequestLen l)) := by
  obtain ⟨crc, hread, hcrc⟩ := h.crc
  obtain ⟨head, rest, hbuff, hhead⟩ := h.buff
  have hloop := decodeLoop_images l head hbuff h.ok
    (show head.length + (images l).length ≤ item.reqLen by
      rw [hhead, h.reqLen])
  rw [hhead] at hloop
  have hsame : ¬ (c.gCrcSwitch = true ∧
      crc ≠ c.crc32 (crcRange item.buff item.reqLen)) := by
    rintro ⟨hon, hne⟩
    exact hne (hcrc hon)
  simp only [decodeRequest, h.num, hread, Option.bind_eq_bind,
    Option.bind_some, if_neg (Nat.not_lt.mpr h.length_le), if_neg hsame,
    hloop]

/-- The number of items stands in the header. -/
theorem readNum_congr {head tail tail' : Bytes}
    (hhead : head.length = ioDataRequestLen) :
    readNum (head ++ tail) = readNum (head ++ tail') := by
  obtain ⟨p, n, rfl, hp⟩ := exists_split
    (show 36 ≤ head.length by rw [hhead]; decide)
  rw [List.length_append, hp, ioDataRequestLen] at hhead
  have hn : n.length = 4 := by omega
  have hread : ∀ t : Bytes, readAt (p ++ n ++ t) numAt 4 = some n :=
    fun t => readAt_eq p t rfl hp hn
  rw [readNum, readNum, hread, hread]

/-- Results stored in a block are results of its items. -/
theorem Carries.store {item : IOCtxItem} {l : List Slot}
    (h : Carries kind item l) {results : List UInt32}
    (hlen : results.length = l.length) :
    ∃ buff, storeResults item.buff
        ((decoded ioDataRequestLen l).map (·.resultAt)) results = some buff ∧
      Carries kind { item with buff }
        (l.zipWith Slot.withResult results) := by
  obtain ⟨head, rest, hbuff, hhead⟩ := h.buff
  have hstore := storeResults_images l results head item.buff hbuff hlen
  rw [hhead] at hstore
  refine ⟨_, hstore, ⟨head, rest, rfl, hhead⟩, ?_, ?_⟩
  · have hnum := h.num
    rw [hbuff, List.append_assoc] at hnum
    rw [List.length_zipWith, hlen, Nat.min_self, ← hnum, List.append_assoc]
    exact readNum_congr hhead
  · intro x hx
    obtain ⟨i, hi, rfl⟩ := List.mem_iff_getElem.mp hx
    rw [List.getElem_zipWith]
    have hmem := h.ok (l.get ⟨i, by
      rw [List.length_zipWith] at hi; omega⟩) (List.get_mem ..)
    exact ⟨⟨hmem.empty, hmem.nonempty⟩, hmem.short⟩

/-- `FillResults` finds the items of all blocks, in order. -/
theorem fillResults_carries {σ : Type} {fillFunc : σ → Nat → IoLocDesc → σ}
    {items : List IOCtxItem} {ls : List (List Slot)}
    (h : List.Forall₂ (Carries kind) items ls) : ∀ (curIndex : Nat) (t : σ),
    fillResults fillFunc (kind ≠ .delete) curIndex items t =
      some (curIndex + ls.flatten.length,
        fillAll fillFunc curIndex ls.flatten t) := by
  induction h with
  | nil => exact fun _ _ => rfl
  | @cons item l items ls hitem _ ih =>
      intro curIndex t
      obtain ⟨head, rest, hbuff, hhead⟩ := hitem.buff
      have hblock := fillBlock_images fillFunc l head curIndex t
        hbuff hitem.ok
      rw [hhead] at hblock
      simp only [fillResults, hitem.num, Option.bind_eq_bind,
        Option.bind_some, hblock, ih]
      rw [List.flatten_cons, List.length_append, fillAll_append,
        Nat.add_assoc]

theorem modify_middle {α : Type} (f : α → α) (a : α) (post : List α) :
    ∀ pre : List α,
      (pre ++ a :: post).modify pre.length f = pre ++ f a :: post := by
  intro pre
  induction pre with
  | nil => rfl
  | cons x pre ih =>
      rw [List.cons_append, List.length_cons, List.modify_succ_cons, ih]
      rfl

/-- The result pointers of the items of a block. -/
def pointers (l : List Slot) : List Nat :=
  (decoded ioDataRequestLen l).map (·.resultAt)

theorem length_decoded : ∀ (l : List Slot) (offset : Nat),
    (decoded offset l).length = l.length := by
  intro l
  induction l with
  | nil => exact fun _ => rfl
  | cons s l ih =>
      intro offset
      rw [decoded, List.length_cons, ih, List.length_cons]

/-- A decoded item has what was encoded. -/
structure Matches (d : DecodeItem) (s : Slot) : Prop where
  key : d.key = s.fields.key.bytes
  value : d.value = s.fields.value
  offset : d.offset = s.fields.offset
  version : d.version = s.fields.version

/-- The smallest blocks, without CRC. -/
def smallBlocks : Config where
  ioCtxBuffLen := 1024
  gCrcSwitch := false
  crc32 _ := 0
  memMaxLen := 2 ^ 31 - 1
  buffLen_ge := by decide
  buffLen_le := by decide
  memMaxLen_ge := by decide

theorem letter_nonempty : 0 < ([97] : Bytes).length := by decide

theorem letter_short : ([97] : Bytes).length < maxKeySize := by decide

end UbsIo.Message
