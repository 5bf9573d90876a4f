import UbsIo.Message.Retry

/-! # Blocks that have been handed over

    From an encoder to the walker that reads its results, a block changes in
    its results and addresses only.  It holds the items it was finished with,
    and is decoded into them or refused for its CRC. -/

namespace UbsIo.Message

open UbsIo.Lib UbsIo.Cache

variable {c : Config} {kind : Kind} {item : IOCtxItem} {l : List Slot}

/-- A block that was finished with these items, whatever results and addresses
    stand in it now. -/
def InUse (c : Config) (kind : Kind) (item : IOCtxItem) (l : List Slot) :
    Prop :=
  ∃ (first : IOCtxItem) (slots : List Slot) (head rest : Bytes),
    Finished c kind first slots ∧ first.buff = inUse head rest slots ∧
      head.length = ioDataRequestLen ∧
      l.map Slot.fields = slots.map Slot.fields ∧
      item = { first with buff := inUse head rest l }

theorem Finished.used (h : Finished c kind item l) : InUse c kind item l := by
  obtain ⟨head, rest, hbuff, hhead⟩ := h.buff
  refine ⟨item, l, head, rest, h, hbuff, hhead, rfl, ?_⟩
  rw [inUse, ← hbuff]

theorem ok_of_fields {l l' : List Slot} (hok : ∀ x ∈ l, x.Ok kind)
    (hl : l'.map Slot.fields = l.map Slot.fields) : ∀ x ∈ l', x.Ok kind := by
  intro x hx
  have hmem : x.fields ∈ l.map Slot.fields := by
    rw [← hl]
    exact List.mem_map_of_mem hx
  obtain ⟨y, hy, hfields⟩ := List.mem_map.mp hmem
  have hoky := hok y hy
  exact ⟨hfields ▸ hoky.toSound, hfields ▸ hoky.short⟩

theorem length_of_fields {l l' : List Slot}
    (hl : l'.map Slot.fields = l.map Slot.fields) : l'.length = l.length := by
  rw [← List.length_map Slot.fields, hl, List.length_map]

theorem InUse.carries (h : InUse c kind item l) : Carries kind item l := by
  obtain ⟨first, slots, head, rest, hfin, hbuff, hhead, hl, rfl⟩ := h
  refine ⟨⟨head, rest, rfl, hhead⟩, ?_, ok_of_fields hfin.ok hl⟩
  have hnum := hfin.num
  rw [hbuff, inUse, List.append_assoc] at hnum
  show readNum (inUse head rest l) = _
  rw [inUse, List.append_assoc, readNum_congr hhead, hnum,
    length_of_fields hl]

/-- A block in use gives its items, or is refused for its CRC. -/
theorem InUse.decode (h : InUse c kind item l) :
    decodeRequest c kind (c.maxItemNum kind) item.buff item.reqLen
        = some (.ok (decoded ioDataRequestLen l)) ∨
      decodeRequest c kind (c.maxItemNum kind) item.buff item.reqLen
        = some (.error .crcErr) := by
  have hcarries := h.carries
  obtain ⟨first, slots, head, rest, hfin, hbuff, hhead, hl, rfl⟩ := h
  by_cases hon : c.gCrcSwitch = true
  · rcases hfin.decode_inUse hon hbuff hhead hl with ⟨-, hdec⟩ | ⟨-, hdec⟩
    · rw [hhead] at hdec
      exact .inl hdec
    · exact .inr hdec
  · -- without CRC the block might just have been finished
    obtain ⟨crc, hcrc, -⟩ := hfin.crc
    have hread : readCrc (inUse head rest l) = some crc := by
      rw [hbuff, inUse, List.append_assoc] at hcrc
      rw [inUse, List.append_assoc, readCrc_congr hhead, hcrc]
    have hnow : Finished c kind
        { first with buff := inUse head rest l } l :=
      { hcarries with
        crc := ⟨crc, hread, fun h => absurd h hon⟩
        reqLen := by
          show first.reqLen = _
          rw [hfin.reqLen, length_images_congr hl]
        fits := hfin.fits }
    exact .inl hnow.decode

/-- What `PutLocal`, `UpdateLocal` or `DeleteLocal` stores for the items of a
    block is what the block then holds. -/
theorem InUse.store (h : InUse c kind item l) {answers : List Answer}
    (hlen : answers.length = l.length) :
    ∃ buff, storeAnswers kind item.buff (decoded ioDataRequestLen l) answers
        = some buff ∧
      InUse c kind { item with buff }
        (l.zipWith (Slot.answered kind) answers) := by
  obtain ⟨first, slots, head, rest, hfin, hbuff, hhead, hl, rfl⟩ := h
  have hstore : storeAnswers kind (inUse head rest l)
      (decoded head.length l) answers = some (inUse head rest
        (l.zipWith (Slot.answered kind) answers)) :=
    storeAnswers_images l answers head hlen
  rw [hhead] at hstore
  refine ⟨_, hstore, first, slots, head, rest, hfin, hbuff, hhead, ?_, rfl⟩
  exact (fields_answered _ hlen).trans hl

/-- An execution on a block, with an answer for each of its items. -/
def execute (c : Config) (kind : Kind) (item : IOCtxItem)
    (answer : Nat → Answer) : Option IOCtxItem := do
  let num ← readNum item.buff
  let buff ← executeLocal c kind item.reqLen item.buff
    ((List.range num).map answer)
  some { item with buff }

/-- An execution leaves the items of the block. -/
theorem InUse.execute (h : InUse c kind item l) (answer : Nat → Answer) :
    ∃ item' l', Message.execute c kind item answer = some item' ∧
      item'.addr = item.addr ∧ InUse c kind item' l' ∧
      l'.map Slot.fields = l.map Slot.fields := by
  have hlen : ((List.range l.length).map answer).length = l.length := by
    rw [List.length_map, List.length_range]
  rcases h.decode with hdec | hdec
  · obtain ⟨buff, hstore, hused⟩ := h.store hlen
    refine ⟨_, _, ?_, ?_, hused, fields_answered _ hlen⟩
    · simp only [Message.execute, h.carries.num, executeLocal, hdec, hstore,
        Option.bind_eq_bind, Option.bind_some]
    · rfl
  · refine ⟨item, l, ?_, rfl, h, rfl⟩
    simp only [Message.execute, h.carries.num, executeLocal, hdec,
      Option.bind_eq_bind, Option.bind_some]

end UbsIo.Message
