import UbsIo.Cache.Store

/-! # What each call of the cache does

    One theorem for each function that writes.  An allocation that fails, at
    whatever point of a call, leaves the memory EXACTLY as it was; otherwise
    the call links one entry in, rewrites one or takes one out. -/

namespace UbsIo.Cache

open UbsIo.Lib

variable {L : Layout} {m m' : Mem} {c : SlotId → List Addr} {g : Grants}
  {a b : Addr} {v v' : IndexValue} {k : Key}

/-- The codes of a call that has not done what it was asked to. -/
def BResult.fails : BResult → Bool
  | .ok | .notExists | .putRepeat | .keyNotExists => false
  | _ => true

theorem BResult.ne_ok_of_fails {e : BResult} (h : e.fails = true) :
    e ≠ .ok := by
  rintro rfl
  cases h

theorem BResult.ne_putRepeat_of_fails {e : BResult} (h : e.fails = true) :
    e ≠ .putRepeat := by
  rintro rfl
  cases h

/-! ## Allocations -/

/-- A block that was handed out and given back is forgotten. -/
theorem erase_insert {β : Type} {s : AList fun _ : Addr => β} {x : Addr}
    {y : β} (h : x ∉ s) : (s.insert x y).erase x = s := by
  apply AList.ext
  show List.kerase x (s.insert x y).entries = s.entries
  rw [AList.entries_insert_of_notMem h]
  exact List.kerase_cons_eq rfl

/-- The index block that a call gets. -/
def indexGrant (m : Mem) (g : Grants) : Option (Addr × IndexValue) :=
  g.index.filter fun p => decide (p.1 ∉ m.index)

/-- The value block that a call gets for `n` bytes, with its data; a block
    that `memcpy_s` cannot fill is of no use. -/
def valueGrant (L : Layout) (m : Mem) (g : Grants) (n : Nat) :
    Option (Addr × Bytes) :=
  if n > uint64Max - dataHeaderSize then none
  else ((g.value (n + dataHeaderSize)).filter fun p =>
    decide (p.1 ∉ m.value ∧ n + dataHeaderSize ≤ p.2.length ∧
      p.2.length - dataHeaderSize ≤ L.memMaxLen)).map fun p =>
    (p.1, p.2.drop dataHeaderSize)

theorem indexGrant_fresh {raw : IndexValue}
    (h : indexGrant m g = some (a, raw)) : a ∉ m.index := by
  have hf := (Option.filter_eq_some_iff.mp h).2
  simpa using hf

theorem valueGrant_spec {n : Nat} {data : Bytes}
    (h : valueGrant L m g n = some (b, data)) :
    b ∉ m.value ∧ n ≤ data.length ∧ data.length ≤ L.memMaxLen := by
  unfold valueGrant at h
  split at h
  · cases h
  · obtain ⟨⟨x, raw⟩, hf, hp⟩ := Option.map_eq_some_iff.mp h
    obtain ⟨-, hp'⟩ := Option.filter_eq_some_iff.mp hf
    simp only [Prod.mk.injEq] at hp
    obtain ⟨rfl, rfl⟩ := hp
    simp only [decide_eq_true_eq] at hp'
    rw [List.length_drop]
    exact ⟨hp'.1, by omega, hp'.2.2⟩

theorem modifyIndex_eq (f : IndexValue → IndexValue)
    (h : m.index.lookup a = some v) :
    m.modifyIndex a f = some { m with index := m.index.insert a (f v) } := by
  simp [Mem.modifyIndex, h]

/-- The key always fits. -/
theorem copyIndexKey_eq (k : Key) (h : m.index.lookup a = some v) :
    copyIndexKey L m a k = some (.ok,
      { m with index := m.index.insert a { v with key := k.bytes } }) := by
  have hcopy : memcpyS L maxKeySize k.bytes.length = true := by
    have hshort := k.short
    have hmax := L.maxKeySize_le
    simp only [memcpyS, decide_eq_true_eq]
    exact ⟨by decide, hmax, by omega⟩
  simp [copyIndexKey, hcopy, modifyIndex_eq _ h]

/-- `AllocDataBlock` hands out a block with room for what is asked for, or
    leaves everything as it is. -/
theorem allocDataBlock_cases (m : Mem) (g : Grants) {n : Nat} (hn : 0 < n) :
    (∃ e, e.fails = true ∧ allocDataBlock m g n = some (.error e, m) ∧
      valueGrant L m g n = none) ∨
    ∃ b data, b ∉ m.value ∧ n ≤ data.length ∧
      allocDataBlock m g n = some (.ok (b, data.length),
        { m with value := m.value.insert b ⟨0, data⟩ }) ∧
      valueGrant L m g n =
        if data.length ≤ L.memMaxLen then some (b, data) else none := by
  by_cases hbig : n > uint64Max - dataHeaderSize
  · left
    refine ⟨.invalidParam, rfl, ?_, ?_⟩
    · simp [allocDataBlock, hbig]
    · simp [valueGrant, hbig]
  · cases hg : g.value (n + dataHeaderSize) with
    | none =>
        left
        refine ⟨.allocFail, rfl, ?_, ?_⟩
        · simp [allocDataBlock, hbig, Mem.allocValue, hg]
        · simp [valueGrant, hbig, hg]
    | some p =>
        obtain ⟨b, raw⟩ := p
        by_cases hbad : b ∈ m.value ∨ raw.length < n + dataHeaderSize
        · left
          refine ⟨.allocFail, rfl, ?_, ?_⟩
          · simp [allocDataBlock, hbig, Mem.allocValue, hg, hbad]
          · simp only [valueGrant, hbig, if_false, hg, Option.map_eq_none_iff,
              Option.filter_eq_none_iff]
            rintro p hp hall
            cases hp
            simp only [decide_eq_true_eq] at hall
            rcases hbad with hb | hlt
            · exact hall.1 hb
            · omega
        · right
          push Not at hbad
          obtain ⟨hb, hlen⟩ := hbad
          have hnot : ¬ raw.length ≤ dataHeaderSize := by omega
          refine ⟨b, raw.drop dataHeaderSize, hb, ?_, ?_, ?_⟩
          · rw [List.length_drop]
            omega
          · have hor : ¬ (b ∈ m.value ∨ raw.length < n + dataHeaderSize) := by
              rintro (h | h)
              · exact hb h
              · omega
            simp [allocDataBlock, hbig, Mem.allocValue, hg, hor, hnot]
          · rw [List.length_drop]
            by_cases hmax : raw.length - dataHeaderSize ≤ L.memMaxLen
            · simp [valueGrant, hbig, hg, Option.filter, hb, hlen, hmax]
            · simp [valueGrant, hbig, hg, Option.filter, hmax]

/-- `PutDataIntoBlock` on an entry that is live. -/
theorem putDataIntoBlock_cases (m : Mem) (g : Grants) {data : Bytes}
    (hl : m.index.lookup a = some v) (hpos : 0 < data.length) :
    (∃ e, e.fails = true ∧ putDataIntoBlock L m g a data = some (e, m) ∧
      valueGrant L m g data.length = none) ∨
    ∃ b raw, valueGrant L m g data.length = some (b, raw) ∧
      putDataIntoBlock L m g a data = some (.ok,
        { m with
          value := m.value.insert b ⟨raw.length, overlay raw 0 data⟩
          index := m.index.insert a
            { v with
              blockOffset := some b
              totalDataLen := v.totalDataLen + data.length } }) := by
  have hne : data.length ≠ 0 := by omega
  rcases allocDataBlock_cases (L := L) m g hpos with
    ⟨e, he, halloc, hgrant⟩ | ⟨b, raw, hb, hlen, halloc, hgrant⟩
  · exact Or.inl ⟨e, he, by simp [putDataIntoBlock, hne, halloc], hgrant⟩
  · have hpos' : 0 < raw.length := by omega
    by_cases hmax : raw.length ≤ L.memMaxLen
    · right
      rw [if_pos hmax] at hgrant
      refine ⟨b, raw, hgrant, ?_⟩
      have hcopy : memcpyS L raw.length data.length = true := by
        simp [memcpyS, hpos', hmax, hlen]
      simp [putDataIntoBlock, hne, halloc, Mem.modifyBlock, Mem.modifyIndex,
        hcopy, hl, AList.insert_insert]
    · left
      rw [if_neg hmax] at hgrant
      refine ⟨.innerErr, rfl, ?_, hgrant⟩
      have hcopy : memcpyS L raw.length data.length = false := by
        simp [memcpyS, hmax]
      simp [putDataIntoBlock, hne, halloc, Mem.modifyBlock, hcopy,
        Mem.freeValue, AList.insert_insert, erase_insert hb]

/-! ## Writing over a value -/

theorem length_overlay {buf data : Bytes} {offset : Nat}
    (h : offset + data.length ≤ buf.length) :
    (overlay buf offset data).length = buf.length := by
  simp only [overlay, List.length_append, List.length_take, List.length_drop]
  omega

/-- What is written into a buffer is what is written over the value in it. -/
theorem take_overlay {buf data : Bytes} {offset n : Nat} (hoff : offset ≤ n)
    (hn : n ≤ buf.length) :
    (overlay buf offset data).take (max n (offset + data.length)) =
      overlay (buf.take n) offset data := by
  apply List.ext_getElem?
  intro i
  simp only [overlay, List.getElem?_take, List.getElem?_append,
    List.getElem?_drop, List.length_append, List.length_take]
  grind

/-- Writing from the start on. -/
theorem take_overlay_zero (buf data : Bytes) :
    (overlay buf 0 data).take data.length = data := by
  simp [overlay]

/-- The size of the value block of an entry. -/
def blockSizeOf (m : Mem) (v : IndexValue) : Nat :=
  match v.blockOffset with
  | none => 0
  | some b => ((m.value.lookup b).map (·.blockSize)).getD 0

/-- The value will not fit the block it has, and no other can be had. -/
def NoRoom (L : Layout) (m : Mem) (g : Grants) (v : IndexValue)
    (offset : Nat) (data : Bytes) : Prop :=
  blockSizeOf m v < max v.totalDataLen (offset + data.length) ∧
    valueGrant L m g (max v.totalDataLen (offset + data.length)) = none

/-- The entry has a value block that is large enough. -/
def Filled (L : Layout) (m : Mem) (v : IndexValue) : Prop :=
  ∃ b d, v.blockOffset = some b ∧ m.value.lookup b = some d ∧
    d.data.length = d.blockSize ∧ 0 < v.totalDataLen ∧
    v.totalDataLen ≤ d.blockSize ∧ d.blockSize ≤ L.memMaxLen

theorem Filled.holds (h : Filled L m v) : Holds L m v := by
  obtain ⟨b, d, hb, hd⟩ := h
  simp only [Holds, hb]
  exact ⟨d, hd⟩

theorem Holds.filled (h : Holds L m v) (hb : v.blockOffset = some b) :
    Filled L m v := by
  simp only [Holds, hb] at h
  obtain ⟨d, hd⟩ := h
  exact ⟨b, d, hb, hd⟩

/-- The data of the entry at `a` has been written: `v` became `v'`. -/
structure Rewrites (L : Layout) (m m' : Mem) (a : Addr)
    (v v' : IndexValue) : Prop where
  slots : m'.slots = m.slots
  recovering : m'.mIsRecovering = m.mIsRecovering
  index : m'.index = m.index.insert a v'
  same : ∃ n o, v' = { v with totalDataLen := n, blockOffset := o }
  filled : Filled L m' v'
  touches : Touches m m' a

/-- A new block for an entry that may have had one: the others stay. -/
theorem touches_move (hl : m.index.lookup a = some v)
    (hlookup : m'.index.lookup a = some v')
    (hfresh : b ∉ m.value) (hb : v'.blockOffset = some b)
    (hother : ∀ x, x ≠ b → v.blockOffset ≠ some x →
      m'.value.lookup x = m.value.lookup x)
    (hgone : ∀ x, v.blockOffset = some x → x ∉ m'.value) :
    Touches m m' a := by
  have hold := blockAt_eq_some hl
  have hnew := (blockAt_eq_some hlookup).trans hb
  refine ⟨?_, ?_, ?_⟩
  · intro x hx hx'
    refine hother x ?_ ?_
    · rintro rfl
      exact hx' hnew
    · rwa [hold] at hx
  · intro x hx
    rw [hnew] at hx
    cases hx
    exact Or.inr hfresh
  · intro x hx _
    rw [hold] at hx
    exact hgone x hx

/-- The block an entry has keeps its place. -/
theorem touches_stay (hl : m.index.lookup a = some v)
    (hlookup : m'.index.lookup a = some v')
    (hb : v'.blockOffset = v.blockOffset)
    (hother : ∀ x, v.blockOffset ≠ some x →
      m'.value.lookup x = m.value.lookup x) : Touches m m' a := by
  have hold := blockAt_eq_some hl
  have hnew := (blockAt_eq_some hlookup).trans hb
  refine ⟨?_, ?_, ?_⟩
  · intro x hx _
    rw [hold] at hx
    exact hother x hx
  · intro x hx
    rw [hnew, ← hold] at hx
    exact Or.inl hx
  · intro x hx hx'
    rw [hold, ← hnew] at hx
    exact absurd hx hx'

/-- The first data of an entry that has none. -/
theorem putDataIntoBlock_rewrites {data raw : Bytes}
    (hl : m.index.lookup a = some v) (hpos : 0 < data.length)
    (hnone : v.blockOffset = none) (hzero : v.totalDataLen = 0)
    (hgrant : valueGrant L m g data.length = some (b, raw)) :
    Rewrites L m
      { m with
        value := m.value.insert b ⟨raw.length, overlay raw 0 data⟩
        index := m.index.insert a
          { v with
            blockOffset := some b
            totalDataLen := v.totalDataLen + data.length } }
      a v { v with
        blockOffset := some b
        totalDataLen := v.totalDataLen + data.length } := by
  obtain ⟨hfresh, hlen, hmax⟩ := valueGrant_spec hgrant
  refine ⟨rfl, rfl, rfl, ⟨_, _, rfl⟩, ?_, ?_⟩
  · refine ⟨b, _, rfl, AList.lookup_insert _, ?_, ?_, ?_, hmax⟩
    · exact length_overlay (by omega)
    · show 0 < v.totalDataLen + data.length
      omega
    · show v.totalDataLen + data.length ≤ raw.length
      omega
  · refine touches_move hl (AList.lookup_insert _) hfresh rfl ?_ ?_
    · intro x hx _
      exact AList.lookup_insert_ne hx
    · intro x hx
      rw [hnone] at hx
      cases hx

/-- What `UpdateDataBlock` does on the entry `v` at `a`: it fails and leaves
    everything as it is, or the data is written over the value. -/
def Overlays (L : Layout) (m : Mem) (g : Grants) (a : Addr) (v : IndexValue)
    (offset : Nat) (data : Bytes) (r : Option (BResult × Mem)) : Prop :=
  (∃ e, e.fails = true ∧ r = some (e, m) ∧
    (v.totalDataLen < offset ∨ NoRoom L m g v offset data)) ∨
  ∃ m' v', r = some (.ok, m') ∧ offset ≤ v.totalDataLen ∧
    ¬ NoRoom L m g v offset data ∧ Rewrites L m m' a v v' ∧
    (entryOf m' v').bytes = overlay (entryOf m v).bytes offset data

/-- A tombstone without data: the data comes back from the start on. -/
theorem overlays_revive (hl : m.index.lookup a = some v) {data : Bytes}
    (hpos : 0 < data.length) (hb : v.blockOffset = none)
    (hzero : v.totalDataLen = 0) :
    Overlays L m g a v 0 data (putDataIntoBlock L m g a data) := by
  have hnew : max v.totalDataLen (0 + data.length) = data.length := by omega
  have hsize : blockSizeOf m v = 0 := by simp [blockSizeOf, hb]
  rcases putDataIntoBlock_cases (L := L) m g hl hpos with
    ⟨e, he, hput, hgrant⟩ | ⟨b, raw, hgrant, hput⟩
  · refine Or.inl ⟨e, he, hput, Or.inr ⟨by omega, ?_⟩⟩
    rw [hnew]
    exact hgrant
  · refine Or.inr ⟨_, _, hput, Nat.zero_le _, ?_,
      putDataIntoBlock_rewrites hl hpos hb hzero hgrant, ?_⟩
    · rintro ⟨-, hno⟩
      rw [hnew, hgrant] at hno
      cases hno
    · have hold : (entryOf m v).bytes = [] := by
        simp [entryOf, blockData, hb]
      have hall : overlay [] 0 data = data := by simp [overlay]
      rw [hold, hall]
      simp [entryOf, blockData, hzero, take_overlay_zero]

/-- The block is large enough. -/
theorem overlays_current (hl : m.index.lookup a = some v) {data : Bytes}
    {offset : Nat} {d : DataBlock} (hpos : 0 < data.length)
    (hle : offset ≤ v.totalDataLen) (hb : v.blockOffset = some b)
    (hd : m.value.lookup b = some d) (hfull : d.data.length = d.blockSize)
    (hmax : d.blockSize ≤ L.memMaxLen)
    (hroom : max v.totalDataLen (offset + data.length) ≤ d.blockSize) :
    Overlays L m g a v offset data
      (updateDataInCurrentBlock L m a b d.blockSize offset data) := by
  right
  have hsize : blockSizeOf m v = d.blockSize := by simp [blockSizeOf, hb, hd]
  have hcopy : memcpyS L (d.blockSize - offset) data.length = true := by
    simp only [memcpyS, decide_eq_true_eq]
    omega
  refine ⟨{ m with
      value := m.value.insert b { d with data := overlay d.data offset data }
      index := m.index.insert a
        { v with
          totalDataLen := max v.totalDataLen (offset + data.length) } },
    { v with totalDataLen := max v.totalDataLen (offset + data.length) },
    ?_, hle, ?_, ⟨rfl, rfl, rfl, ⟨_, v.blockOffset, rfl⟩, ?_, ?_⟩, ?_⟩
  · simp [updateDataInCurrentBlock, hcopy, Mem.modifyBlock, Mem.modifyIndex,
      hl, hd]
  · rintro ⟨hlt, -⟩
    rw [hsize] at hlt
    omega
  · refine ⟨b, _, hb, AList.lookup_insert _, ?_, ?_, hroom, hmax⟩
    · show (overlay d.data offset data).length = d.blockSize
      rw [length_overlay (by omega), hfull]
    · show 0 < max v.totalDataLen (offset + data.length)
      omega
  · refine touches_stay hl (AList.lookup_insert _) rfl ?_
    intro x hx
    refine AList.lookup_insert_ne ?_
    rintro rfl
    exact hx hb
  · simp only [entryOf, blockData, hb, hd, AList.lookup_insert,
      Option.map_some, Option.getD_some]
    exact take_overlay hle (by omega)

/-- The value moves to a larger block. -/
theorem overlays_expand (hl : m.index.lookup a = some v) {data : Bytes}
    {offset : Nat} {d : DataBlock}
    (hle : offset ≤ v.totalDataLen) (hb : v.blockOffset = some b)
    (hd : m.value.lookup b = some d) (hfull : d.data.length = d.blockSize)
    (hfit : v.totalDataLen ≤ d.blockSize)
    (hroom : d.blockSize < max v.totalDataLen (offset + data.length)) :
    Overlays L m g a v offset data
      (expandAndUpdateDataBlock L m g a v b d offset data) := by
  have hbig : blockSizeOf m v < max v.totalDataLen (offset + data.length) := by
    simpa [blockSizeOf, hb, hd] using hroom
  have hnew : 0 < max v.totalDataLen (offset + data.length) := by omega
  rcases allocDataBlock_cases (L := L) m g hnew with
    ⟨e, he, halloc, hgrant⟩ | ⟨x, raw, hx, hlen, halloc, hgrant⟩
  · refine Or.inl ⟨e, he, ?_, Or.inr ⟨hbig, hgrant⟩⟩
    simp [expandAndUpdateDataBlock, halloc]
  have hxb : x ≠ b := by
    rintro rfl
    exact hx (mem_value hd)
  by_cases hfits : raw.length ≤ L.memMaxLen
  · right
    rw [if_pos hfits] at hgrant
    have hcopy : memcpyS L raw.length v.totalDataLen = true := by
      simp only [memcpyS, decide_eq_true_eq]
      omega
    have hcopy' : memcpyS L (raw.length - offset) data.length = true := by
      simp only [memcpyS, decide_eq_true_eq]
      omega
    have hkept : (d.data.take v.totalDataLen).length = v.totalDataLen := by
      rw [List.length_take]
      omega
    have hinner : (overlay raw 0 (d.data.take v.totalDataLen)).length =
        raw.length := length_overlay (by rw [hkept]; omega)
    refine ⟨{ m with
        value := (m.value.insert x ⟨raw.length, overlay
          (overlay raw 0 (d.data.take v.totalDataLen)) offset data⟩).erase b
        index := m.index.insert a
          { v with
            blockOffset := some x
            totalDataLen := max v.totalDataLen (offset + data.length) } },
      { v with
        blockOffset := some x
        totalDataLen := max v.totalDataLen (offset + data.length) },
      ?_, hle, ?_, ⟨rfl, rfl, rfl, ⟨_, _, rfl⟩, ?_, ?_⟩, ?_⟩
    · have hmem : b ∈ m.value := mem_value hd
      simp [expandAndUpdateDataBlock, halloc, Mem.modifyBlock, hcopy, hcopy',
        Mem.modifyIndex, hl, Mem.freeValue, hmem, AList.insert_insert]
    · rintro ⟨-, hno⟩
      rw [hgrant] at hno
      cases hno
    · refine ⟨x, ⟨raw.length, overlay
        (overlay raw 0 (d.data.take v.totalDataLen)) offset data⟩, rfl, ?_, ?_,
        hnew, hlen, hfits⟩
      · rw [AList.lookup_erase_ne hxb, AList.lookup_insert]
      · rw [length_overlay (by rw [hinner]; omega), hinner]
    · refine touches_move hl (AList.lookup_insert _) hx rfl ?_ ?_
      · intro y hy hyb
        have hyb' : y ≠ b := by
          rintro rfl
          exact hyb hb
        rw [AList.lookup_erase_ne hyb', AList.lookup_insert_ne hy]
      · intro y hy
        cases hb.symm.trans hy
        rw [AList.mem_erase]
        exact fun hmem => hmem.1 rfl
    · have hstart := take_overlay_zero raw (d.data.take v.totalDataLen)
      rw [hkept] at hstart
      simp only [entryOf, blockData, AList.lookup_erase_ne hxb, hb, hd,
        AList.lookup_insert, Option.map_some, Option.getD_some]
      rw [take_overlay hle (by omega), hstart]
  · rw [if_neg hfits] at hgrant
    refine Or.inl ⟨.innerErr, rfl, ?_, Or.inr ⟨hbig, hgrant⟩⟩
    have hcopy : memcpyS L raw.length v.totalDataLen = false := by
      simp [memcpyS, hfits]
    simp [expandAndUpdateDataBlock, halloc, Mem.modifyBlock, hcopy,
      Mem.freeValue, AList.insert_insert, erase_insert hx]

/-- `UpdateDataBlock` refuses an offset behind the data and fails when it finds
    no room; otherwise the data is written over the value. -/
theorem updateDataBlock_overlays (h : Inv L m c) (g : Grants)
    (hl : m.index.lookup a = some v) {data : Bytes} (offset : Nat)
    (hpos : 0 < data.length) :
    Overlays L m g a v offset data
      (updateDataBlock L m g a offset data) := by
  by_cases hoff : offset > v.totalDataLen
  · exact Or.inl ⟨.innerErr, rfl, by simp [updateDataBlock, hl, hoff],
      Or.inl hoff⟩
  have hle : offset ≤ v.totalDataLen := Nat.le_of_not_lt hoff
  have hheld := h.blocks.own a v hl
  cases hb : v.blockOffset with
  | none =>
      simp only [Holds, hb] at hheld
      obtain ⟨hzero, -⟩ := hheld
      obtain rfl : offset = 0 := by omega
      have hcall : updateDataBlock L m g a 0 data =
          putDataIntoBlock L m g a data := by
        simp [updateDataBlock, hl, hb, reviveDataBlock]
      rw [hcall]
      exact overlays_revive hl hpos hb hzero
  | some b =>
      obtain ⟨b', d, hb', hd, hfull, -, hfit, hmax⟩ := hheld.filled hb
      cases hb.symm.trans hb'
      have hlimit := L.memMaxLen_lt
      by_cases hover : data.length > uint64Max - offset
      · -- no block is as long as that
        have hhuge : max v.totalDataLen (offset + data.length) >
            uint64Max - dataHeaderSize := by omega
        refine Or.inl ⟨.invalidParam, rfl, ?_, Or.inr ⟨?_, ?_⟩⟩
        · simp [updateDataBlock, hl, hoff, hb, hover]
        · simp only [blockSizeOf, hb, hd, Option.map_some, Option.getD_some]
          omega
        · simp [valueGrant, hhuge]
      by_cases hroom :
          max v.totalDataLen (offset + data.length) ≤ d.blockSize
      · have hcall : updateDataBlock L m g a offset data =
            updateDataInCurrentBlock L m a b d.blockSize offset data := by
          simp only [updateDataBlock, hl, hoff, hb, hover, hd, hroom,
            if_false, if_true, Option.bind_eq_bind, Option.bind_some]
        rw [hcall]
        exact overlays_current hl hpos hle hb hd hfull hmax hroom
      · have hcall : updateDataBlock L m g a offset data =
            expandAndUpdateDataBlock L m g a v b d offset data := by
          simp only [updateDataBlock, hl, hoff, hb, hover, hd, hroom,
            if_false, Option.bind_eq_bind, Option.bind_some]
        rw [hcall]
        exact overlays_expand hl hle hb hd hfull hfit
          (Nat.lt_of_not_le hroom)

/-! ## One entry changes, with its blocks -/

theorem agree_insert (v : IndexValue) (hindex : m'.index = m.index.insert a v) :
    Agree m m' a := by
  intro x hx
  rw [hindex, AList.lookup_insert_ne hx]

/-- **LINK**: a new entry for a key that has none. -/
theorem Inv.link (h : Inv L m c) (ha : a ∉ m.index) (hk : v.key = k.bytes)
    (hno : ∀ x u, m.index.lookup x = some u → u.key ≠ k.bytes)
    (hnext : v.next = m.slots (homeOf L k.bytes))
    (hslots : m'.slots = Function.update m.slots (homeOf L k.bytes)
      ⟨hashKey k.bytes, true, a⟩)
    (hindex : m'.index = m.index.insert a v) (ht : Touches m m' a)
    (hholds : Holds L m' v) :
    (∃ c', Inv L m' c') ∧ contents L m' =
      Function.update (contents L m) k (some (entryOf m' v)) := by
  have hself : m'.index.lookup a = some v := by
    rw [hindex, AList.lookup_insert]
  have hchains := h.chains.link ha hk hno hnext hslots hindex
  have hagree := agree_insert v hindex
  have hblocks := h.blocks.step hagree ht fun u hu => by
    cases hself.symm.trans hu
    exact hholds
  refine ⟨⟨_, hchains, hblocks⟩, ?_⟩
  have hcon := contents_update h hchains hagree ht (k := k)
    (fun u hu => absurd (mem_index hu) ha)
    (fun u hu => by cases hself.symm.trans hu; exact hk)
    (fun x u _ hu => hno x u hu)
  rw [hself, Option.map_some] at hcon
  exact hcon

/-- **REWRITE**: an entry changed where it is. -/
theorem Inv.modify (h : Inv L m c) (hl : m.index.lookup a = some v)
    (hk : v.key = k.bytes) (hkey : v'.key = v.key) (hnext : v'.next = v.next)
    (hslots : m'.slots = m.slots) (hindex : m'.index = m.index.insert a v')
    (ht : Touches m m' a) (hholds : Holds L m' v') :
    Inv L m' c ∧ contents L m' =
      Function.update (contents L m) k (some (entryOf m' v')) := by
  have hself : m'.index.lookup a = some v' := by
    rw [hindex, AList.lookup_insert]
  have hchains := h.chains.modify hl hkey hnext hslots hindex
  have hagree := agree_insert v' hindex
  have hblocks := h.blocks.step hagree ht fun u hu => by
    cases hself.symm.trans hu
    exact hholds
  refine ⟨⟨hchains, hblocks⟩, ?_⟩
  have hcon := contents_update h hchains hagree ht (k := k)
    (fun u hu => by cases hl.symm.trans hu; exact hk)
    (fun u hu => by cases hself.symm.trans hu; exact hkey.trans hk)
    (fun x u hx hu hku => hx (h.chains.once x a u v hu hl
      (hku.trans hk.symm)))
  rw [hself, Option.map_some] at hcon
  exact hcon

/-- **TAKE OUT**: `removeNode` on the node that points to an entry. -/
theorem Inv.remove (h : Inv L m c) {pre post : List Addr}
    (hl : m.index.lookup a = some v) (hk : v.key = k.bytes)
    (hc : c (homeOf L k.bytes) = pre ++ a :: post) :
    ∃ m', removeNode m (ptrAfter (.slot (homeOf L k.bytes)) pre) a v =
        some m' ∧
      Inv L m' (Function.update c (homeOf L k.bytes) (pre ++ post)) ∧
      contents L m' = Function.update (contents L m) k none ∧
      m'.mIsRecovering = m.mIsRecovering ∧ Agree m m' a := by
  -- the value block goes first
  obtain ⟨w, hfree, hgone⟩ : ∃ w, freeValueBlock m v = some { m with value := w } ∧
      (∀ b, v.blockOffset ≠ some b → w.lookup b = m.value.lookup b) ∧
      ∀ b, v.blockOffset = some b → b ∉ w := by
    cases hb : v.blockOffset with
    | none =>
        exact ⟨m.value, by simp [freeValueBlock, hb], fun _ _ => rfl,
          fun _ hx => by cases hx⟩
    | some b =>
        obtain ⟨b', d, hb', hd, -⟩ := (h.blocks.own a v hl).filled hb
        cases hb.symm.trans hb'
        refine ⟨m.value.erase b, ?_, ?_, ?_⟩
        · simp [freeValueBlock, hb, Mem.freeValue, mem_value hd]
        · intro x hx
          refine AList.lookup_erase_ne ?_
          rintro rfl
          exact hx rfl
        · rintro x ⟨⟩ hmem
          exact (AList.mem_erase.mp hmem).1 rfl
  have hamem : a ∈ m.index := mem_index hl
  have hnd := h.chains.nodup (homeOf L k.bytes)
  rw [hc] at hnd
  have hnotlast : pre.getLast? ≠ some a := by
    intro hlast
    exact (List.nodup_append.mp hnd).2.2 a (List.mem_of_getLast? hlast) a
      (List.mem_cons_self ..) rfl
  -- then the node before the entry is overwritten and the entry is freed
  obtain ⟨m', hcall, hvalue, hrec, hslots, hself, hlast, hother⟩ :
      ∃ m', removeNode m (ptrAfter (.slot (homeOf L k.bytes)) pre) a v =
          some m' ∧ m'.value = w ∧ m'.mIsRecovering = m.mIsRecovering ∧
        (m'.slots = if pre = [] then Function.update m.slots
          (homeOf L v.key) v.next else m.slots) ∧
        m'.index.lookup a = none ∧
        (∀ x u, pre.getLast? = some x → m.index.lookup x = some u →
          m'.index.lookup x = some { u with next := v.next }) ∧
        ∀ x, x ≠ a → pre.getLast? ≠ some x →
          m'.index.lookup x = m.index.lookup x := by
    rcases List.eq_nil_or_concat pre with rfl | ⟨qs, b, rfl⟩
    · refine ⟨{ m with
          slots := Function.update m.slots (homeOf L k.bytes) v.next
          index := m.index.erase a
          value := w }, ?_, rfl, rfl, ?_, AList.lookup_erase _ _, ?_, ?_⟩
      · simp [removeNode, hfree, Mem.writeNode, Mem.freeIndex, hamem]
      · rw [if_pos rfl, hk]
      · rintro x u ⟨⟩
      · exact fun x hx _ => AList.lookup_erase_ne hx
    · rw [List.concat_eq_append] at hnotlast ⊢
      have hptr : ptrAfter (.slot (homeOf L k.bytes)) (qs ++ [b]) =
          .next b := by simp [ptrAfter]
      rw [hptr]
      rw [List.getLast?_concat] at hnotlast ⊢
      have hba : b ≠ a := fun hba => hnotlast (congrArg some hba)
      have hbmem : b ∈ c (homeOf L k.bytes) := by
        rw [hc]
        simp
      obtain ⟨u, hu, -⟩ := h.chains.home _ b hbmem
      have hamem' : a ∈ m.index.insert b { u with next := v.next } := by
        rw [AList.mem_insert]
        exact Or.inr hamem
      refine ⟨{ m with
          index := (m.index.insert b { u with next := v.next }).erase a
          value := w }, ?_, rfl, rfl, ?_, AList.lookup_erase _ _, ?_, ?_⟩
      · simp [removeNode, hfree, Mem.writeNode, Mem.modifyIndex, hu,
          Mem.freeIndex, hamem]
      · rw [if_neg (by simp)]
      · rintro x u' ⟨⟩ hu'
        cases hu.symm.trans hu'
        rw [AList.lookup_erase_ne hba, AList.lookup_insert]
      · intro x hx hxb
        rw [AList.lookup_erase_ne hx, AList.lookup_insert_ne]
        rintro rfl
        exact hxb rfl
  rw [← hk] at hc
  have hchains := h.chains.unlink hl hc hslots hself hlast hother
  rw [hk] at hchains
  have hagree : Agree m m' a := by
    intro x hx
    by_cases hlx : pre.getLast? = some x
    · have hmem : x ∈ c (homeOf L v.key) := by
        rw [hc]
        exact List.mem_append_left _ (List.mem_of_getLast? hlx)
      obtain ⟨u, hu, -⟩ := h.chains.home _ x hmem
      rw [hlast x u hlx hu, hu]
      rfl
    · rw [hother x hx hlx]
  have hnone : blockAt m' a = none := by simp [blockAt, hself]
  have ht : Touches m m' a := by
    have hold := blockAt_eq_some hl
    refine ⟨?_, ?_, ?_⟩
    · intro b hb _
      rw [hvalue]
      rw [hold] at hb
      exact hgone.1 b hb
    · intro b hb
      rw [hnone] at hb
      cases hb
    · intro b hb _
      rw [hvalue]
      rw [hold] at hb
      exact hgone.2 b hb
  have hblocks := h.blocks.step hagree ht fun u hu => by
    rw [hself] at hu
    cases hu
  refine ⟨m', hcall, ⟨hchains, hblocks⟩, ?_, hrec, hagree⟩
  have hcon := contents_update h hchains hagree ht (k := k)
    (fun u hu => by cases hl.symm.trans hu; exact hk)
    (fun u hu => by rw [hself] at hu; cases hu)
    (fun x u hx hu hku => hx (h.chains.once x a u v hu hl
      (hku.trans hk.symm)))
  rw [hself, Option.map_none] at hcon
  exact hcon

/-! ## A new entry -/

/-- A search is not disturbed by blocks that are not in the chain. -/
theorem findExistingNode_frame {key : Bytes} {hashCode : UInt32} :
    ∀ (l : List Addr) {p : NodePtr} {n : IndexNode} {f f' : Nat},
    (∀ x ∈ l, m'.index.lookup x = m.index.lookup x) →
    m.readNode p = some n → m'.readNode p = some n →
    Threads (nodes m) n l → l.length < f → l.length < f' →
    findExistingNode m' key hashCode f' p =
      findExistingNode m key hashCode f p := by
  intro l
  induction l with
  | nil =>
      intro p n f f' _ hr hr' ht hf hf'
      obtain ⟨f, rfl⟩ := Nat.exists_eq_succ_of_ne_zero (Nat.ne_of_gt hf)
      obtain ⟨f', rfl⟩ := Nat.exists_eq_succ_of_ne_zero (Nat.ne_of_gt hf')
      rw [threads_nil_iff] at ht
      simp [findExistingNode, hr, hr', ht]
  | cons x l ih =>
      intro p n f f' hsame hr hr' ht hf hf'
      obtain ⟨f, rfl⟩ := Nat.exists_eq_succ_of_ne_zero
        (Nat.ne_of_gt (Nat.zero_lt_of_lt hf))
      obtain ⟨f', rfl⟩ := Nat.exists_eq_succ_of_ne_zero
        (Nat.ne_of_gt (Nat.zero_lt_of_lt hf'))
      obtain ⟨hvalid, rfl, v, hv, -, ht⟩ := threads_cons_iff.mp ht
      have hv' := (hsame _ (List.mem_cons_self ..)).trans hv
      have hnext : findExistingNode m' key hashCode f'
          (.next n.indexValueAddr) = findExistingNode m key hashCode f
          (.next n.indexValueAddr) := by
        refine ih (n := v.next)
          (fun y hy => hsame y (List.mem_cons_of_mem _ hy)) ?_ ?_ ht ?_ ?_
        · simp [Mem.readNode, hv]
        · simp [Mem.readNode, hv']
        · exact Nat.lt_of_succ_lt_succ hf
        · exact Nat.lt_of_succ_lt_succ hf'
      simp [findExistingNode, hr, hr', hvalid, hv, hv', hnext]

theorem findNode_frame (h : Chains L m c) (ha : a ∉ m.index) (m' : Mem)
    (hslots : m'.slots = m.slots) (hindex : m'.index = m.index.insert a v)
    (k : Key) : findNode L m' k = findNode L m k := by
  have hle := h.length_le (homeOf L k.bytes)
  have hother : ∀ x ∈ c (homeOf L k.bytes),
      m'.index.lookup x = m.index.lookup x := by
    intro x hx
    rw [hindex]
    refine AList.lookup_insert_ne ?_
    rintro rfl
    obtain ⟨u, hu, -⟩ := h.home _ x hx
    exact ha (mem_index hu)
  have hkeys : m.index.keys.length ≤ m'.index.keys.length := by
    rw [hindex, AList.keys_insert, List.erase_of_not_mem
      (fun hmem => ha (AList.mem_keys.mpr hmem)), List.length_cons]
    exact Nat.le_succ _
  refine findExistingNode_frame (c (homeOf L k.bytes)) hother rfl ?_
    (h.threads _) (Nat.lt_succ_of_le hle) ?_
  · exact congrArg some (congrFun hslots _)
  · exact Nat.lt_succ_of_le (hle.trans hkeys)

/-- The new index block, with its data. -/
def newEntry (setup : IndexValue → IndexValue) (raw : IndexValue) (key : Key)
    (b : Addr) (value : Bytes) : IndexValue :=
  { setup raw with
    key := key.bytes
    blockOffset := some b
    totalDataLen := value.length }

/-- A new entry was refused one of its blocks. -/
def Refused (L : Layout) (m : Mem) (g : Grants) (value : Bytes) : Prop :=
  indexGrant m g = none ∨ valueGrant L m g value.length = none

/-- The memory with the two blocks of a new entry that is not linked yet. -/
def withEntry (m : Mem) (a b : Addr) (v : IndexValue) (d : DataBlock) : Mem :=
  { m with index := m.index.insert a v, value := m.value.insert b d }

theorem newIndexValue_cases (m : Mem) (g : Grants)
    (setup : IndexValue → IndexValue) (key : Key) {value : Bytes}
    (hpos : 0 < value.length)
    (hsetup : ∀ u, (setup u).totalDataLen = 0) :
    (∃ e, e.fails = true ∧
      newIndexValue L m g setup key value = some (.error e, m) ∧
      Refused L m g value) ∨
    ∃ a raw b data, indexGrant m g = some (a, raw) ∧
      valueGrant L m g value.length = some (b, data) ∧
      newIndexValue L m g setup key value = some (.ok a,
        withEntry m a b (newEntry setup raw key b value)
          ⟨data.length, overlay data 0 value⟩) := by
  cases hg : g.index with
  | none =>
      refine Or.inl ⟨.allocFail, rfl, ?_, Or.inl ?_⟩
      · simp [newIndexValue, Mem.allocIndex, hg]
      · simp [indexGrant, hg]
  | some p =>
      obtain ⟨a, raw⟩ := p
      by_cases ha : a ∈ m.index
      · refine Or.inl ⟨.allocFail, rfl, ?_, Or.inl ?_⟩
        · simp [newIndexValue, Mem.allocIndex, hg, ha]
        · simp [indexGrant, hg, Option.filter, ha]
      · have hgrant : indexGrant m g = some (a, raw) := by
          simp [indexGrant, hg, Option.filter, ha]
        have hkey := copyIndexKey_eq (L := L) (a := a) key
          (m := { m with index := m.index.insert a (setup raw) })
          (AList.lookup_insert _)
        simp only [AList.insert_insert] at hkey
        rcases putDataIntoBlock_cases (L := L) (a := a)
            { m with
              index := m.index.insert a { setup raw with key := key.bytes } }
            g (AList.lookup_insert _) hpos with
          ⟨e, he, hput, hno⟩ | ⟨b, data, hyes, hput⟩
        · refine Or.inl ⟨e, he, ?_, Or.inr hno⟩
          have hne := BResult.ne_ok_of_fails he
          simp [newIndexValue, Mem.allocIndex, hg, ha, Mem.modifyIndex,
            hkey, hput, hne, Mem.freeIndex, AList.insert_insert,
            erase_insert ha]
        · refine Or.inr ⟨a, raw, b, data, hgrant, hyes, ?_⟩
          simp [newIndexValue, Mem.allocIndex, hg, ha, Mem.modifyIndex,
            hkey, hput, AList.insert_insert, withEntry, newEntry]
          simp [hsetup]

/-- The memory with a new entry in its slot. -/
def linkEntry (L : Layout) (m : Mem) (k : Key) (a b : Addr) (v : IndexValue)
    (d : DataBlock) : Mem :=
  { m with
    slots := Function.update m.slots (homeOf L k.bytes)
      ⟨hashKey k.bytes, true, a⟩
    index := m.index.insert a { v with next := m.slots (homeOf L k.bytes) }
    value := m.value.insert b d }

/-- A new entry with its data, linked into its slot. -/
theorem Inv.link_entry (h : Inv L m c) {raw u : IndexValue}
    {data value : Bytes} (hpos : 0 < value.length)
    (hi : indexGrant m g = some (a, raw))
    (hv : valueGrant L m g value.length = some (b, data))
    (hno : ∀ x u, m.index.lookup x = some u → u.key ≠ k.bytes)
    (hfk : u.key = k.bytes) (hfb : u.blockOffset = some b)
    (hfl : u.totalDataLen = value.length) :
    insertPutIndexValue
        (withEntry m a b u ⟨data.length, overlay data 0 value⟩)
        (homeOf L k.bytes) (hashKey k.bytes) a =
      some (linkEntry L m k a b u ⟨data.length, overlay data 0 value⟩) ∧
    (∃ c', Inv L (linkEntry L m k a b u
      ⟨data.length, overlay data 0 value⟩) c') ∧
    contents L (linkEntry L m k a b u
        ⟨data.length, overlay data 0 value⟩) =
      Function.update (contents L m) k
        (some ⟨value, u.version, u.isDelete, u.ptId⟩) := by
  obtain ⟨hfresh, hlen, hmax⟩ := valueGrant_spec hv
  have ha := indexGrant_fresh hi
  have hself : (linkEntry L m k a b u
      ⟨data.length, overlay data 0 value⟩).index.lookup a =
      some { u with next := m.slots (homeOf L k.bytes) } :=
    AList.lookup_insert _
  have hfilled : Filled L
      (linkEntry L m k a b u ⟨data.length, overlay data 0 value⟩)
      { u with next := m.slots (homeOf L k.bytes) } := by
    refine ⟨b, _, hfb, AList.lookup_insert _, ?_, ?_, ?_, hmax⟩
    · exact length_overlay (by omega)
    · show 0 < u.totalDataLen
      rw [hfl]
      exact hpos
    · show u.totalDataLen ≤ data.length
      rw [hfl]
      exact hlen
  have ht : Touches m
      (linkEntry L m k a b u ⟨data.length, overlay data 0 value⟩) a := by
    have hold : blockAt m a = none := by
      simp [blockAt, lookup_of_notMem ha]
    have hnew := (blockAt_eq_some hself).trans hfb
    refine ⟨?_, ?_, ?_⟩
    · intro x _ hx
      rw [hnew] at hx
      exact AList.lookup_insert_ne fun hxb => hx (congrArg some hxb.symm)
    · intro x hx
      rw [hnew] at hx
      cases hx
      exact Or.inr hfresh
    · intro x hx
      rw [hold] at hx
      cases hx
  obtain ⟨hinv, hcon⟩ := h.link
    (v := { u with next := m.slots (homeOf L k.bytes) })
    ha hfk hno rfl rfl rfl ht hfilled.holds
  refine ⟨?_, hinv, ?_⟩
  · simp [insertPutIndexValue, withEntry, linkEntry, Mem.modifyIndex,
      Mem.writeNode, AList.insert_insert]
  · rw [hcon]
    simp [entryOf, blockData, hfb, hfl, linkEntry, take_overlay_zero]

/-! ## The calls -/

/-- The data that `GetDataFromBlock` reads. -/
theorem getDataFromBlock_eq (h : Filled L m v) (offset n : Nat)
    (hoff : offset < v.totalDataLen) (hn : 0 < n)
    (hmax : n ≤ L.memMaxLen) :
    getDataFromBlock L m v offset n =
      some (((entryOf m v).bytes.drop offset).take n) := by
  obtain ⟨b, d, hb, hd, hfull, hpos, hfit, hlimit⟩ := h
  have hcopy : memcpyS L n (min (v.totalDataLen - offset) n) = true := by
    simp only [memcpyS, decide_eq_true_eq]
    omega
  have hin : ¬ (offset > d.blockSize ∨
      min (v.totalDataLen - offset) n > d.blockSize - offset) := by omega
  have hout : ¬ (n = 0 ∨ v.totalDataLen ≤ offset) := by omega
  have hrange : blockRange m v offset n =
      some (some (b, d, min (v.totalDataLen - offset) n)) := by
    simp only [blockRange, hout, hin, if_false, hb, hd, Option.bind_eq_bind,
      Option.bind_some]
  have hbytes : (entryOf m v).bytes = d.data.take v.totalDataLen := by
    simp [entryOf, blockData, hb, hd]
  rw [hbytes, List.drop_take, List.take_take, Nat.min_comm n]
  simp [getDataFromBlock, hrange, hcopy]

/-- The block that `GetDataAddrFromBlock` points into. -/
theorem getDataAddrFromBlock_eq (h : Filled L m v) :
    ∃ b d, v.blockOffset = some b ∧ m.value.lookup b = some d ∧
      (entryOf m v).bytes = d.data.take v.totalDataLen ∧
      getDataAddrFromBlock m v v.totalDataLen =
        some (some b, v.totalDataLen) := by
  obtain ⟨b, d, hb, hd, hfull, hpos, hfit, hlimit⟩ := h
  have hout : ¬ (v.totalDataLen = 0 ∨ v.totalDataLen ≤ 0) := by omega
  have hin : ¬ (0 > d.blockSize ∨
      min (v.totalDataLen - 0) v.totalDataLen > d.blockSize - 0) := by omega
  have hrange : blockRange m v 0 v.totalDataLen =
      some (some (b, d, min (v.totalDataLen - 0) v.totalDataLen)) := by
    simp only [blockRange, hout, hin, if_false, hb, hd, Option.bind_eq_bind,
      Option.bind_some]
  refine ⟨b, d, hb, hd, ?_, ?_⟩
  · simp [entryOf, blockData, hb, hd]
  · simp [getDataAddrFromBlock, hrange]

theorem length_bytes (h : Holds L m v) :
    (entryOf m v).bytes.length = v.totalDataLen := by
  cases hb : v.blockOffset with
  | none =>
      simp only [Holds, hb] at h
      simp [entryOf, blockData, hb, h.1]
  | some b =>
      obtain ⟨b', d, hb', hd, hfull, -, hfit, -⟩ := h.filled hb
      cases hb.symm.trans hb'
      simp only [entryOf, blockData, hb, hd, Option.map_some,
        Option.getD_some, List.length_take]
      omega

/-- An address that a call hands out leads to these bytes. -/
def LeadsTo (m : Mem) (valueAddr : Option Addr) (bytes : Bytes) : Prop :=
  ∀ b, valueAddr = some b →
    ∃ d, m.value.lookup b = some d ∧ d.data.take bytes.length = bytes

/-- `HandlePutExistingNode` compares the bytes. -/
theorem handlePutExistingNode_cases {node : IndexNode} {para : PutPara}
    (hl : m.index.lookup node.indexValueAddr = some v) (h : Holds L m v)
    (hpos : 0 < para.value.length) :
    ∃ reply, handlePutExistingNode L m g node para = some reply ∧
      ((entryOf m v).bytes = para.value ∧ g.scratch = true ∧
        reply.ret = .putRepeat ∧
        (∀ b, reply.valueAddr = some b → v.blockOffset = some b) ∨
      ¬ ((entryOf m v).bytes = para.value ∧ g.scratch = true) ∧
        reply.ret.fails = true) := by
  have hlen := length_bytes h
  by_cases hn : v.totalDataLen = para.value.length
  · cases hs : g.scratch with
    | false =>
        refine ⟨{ ret := .allocFail }, ?_, Or.inr ⟨by simp, rfl⟩⟩
        simp [handlePutExistingNode, hl, hn, hs]
    | true =>
        have hfilled : Filled L m v := by
          cases hb : v.blockOffset with
          | none =>
              simp only [Holds, hb] at h
              omega
          | some b => exact h.filled hb
        have hmax : v.totalDataLen ≤ L.memMaxLen := by
          obtain ⟨b, d, -, -, -, -, hfit, hlimit⟩ := hfilled
          omega
        have hread := getDataFromBlock_eq hfilled 0 para.value.length
          (by omega) hpos (by omega)
        rw [List.drop_zero, List.take_of_length_le (by omega)] at hread
        have hne : ¬ ((entryOf m v).bytes.length = 0 ∨
            (entryOf m v).bytes.length ≠ para.value.length) := by omega
        by_cases heq : (entryOf m v).bytes = para.value
        · obtain ⟨b, d, hb, -, -, haddr⟩ := getDataAddrFromBlock_eq hfilled
          rw [hn] at haddr
          have hvalue : para.value ≠ [] := List.ne_nil_of_length_pos hpos
          rw [heq] at hread
          cases hw : para.wantAddr with
          | false =>
              refine ⟨{ ret := .putRepeat }, ?_,
                Or.inl ⟨heq, rfl, rfl, fun b hb => by cases hb⟩⟩
              simp [handlePutExistingNode, hl, hn, hs, hread, hw, hvalue]
          | true =>
              refine ⟨{ ret := .putRepeat, valueAddr := some b }, ?_,
                Or.inl ⟨heq, rfl, rfl, ?_⟩⟩
              · simp [handlePutExistingNode, hl, hn, hs, hread, hw, haddr,
                  hvalue]
              · rintro x ⟨⟩
                exact hb
        · refine ⟨{ ret := .innerErr }, ?_, Or.inr ⟨by simp [heq], rfl⟩⟩
          simp only [handlePutExistingNode, hl, hn, hs, hread, hne, heq,
            ne_eq, not_true_eq_false, if_false, Option.bind_eq_bind,
            Option.bind_some, Bool.true_eq_false]
  · refine ⟨{ ret := .innerErr }, ?_, Or.inr ⟨?_, rfl⟩⟩
    · simp [handlePutExistingNode, hl, hn]
    · rintro ⟨heq, -⟩
      rw [heq] at hlen
      exact hn hlen.symm

end UbsIo.Cache
