import UbsIo.Flows.Steps

/-! # Addresses

    The chunk at index `i` of `mChunkList` is the one allocated for the flow
    offset `(mTruncateOffset / mChunkSize + i) * mChunkSize`, whatever the
    threads do: chunks come in at one end, one at a time and in the order of
    their offsets, and go out at the other end in steps of whole chunks.  So
    an address that is handed out is an address of the same bytes ever after
    (`Covers`).

    This needs a chunk size that fits the 32 bits of an offset in a `FlowAddr`,
    and flow offsets that fit 64 bits. -/

namespace UbsIo.Flows

open UbsIo.Lib

variable {ι : Type} [DecidableEq ι] {d : Dims} {s s' : Flow ι} {t u : ι}

/-! ## Bytes -/

/-- The bytes of an address: a chunk, and an offset in it. -/
def FlowAddr.bytes (a : FlowAddr) : List (Nat × Nat) :=
  (List.range a.chunkLen).map fun i => (a.chunkId, a.chunkOffset + i)

/-- The bytes of a list of addresses, in order. -/
def bytesOf (flowAddr : List FlowAddr) : List (Nat × Nat) :=
  flowAddr.flatMap FlowAddr.bytes

/-- The chunk that was allocated for a flow offset. -/
def chunkFor (log : List (Nat × Nat)) (offset : Nat) : Option Nat :=
  (log.find? fun e => e.1 == offset).map Prod.snd

/-- The place of a byte of the flow. -/
def byteAt (d : Dims) (log : List (Nat × Nat)) (x : Nat) :
    Option (Nat × Nat) :=
  (chunkFor log (x / d.chunkSize * d.chunkSize)).map fun c =>
    (c, x % d.chunkSize)

/-- The addresses are those of the bytes of the range. -/
structure Covers (d : Dims) (log : List (Nat × Nat)) (r : Range)
    (flowAddr : List FlowAddr) : Prop where
  total : (flowAddr.map FlowAddr.chunkLen).sum = r.len
  bytes : (bytesOf flowAddr).map some =
    (List.range r.len).map fun i => byteAt d log (r.offset + i)

/-! ## `BuildFlowAddrs` -/

/-- The places of the bytes from `cur` on in a list of chunks. -/
def placesFrom (chunkSize : Nat) (chunkList : List Nat) (cur len : Nat) :
    List (Option (Nat × Nat)) :=
  (List.range len).map fun i =>
    chunkList[(cur + i) / chunkSize]?.map fun c => (c, (cur + i) % chunkSize)

theorem placesFrom_append (chunkSize : Nat) (chunkList : List Nat)
    (cur a b : Nat) :
    placesFrom chunkSize chunkList cur (a + b) =
      placesFrom chunkSize chunkList cur a ++
        placesFrom chunkSize chunkList (cur + a) b := by
  rw [placesFrom, placesFrom, placesFrom, List.range_add, List.map_append,
    List.map_map]
  congr 1
  refine List.map_congr_left fun i _ => ?_
  simp only [Function.comp_apply, Nat.add_assoc]

/-- The bytes up to the end of a chunk lie in that chunk. -/
theorem placesFrom_chunk {chunkSize cur len chunkId : Nat}
    {chunkList : List Nat} (hpos : 0 < chunkSize)
    (hlen : len ≤ chunkSize - cur % chunkSize)
    (hget : chunkList[cur / chunkSize]? = some chunkId) :
    placesFrom chunkSize chunkList cur len =
      ((FlowAddr.mk chunkId (cur % chunkSize) len).bytes).map some := by
  rw [placesFrom, FlowAddr.bytes, List.map_map]
  refine List.map_congr_left fun i hi => ?_
  have hlt := List.mem_range.mp hi
  have hmod := Nat.mod_lt cur hpos
  have hsum : cur + i = chunkSize * (cur / chunkSize) +
      (cur % chunkSize + i) := by
    have hdiv := Nat.div_add_mod cur chunkSize
    omega
  have hsmall : cur % chunkSize + i < chunkSize := by omega
  have hq : (cur + i) / chunkSize = cur / chunkSize := by
    rw [hsum, Nat.mul_add_div hpos, Nat.div_eq_of_lt hsmall, Nat.add_zero]
  have hr : (cur + i) % chunkSize = cur % chunkSize + i := by
    rw [hsum, Nat.mul_add_mod, Nat.mod_eq_of_lt hsmall]
  rw [hq, hr, hget]
  rfl

/-- Bytes that have a place lie in the list. -/
theorem placesFrom_lt {chunkSize cur len : Nat} {chunkList : List Nat}
    {bs : List (Nat × Nat)}
    (h : bs.map some = placesFrom chunkSize chunkList cur len) :
    ∀ i < len, (cur + i) / chunkSize < chunkList.length := by
  intro i hi
  have hmem : (chunkList[(cur + i) / chunkSize]?.map fun c =>
      (c, (cur + i) % chunkSize)) ∈ bs.map some := by
    rw [h]
    exact List.mem_map.mpr ⟨i, List.mem_range.mpr hi, rfl⟩
  obtain ⟨b, -, hb⟩ := List.mem_map.mp hmem
  obtain ⟨c, hc, -⟩ := Option.map_eq_some_iff.mp hb.symm
  exact (List.getElem?_eq_some_iff.mp hc).1

/-- **THE LOOP** of `BuildFlowAddrs`, if it ends well. -/
theorem buildFrom_spec {chunkSize : Nat} {chunkList : List Nat}
    (hpos : 0 < chunkSize) (hsize : chunkSize ≤ 2 ^ 32)
    (hfit : chunkList.length * chunkSize < 2 ^ 64) :
    ∀ {fuel remainLen cur : Nat} {flowAddr : List FlowAddr},
      remainLen < 2 ^ 32 →
      buildFrom chunkSize chunkList fuel remainLen cur = some flowAddr →
      (flowAddr.map FlowAddr.chunkLen).sum = remainLen ∧
      (bytesOf flowAddr).map some =
        placesFrom chunkSize chunkList cur remainLen := by
  intro fuel
  induction fuel with
  | zero =>
      intro remainLen cur flowAddr _ h
      cases remainLen with
      | zero =>
          cases h
          exact ⟨rfl, rfl⟩
      | succ n => exact nomatch h
  | succ fuel ih =>
      intro remainLen cur flowAddr hlt h
      cases remainLen with
      | zero =>
          cases h
          exact ⟨rfl, rfl⟩
      | succ n =>
          rw [buildFrom] at h
          split at h
          · exact nomatch h
          · rename_i chunkId hget
            obtain ⟨rest, hrest, rfl⟩ := Option.map_eq_some_iff.mp h
            have hmod := Nat.mod_lt cur hpos
            have hcur : min (n + 1) (chunkSize - cur % chunkSize) < 2 ^ 32 := by
              omega
            have hsplit : n + 1 = min (n + 1) (chunkSize - cur % chunkSize) +
                (n + 1 - min (n + 1) (chunkSize - cur % chunkSize)) := by
              omega
            -- the next offset is at most the end of the list of chunks
            have hnext : wrap64 (cur +
                min (n + 1) (chunkSize - cur % chunkSize)) =
                cur + min (n + 1) (chunkSize - cur % chunkSize) := by
              refine Nat.mod_eq_of_lt ?_
              have hidx := (List.getElem?_eq_some_iff.mp hget).1
              have hend : (cur / chunkSize + 1) * chunkSize ≤
                  chunkList.length * chunkSize :=
                Nat.mul_le_mul_right _ hidx
              have hdiv := Nat.div_add_mod cur chunkSize
              rw [Nat.add_mul, Nat.one_mul, Nat.mul_comm] at hend
              omega
            rw [hnext] at hrest
            obtain ⟨hsum, hbytes⟩ := ih (by omega) hrest
            rw [Nat.mod_eq_of_lt hcur,
              Nat.mod_eq_of_lt (Nat.lt_of_lt_of_le hmod hsize)]
            refine ⟨?_, ?_⟩
            · rw [List.map_cons, List.sum_cons, hsum]
              exact hsplit.symm
            · rw [bytesOf, List.flatMap_cons, List.map_append]
              conv_rhs => rw [hsplit, placesFrom_append]
              rw [placesFrom_chunk hpos (Nat.min_le_right ..) hget]
              congr 1

/-! ## The log of allocations -/

/-- The `i`-th chunk was allocated for the `i`-th multiple of the size. -/
def InOrder (d : Dims) (log : List (Nat × Nat)) : Prop :=
  ∀ i e, log[i]? = some e → e.1 = i * d.chunkSize

theorem InOrder.find {log : List (Nat × Nat)} (hpos : 0 < d.chunkSize)
    (h : InOrder d log) (k : Nat) :
    chunkFor log (k * d.chunkSize) = (log.map Prod.snd)[k]? := by
  have hfind : (log.find? fun e => e.1 == k * d.chunkSize) = log[k]? := by
    cases hk : log[k]? with
    | some e =>
        obtain ⟨hlt, hget⟩ := List.getElem?_eq_some_iff.mp hk
        refine List.find?_eq_some_iff_getElem.mpr
          ⟨beq_iff_eq.mpr (h k e hk), k, hlt, hget, ?_⟩
        intro j hj
        have hoff := h j _ (List.getElem?_eq_getElem (Nat.lt_trans hj hlt))
        rw [hoff, Bool.not_eq_true', beq_eq_false_iff_ne]
        intro heq
        exact absurd (Nat.eq_of_mul_eq_mul_right hpos heq) (Nat.ne_of_lt hj)
    | none =>
        refine List.find?_eq_none.mpr fun e he heq => ?_
        obtain ⟨j, hlt, hget⟩ := List.mem_iff_getElem.mp he
        have hoff := h j e (List.getElem?_eq_some_iff.mpr ⟨hlt, hget⟩)
        rw [hoff, beq_iff_eq] at heq
        have hjk := Nat.eq_of_mul_eq_mul_right hpos heq
        rw [List.getElem?_eq_none_iff, ← hjk] at hk
        exact Nat.not_lt_of_le hk hlt
  rw [chunkFor, hfind, List.getElem?_map]

theorem InOrder.append {log : List (Nat × Nat)} {chunkId : Nat}
    (h : InOrder d log) :
    InOrder d (log ++ [(log.length * d.chunkSize, chunkId)]) := by
  intro i e hi
  rw [List.getElem?_append] at hi
  split at hi
  · exact h i e hi
  · rename_i hge
    obtain ⟨hlt, hget⟩ := List.getElem?_eq_some_iff.mp hi
    rw [List.length_singleton] at hlt
    have hidx : i = log.length := by omega
    subst hidx
    simp only [Nat.sub_self] at hget
    rw [← hget]
    rfl

/-- A byte keeps its place when more chunks are allocated. -/
theorem byteAt_append {log : List (Nat × Nat)} {x : Nat} {b : Nat × Nat}
    (h : byteAt d log x = some b) (more : List (Nat × Nat)) :
    byteAt d (log ++ more) x = some b := by
  obtain ⟨c, hc, hb⟩ := Option.map_eq_some_iff.mp h
  obtain ⟨e, he, hec⟩ := Option.map_eq_some_iff.mp hc
  rw [byteAt, chunkFor, List.find?_append, he]
  show some (e.2, _) = some b
  rw [hec, hb]

theorem Covers.append {log : List (Nat × Nat)} {r : Range}
    {flowAddr : List FlowAddr} (h : Covers d log r flowAddr)
    (more : List (Nat × Nat)) : Covers d (log ++ more) r flowAddr := by
  refine ⟨h.total, h.bytes.trans ?_⟩
  refine List.map_congr_left fun i hi => ?_
  -- the byte has a place, since it occurs among the bytes
  have hmem : byteAt d log (r.offset + i) ∈ (bytesOf flowAddr).map some := by
    rw [h.bytes]
    exact List.mem_map.mpr ⟨i, hi, rfl⟩
  obtain ⟨b, -, hb⟩ := List.mem_map.mp hmem
  rw [← hb, byteAt_append hb.symm]

/-- Two bytes at one place are the same byte. -/
theorem byteAt_inj {log : List (Nat × Nat)} (hpos : 0 < d.chunkSize)
    (h : InOrder d log) (hnodup : (log.map Prod.snd).Nodup) {x y : Nat}
    {b : Nat × Nat} (hx : byteAt d log x = some b)
    (hy : byteAt d log y = some b) : x = y := by
  rw [byteAt, h.find hpos] at hx hy
  obtain ⟨c, hc, hxb⟩ := Option.map_eq_some_iff.mp hx
  obtain ⟨c', hc', hyb⟩ := Option.map_eq_some_iff.mp hy
  rw [← hyb, Prod.mk.injEq] at hxb
  obtain ⟨hcc, hmod⟩ := hxb
  obtain ⟨hlt, hget⟩ := List.getElem?_eq_some_iff.mp hc
  obtain ⟨hlt', hget'⟩ := List.getElem?_eq_some_iff.mp hc'
  have hidx : x / d.chunkSize = y / d.chunkSize :=
    (List.Nodup.getElem_inj_iff hnodup).mp (by rw [hget, hget', hcc])
  rw [← Nat.div_add_mod x d.chunkSize, hidx, hmod, Nat.div_add_mod]

/-! ## The chunk list -/

/-- The chunk that a worker has got and not yet put on the list, if any. -/
def Pending (s : Flow ι) (rest : List Nat) : Prop :=
  (rest = [] ∧ ∀ u c, s.threads u ≠ .push c) ∨
    ∃ u c, rest = [c] ∧ s.threads u = .push c

structure Mapped (d : Dims) (s : Flow ι) : Prop where
  held : ∃ h, Held s h
  inOrder : InOrder d s.log
  chunks : ∃ gone rest : List Nat,
    gone.length = s.truncateOffset / d.chunkSize ∧
    s.log.map Prod.snd = gone ++ s.chunkList ++ rest ∧ Pending s rest
  preLoad : s.preLoadOffset =
    (s.truncateOffset / d.chunkSize + s.chunkList.length) * d.chunkSize
  preLoad_lt : s.preLoadOffset < 2 ^ 64
  trunc_le : s.truncateOffset ≤ s.preLoadOffset
  alloc : ∀ u o, s.threads u = .alloc o → o = s.preLoadOffset
  trunc : ∀ u o, (s.threads u = .truncWriten o ∨
    s.threads u = .truncate o) → o ≤ s.preLoadOffset

omit [DecidableEq ι] in
/-- `BuildFlowAddrs` gives the bytes of the range. -/
theorem Mapped.build {r : Range} {flowAddr : List FlowAddr}
    (hpos : 0 < d.chunkSize) (hsize : d.chunkSize ≤ 2 ^ 32)
    (hm : Mapped d s)
    (hbuild : buildFlowAddrs d s.chunkList s.truncateOffset r =
      some flowAddr) : Covers d s.log r flowAddr := by
  obtain ⟨gone, rest, hgone, hlog, -⟩ := hm.chunks
  have hpre := hm.preLoad
  have hprelt := hm.preLoad_lt
  have hbase : s.truncateOffset / d.chunkSize * d.chunkSize ≤
      s.preLoadOffset := by
    rw [hpre]
    exact Nat.mul_le_mul_right _ (Nat.le_add_right ..)
  have hfit : s.chunkList.length * d.chunkSize < 2 ^ 64 := by
    rw [hpre, Nat.add_mul] at hprelt
    omega
  rw [buildFlowAddrs] at hbuild
  obtain ⟨hsum, hbytes⟩ := buildFrom_spec hpos hsize hfit r.len_lt hbuild
  refine ⟨hsum, hbytes.trans ?_⟩
  have hidx := placesFrom_lt hbytes
  by_cases hlen : r.len = 0
  · rw [hlen, placesFrom, List.range_zero, List.map_nil, List.map_nil]
  · have hlt := r.offset_lt
    have hcur := (Nat.div_lt_iff_lt_mul hpos).mp (hidx 0 (Nat.pos_of_ne_zero hlen))
    rw [Nat.add_zero] at hcur
    -- the subtraction has not wrapped: else the first index is too large
    have hoff : s.truncateOffset / d.chunkSize * d.chunkSize ≤ r.offset := by
      by_contra hwrap
      rw [wrap64, Nat.mod_eq_of_lt (by omega)] at hcur
      rw [hpre, Nat.add_mul] at hprelt
      omega
    have heq : wrap64 (r.offset + 2 ^ 64 -
        s.truncateOffset / d.chunkSize * d.chunkSize) =
        r.offset - s.truncateOffset / d.chunkSize * d.chunkSize := by
      rw [wrap64]
      omega
    rw [heq] at hidx ⊢
    refine List.map_congr_left fun i hi => ?_
    have hj := hidx i (List.mem_range.mp hi)
    have hsum : r.offset + i =
        d.chunkSize * (s.truncateOffset / d.chunkSize) +
          (r.offset - s.truncateOffset / d.chunkSize * d.chunkSize + i) := by
      rw [Nat.mul_comm d.chunkSize]
      omega
    rw [byteAt, hm.inOrder.find hpos, hlog, hsum,
      Nat.mul_add_div hpos, Nat.mul_add_mod, List.append_assoc,
      List.getElem?_append_right (by rw [hgone]; exact Nat.le_add_right ..),
      hgone, Nat.add_sub_cancel_left, List.getElem?_append_left hj]

/-! ## `TruncateOffset` -/

/-- The loop takes off the chunks that end at or before `offset`. -/
theorem truncateFrom_eq {chunkSize offset : Nat} (hpos : 0 < chunkSize) :
    ∀ {chunkList : List Nat} {k : Nat},
      (k + chunkList.length) * chunkSize < 2 ^ 64 →
      truncateFrom chunkSize offset (k * chunkSize) chunkList =
        (chunkList.take (offset / chunkSize - k),
          chunkList.drop (offset / chunkSize - k)) := by
  intro chunkList
  induction chunkList with
  | nil => intro k _; simp [truncateFrom]
  | cons c rest ih =>
      intro k hfit
      rw [List.length_cons] at hfit
      have hnext : wrap64 (k * chunkSize + chunkSize) =
          (k + 1) * chunkSize := by
        rw [← Nat.succ_mul]
        refine Nat.mod_eq_of_lt (Nat.lt_of_le_of_lt ?_ hfit)
        exact Nat.mul_le_mul_right _ (by omega)
      rw [truncateFrom, hnext]
      by_cases hle : (k + 1) * chunkSize ≤ offset
      · have hk := (Nat.le_div_iff_mul_le hpos).mpr hle
        have hsub : offset / chunkSize - k =
            offset / chunkSize - (k + 1) + 1 := by
          omega
        rw [if_pos hle, ih (by rw [Nat.add_right_comm]; exact hfit), hsub]
        rfl
      · have hk : offset / chunkSize - k = 0 := by
          have hlt := (Nat.div_lt_iff_lt_mul hpos).mpr (Nat.lt_of_not_le hle)
          omega
        rw [if_neg hle, hk]
        rfl

omit [DecidableEq ι] in
/-- What the locked section of `TruncateOffset` takes off and leaves. -/
theorem Mapped.truncated_eq (hpos : 0 < d.chunkSize) (hm : Mapped d s)
    (offset : Nat) :
    truncated d s offset =
      (s.chunkList.take (offset / d.chunkSize -
          s.truncateOffset / d.chunkSize),
        s.chunkList.drop (offset / d.chunkSize -
          s.truncateOffset / d.chunkSize)) := by
  refine truncateFrom_eq hpos ?_
  rw [← hm.preLoad]
  exact hm.preLoad_lt

/-! ## Steps -/

/-- Flow offsets stay below `2 ^ 64`. -/
def Fits (d : Dims) (s : Flow ι) : Event ι → Prop
  | .go t => ∀ c, s.threads t = .push c →
      s.preLoadOffset + d.chunkSize < 2 ^ 64
  | _ => True

/-- `MediaAlloc` does not return a chunk a second time. -/
def AllocsNew (s : Flow ι) : Event ι → Prop
  | .mediaAlloc _ (some chunkId) => chunkId ∉ s.log.map Prod.snd
  | _ => True

/-- The steps that keep the addresses right. -/
def Addressed (d : Dims) (s : Flow ι) (e : Event ι) : Prop :=
  Fits d s e ∧ AllocsNew s e

/-- A thread that is not about to push goes on, and the chunks stay. -/
theorem Mapped.keep {p : Phase} (hm : Mapped d s) (hheld : ∃ h, Held s' h)
    (hthreads : s'.threads = Function.update s.threads t p)
    (hchunks : s'.chunkList = s.chunkList)
    (htrunc : s'.truncateOffset = s.truncateOffset)
    (hpre : s'.preLoadOffset = s.preLoadOffset) (hlog : s'.log = s.log)
    (hold : ∀ c, s.threads t ≠ .push c) (hnew : ∀ c, p ≠ .push c)
    (halloc : ∀ o, p = .alloc o → o = s.preLoadOffset)
    (hoffset : ∀ o, (p = .truncWriten o ∨ p = .truncate o) →
      o ≤ s.preLoadOffset) : Mapped d s' := by
  have hself : s'.threads t = p := by
    rw [hthreads]
    exact Function.update_self ..
  have hother : ∀ u, u ≠ t → s'.threads u = s.threads u := by
    intro u hu
    rw [hthreads]
    exact Function.update_of_ne hu ..
  refine ⟨hheld, ?_, ?_, ?_, ?_, ?_, ?_, ?_⟩
  · rw [hlog]
    exact hm.inOrder
  · obtain ⟨gone, rest, hgone, hsplit, hpend⟩ := hm.chunks
    refine ⟨gone, rest, by rw [htrunc]; exact hgone, by
      rw [hlog, hchunks]
      exact hsplit, ?_⟩
    rcases hpend with ⟨hrest, hnone⟩ | ⟨u, c, hrest, hu⟩
    · refine Or.inl ⟨hrest, fun u c hu => ?_⟩
      by_cases hut : u = t
      · rw [hut, hself] at hu
        exact hnew c hu
      · rw [hother u hut] at hu
        exact hnone u c hu
    · refine Or.inr ⟨u, c, hrest, ?_⟩
      rw [hother u (by
        rintro rfl
        exact hold c hu)]
      exact hu
  · rw [hpre, htrunc, hchunks]
    exact hm.preLoad
  · rw [hpre]
    exact hm.preLoad_lt
  · rw [hpre, htrunc]
    exact hm.trunc_le
  · intro u o hu
    rw [hpre]
    by_cases hut : u = t
    · rw [hut, hself] at hu
      exact halloc o hu
    · rw [hother u hut] at hu
      exact hm.alloc u o hu
  · intro u o hu
    rw [hpre]
    by_cases hut : u = t
    · rw [hut, hself] at hu
      exact hoffset o hu
    · rw [hother u hut] at hu
      exact hm.trunc u o hu

/-- Chunks go in steps of whole chunks. -/
theorem Mapped.truncate {offset : Nat} (hpos : 0 < d.chunkSize)
    (hm : Mapped d s) (ht : s.threads t = .truncate offset)
    (hlt : s.truncateOffset < offset)
    (hheld : ∃ h, Held (Flow.goto
      { s with
        chunkList := (truncated d s offset).2
        truncateOffset := offset }
      t (.free (truncated d s offset).1)) h) :
    Mapped d (Flow.goto
      { s with
        chunkList := (truncated d s offset).2
        truncateOffset := offset }
      t (.free (truncated d s offset).1)) := by
  have hle := hm.trunc t offset (Or.inr ht)
  have hfirst : s.truncateOffset / d.chunkSize ≤ offset / d.chunkSize :=
    Nat.div_le_div_right (Nat.le_of_lt hlt)
  have hlast : offset / d.chunkSize ≤
      s.truncateOffset / d.chunkSize + s.chunkList.length := by
    rw [hm.preLoad] at hle
    have hdiv := Nat.div_le_div_right (c := d.chunkSize) hle
    rw [Nat.mul_div_cancel _ hpos] at hdiv
    exact hdiv
  have heq := hm.truncated_eq hpos offset
  have hself := goto_threads_self
    { s with
      chunkList := (truncated d s offset).2
      truncateOffset := offset } t (.free (truncated d s offset).1)
  have hother : ∀ u, u ≠ t → (Flow.goto
      { s with
        chunkList := (truncated d s offset).2
        truncateOffset := offset }
      t (.free (truncated d s offset).1)).threads u = s.threads u :=
    fun u hu => goto_threads_ne _ _ hu
  refine ⟨hheld, hm.inOrder, ?_, ?_, hm.preLoad_lt, hle, ?_, ?_⟩
  · obtain ⟨gone, rest, hgone, hsplit, hpend⟩ := hm.chunks
    refine ⟨gone ++ s.chunkList.take (offset / d.chunkSize -
      s.truncateOffset / d.chunkSize), rest, ?_, ?_, ?_⟩
    · rw [List.length_append, List.length_take, hgone]
      show _ = offset / d.chunkSize
      omega
    · show s.log.map Prod.snd = _ ++ (truncated d s offset).2 ++ rest
      rw [hsplit, heq]
      dsimp only
      rw [List.append_assoc gone (List.take _ _), List.take_append_drop]
    · rcases hpend with ⟨hrest, hnone⟩ | ⟨u, c, hrest, hu⟩
      · refine Or.inl ⟨hrest, fun u c hu => ?_⟩
        by_cases hut : u = t
        · rw [hut, hself] at hu
          exact nomatch hu
        · rw [hother u hut] at hu
          exact hnone u c hu
      · refine Or.inr ⟨u, c, hrest, ?_⟩
        rw [hother u (by
          rintro rfl
          rw [ht] at hu
          exact nomatch hu)]
        exact hu
  · show s.preLoadOffset = (offset / d.chunkSize +
      (truncated d s offset).2.length) * d.chunkSize
    rw [hm.preLoad, heq, List.length_drop]
    congr 1
    omega
  · intro u o hu
    by_cases hut : u = t
    · rw [hut, hself] at hu
      exact nomatch hu
    · rw [hother u hut] at hu
      exact hm.alloc u o hu
  · intro u o hu
    by_cases hut : u = t
    · rw [hut, hself] at hu
      rcases hu with hu | hu
      · exact nomatch hu
      · exact nomatch hu
    · rw [hother u hut] at hu
      exact hm.trunc u o hu

omit [DecidableEq ι] in
/-- Only the thread with the flag is in `PreLoadHandle`. -/
theorem Mapped.unique (hm : Mapped d s) (ht : (s.threads t).owns = true)
    (hu : (s.threads u).owns = true) : u = t := by
  obtain ⟨h, hh⟩ := hm.held
  have hmine := hh.of_owns ht
  have hyours := hh.of_owns hu
  rw [hmine] at hyours
  exact (Option.some.inj (Option.some.inj hyours)).symm

theorem Mapped.allocated {offset chunkId : Nat} (hm : Mapped d s)
    (ht : s.threads t = .alloc offset)
    (hheld : ∃ h, Held (Flow.goto
      { s with
        media := s.media ++ [(offset, chunkId)]
        log := s.log ++ [(offset, chunkId)] }
      t (.push chunkId)) h) :
    Mapped d (Flow.goto
      { s with
        media := s.media ++ [(offset, chunkId)]
        log := s.log ++ [(offset, chunkId)] }
      t (.push chunkId)) := by
  have hself := goto_threads_self
    { s with
      media := s.media ++ [(offset, chunkId)]
      log := s.log ++ [(offset, chunkId)] } t (.push chunkId)
  have hother : ∀ u, u ≠ t → (Flow.goto
      { s with
        media := s.media ++ [(offset, chunkId)]
        log := s.log ++ [(offset, chunkId)] }
      t (.push chunkId)).threads u = s.threads u :=
    fun u hu => goto_threads_ne _ _ hu
  obtain ⟨gone, rest, hgone, hsplit, hpend⟩ := hm.chunks
  have hrest : rest = [] := by
    rcases hpend with ⟨hrest, -⟩ | ⟨u, c, -, hu⟩
    · exact hrest
    · have hut := hm.unique (t := t) (u := u) (by rw [ht]; rfl)
        (by rw [hu]; rfl)
      rw [hut, ht] at hu
      exact nomatch hu
  rw [hrest, List.append_nil] at hsplit
  have hoff : offset = s.log.length * d.chunkSize := by
    have hlen := congrArg List.length hsplit
    rw [List.length_map, List.length_append, hgone] at hlen
    rw [hm.alloc t offset ht, hm.preLoad, hlen]
  refine ⟨hheld, ?_, ?_, hm.preLoad, hm.preLoad_lt, hm.trunc_le, ?_, ?_⟩
  · show InOrder d (s.log ++ [(offset, chunkId)])
    rw [hoff]
    exact hm.inOrder.append
  · refine ⟨gone, [chunkId], hgone, ?_, Or.inr ⟨t, chunkId, rfl, hself⟩⟩
    show (s.log ++ [(offset, chunkId)]).map Prod.snd = _
    rw [List.map_append, hsplit]
    rfl
  · intro u o hu
    by_cases hut : u = t
    · rw [hut, hself] at hu
      exact nomatch hu
    · rw [hother u hut] at hu
      exact hm.alloc u o hu
  · intro u o hu
    by_cases hut : u = t
    · rw [hut, hself] at hu
      rcases hu with hu | hu
      · exact nomatch hu
      · exact nomatch hu
    · rw [hother u hut] at hu
      exact hm.trunc u o hu

theorem Mapped.push {chunkId : Nat} (hm : Mapped d s)
    (ht : s.threads t = .push chunkId)
    (hfit : s.preLoadOffset + d.chunkSize < 2 ^ 64)
    (hheld : ∃ h, Held ((pushed d s chunkId).goto t
      (.clean (pushed d s chunkId).preLoadOffset
        (isReady d (pushed d s chunkId)))) h) :
    Mapped d ((pushed d s chunkId).goto t
      (.clean (pushed d s chunkId).preLoadOffset
        (isReady d (pushed d s chunkId)))) := by
  have hpre : (pushed d s chunkId).preLoadOffset =
      s.preLoadOffset + d.chunkSize := Nat.mod_eq_of_lt hfit
  have hself := goto_threads_self (pushed d s chunkId) t
    (.clean (pushed d s chunkId).preLoadOffset
      (isReady d (pushed d s chunkId)))
  have hother : ∀ u, u ≠ t → ((pushed d s chunkId).goto t
      (.clean (pushed d s chunkId).preLoadOffset
        (isReady d (pushed d s chunkId)))).threads u = s.threads u :=
    fun u hu => goto_threads_ne _ _ hu
  have howner : (s.threads t).owns = true := by
    rw [ht]
    rfl
  refine ⟨hheld, hm.inOrder, ?_, ?_, ?_, ?_, ?_, ?_⟩
  · obtain ⟨gone, rest, hgone, hsplit, hpend⟩ := hm.chunks
    have hrest : rest = [chunkId] := by
      rcases hpend with ⟨-, hnone⟩ | ⟨u, c, hrest, hu⟩
      · exact absurd ht (hnone t chunkId)
      · have hut := hm.unique howner (u := u) (by rw [hu]; rfl)
        rw [hut, ht] at hu
        cases hu
        exact hrest
    refine ⟨gone, [], hgone, ?_, Or.inl ⟨rfl, ?_⟩⟩
    · show s.log.map Prod.snd = gone ++ (s.chunkList ++ [chunkId]) ++ []
      rw [hsplit, hrest, List.append_nil, List.append_assoc]
    · intro u c hu
      by_cases hut : u = t
      · rw [hut, hself] at hu
        exact nomatch hu
      · rw [hother u hut] at hu
        exact hut (hm.unique howner (by rw [hu]; rfl))
  · show (pushed d s chunkId).preLoadOffset = (s.truncateOffset /
      d.chunkSize + (s.chunkList ++ [chunkId]).length) * d.chunkSize
    rw [hpre, hm.preLoad, List.length_append, List.length_singleton,
      ← Nat.add_assoc, Nat.succ_mul]
  · show (pushed d s chunkId).preLoadOffset < 2 ^ 64
    rw [hpre]
    exact hfit
  · show s.truncateOffset ≤ (pushed d s chunkId).preLoadOffset
    rw [hpre]
    exact Nat.le_trans hm.trunc_le (Nat.le_add_right ..)
  · intro u o hu
    by_cases hut : u = t
    · rw [hut, hself] at hu
      exact nomatch hu
    · rw [hother u hut] at hu
      exact absurd (hm.unique howner (by rw [hu]; rfl)) hut
  · intro u o hu
    show o ≤ (pushed d s chunkId).preLoadOffset
    rw [hpre]
    by_cases hut : u = t
    · rw [hut, hself] at hu
      rcases hu with hu | hu
      · exact nomatch hu
      · exact nomatch hu
    · rw [hother u hut] at hu
      exact Nat.le_trans (hm.trunc u o hu) (Nat.le_add_right ..)

theorem next_not_push (k : Caller) (c : Nat) : k.next ≠ .push c := by
  cases k with
  | holdWait r => exact nofun
  | getAddr => exact nofun

theorem next_alloc (k : Caller) (o : Nat) : k.next ≠ .alloc o ∧
    k.next ≠ .truncWriten o ∧ k.next ≠ .truncate o := by
  cases k with
  | holdWait r => exact ⟨nofun, nofun, nofun⟩
  | getAddr => exact ⟨nofun, nofun, nofun⟩

theorem mayLeave_not_push {p : Phase} (hp : p.mayLeave = true) (c : Nat) :
    p ≠ .push c := by
  rintro rfl
  exact nomatch hp

/-- **A STEP KEEPS THE CHUNKS IN PLACE.** -/
theorem Mapped.trans {e : Event ι} (hpos : 0 < d.chunkSize)
    (hm : Mapped d s) (hg : Fits d s e) (ht : Trans d s e s') : Mapped d s' := by
  have hheld : ∃ h, Held s' h := by
    obtain ⟨h, hh⟩ := hm.held
    exact held_trans hh ht
  cases ht with
  | call t r hp =>
      exact hm.keep hheld (t := t) rfl rfl rfl rfl rfl
        (by rw [hp]; exact nofun) nofun nofun nofun
  | truncCall t offset hp =>
      exact hm.keep hheld (t := t) rfl rfl rfl rfl rfl
        (by rw [hp]; exact nofun) nofun nofun nofun
  | leave t hp =>
      exact hm.keep hheld (t := t) rfl rfl rfl rfl rfl
        (mayLeave_not_push hp) nofun nofun nofun
  | advance t p hp =>
      generalize hq : s.threads t = q at hp
      cases hp with
      | valid r _ _ =>
          exact hm.keep hheld (t := t) rfl rfl rfl rfl rfl
            (by rw [hq]; exact nofun) nofun nofun nofun
      | ahead r _ =>
          exact hm.keep hheld (t := t) rfl rfl rfl rfl rfl
            (by rw [hq]; exact nofun) nofun nofun nofun
      | loaded r =>
          exact hm.keep hheld (t := t) rfl rfl rfl rfl rfl
            (by rw [hq]; exact nofun) nofun nofun nofun
      | truncPreLoad offset hle =>
          refine hm.keep hheld (t := t) rfl rfl rfl rfl rfl
            (by rw [hq]; exact nofun) nofun nofun ?_
          rintro o (ho | ho)
          · cases ho
            exact hle
          · exact nomatch ho
      | truncWriten offset =>
          refine hm.keep hheld (t := t) rfl rfl rfl rfl rfl
            (by rw [hq]; exact nofun) nofun nofun ?_
          rintro o (ho | ho)
          · exact nomatch ho
          · cases ho
            exact hm.trunc t offset (Or.inl hq)
  | holdLoaded t r hp =>
      exact hm.keep hheld (t := t) rfl rfl rfl rfl rfl
        (by rw [hp]; exact nofun) nofun nofun nofun
  | register t r hp hneed =>
      exact hm.keep hheld (t := t) rfl rfl rfl rfl rfl
        (by rw [hp]; exact nofun) nofun nofun nofun
  | ready t k hp hready =>
      exact hm.keep hheld (t := t) rfl rfl rfl rfl rfl
        (by rw [hp]; exact nofun) (next_not_push k)
        (fun o ho => absurd ho (next_alloc k o).1)
        (fun o ho => absurd ho (not_or.mpr (next_alloc k o).2))
  | notReady t k hp =>
      exact hm.keep hheld (t := t) rfl rfl rfl rfl rfl
        (by rw [hp]; exact nofun) nofun nofun nofun
  | busy t k hp hflag =>
      exact hm.keep hheld (t := t) rfl rfl rfl rfl rfl
        (by rw [hp]; exact nofun) (next_not_push k)
        (fun o ho => absurd ho (next_alloc k o).1)
        (fun o ho => absurd ho (not_or.mpr (next_alloc k o).2))
  | take t k hp hflag =>
      exact hm.keep hheld (t := t) rfl rfl rfl rfl rfl
        (by rw [hp]; exact nofun) nofun nofun nofun
  | woken t r p hp hpost hp' =>
      rcases hp' with rfl | rfl
      · exact hm.keep hheld (t := t) rfl rfl rfl rfl rfl
          (by rw [hp]; exact nofun) nofun nofun nofun
      · exact hm.keep hheld (t := t) rfl rfl rfl rfl rfl
          (by rw [hp]; exact nofun) nofun nofun nofun
  | written t r hp =>
      exact hm.keep hheld (t := t) rfl rfl rfl rfl rfl
        (by rw [hp]; exact nofun) nofun nofun nofun
  | built t r flowAddr hp hbuild =>
      exact hm.keep hheld (t := t) rfl rfl rfl rfl rfl
        (by rw [hp]; exact nofun) nofun nofun nofun
  | truncated t offset hp hlt => exact hm.truncate hpos hp hlt hheld
  | freed t chunkId cleanList hp =>
      exact hm.keep hheld (t := t) rfl rfl rfl rfl rfl
        (by rw [hp]; exact nofun) nofun nofun nofun
  | start t hp hq =>
      exact hm.keep hheld (t := t) rfl rfl rfl rfl rfl
        (by rw [hp]; exact nofun) nofun nofun nofun
  | load t hp =>
      refine hm.keep hheld (t := t) rfl rfl rfl rfl rfl
        (by rw [hp]; exact nofun) nofun ?_ nofun
      intro o ho
      cases ho
      rfl
  | allocated t offset chunkId hp hfresh => exact hm.allocated hp hheld
  | allocFailed t offset hp =>
      exact hm.keep hheld (t := t) rfl rfl rfl rfl rfl
        (by rw [hp]; exact nofun) nofun nofun nofun
  | pushed t chunkId hp => exact hm.push hp (hg chunkId hp) hheld
  | cleaned t offset b hp =>
      cases b with
      | true =>
          exact hm.keep hheld (t := t) rfl rfl rfl rfl rfl
            (by rw [hp]; exact nofun) nofun nofun nofun
      | false =>
          exact hm.keep hheld (t := t) rfl rfl rfl rfl rfl
            (by rw [hp]; exact nofun) nofun nofun nofun
  | cleanedAll t hp =>
      exact hm.keep hheld (t := t) rfl rfl rfl rfl rfl
        (by rw [hp]; exact nofun) nofun nofun nofun
  | submitted t k hp =>
      exact hm.keep hheld (t := t) rfl rfl rfl rfl rfl
        (by rw [hp]; exact nofun) (next_not_push k)
        (fun o ho => absurd ho (next_alloc k o).1)
        (fun o ho => absurd ho (not_or.mpr (next_alloc k o).2))
  | submitFailed t k hp =>
      exact hm.keep hheld (t := t) rfl rfl rfl rfl rfl
        (by rw [hp]; exact nofun) (next_not_push k)
        (fun o ho => absurd ho (next_alloc k o).1)
        (fun o ho => absurd ho (not_or.mpr (next_alloc k o).2))

omit [DecidableEq ι] in
theorem mapped_init (d : Dims) : Mapped d (Flow.init ι) where
  held := ⟨none, held_init⟩
  inOrder := fun i e hi => nomatch hi
  chunks := by
    refine ⟨[], [], ?_, rfl, Or.inl ⟨rfl, nofun⟩⟩
    exact (Nat.zero_div _).symm
  preLoad := by
    show 0 = (0 / d.chunkSize + 0) * d.chunkSize
    rw [Nat.zero_div, Nat.zero_mul]
  preLoad_lt := Nat.two_pow_pos 64
  trunc_le := Nat.le_refl 0
  alloc := nofun
  trunc := nofun

omit [DecidableEq ι] in
/-- The chunk at an index is the one for its flow offset. -/
theorem Mapped.chunkFor (hpos : 0 < d.chunkSize) (hm : Mapped d s) {i : Nat}
    (hi : i < s.chunkList.length) :
    chunkFor s.log ((s.truncateOffset / d.chunkSize + i) * d.chunkSize) =
      s.chunkList[i]? := by
  obtain ⟨gone, rest, hgone, hsplit, -⟩ := hm.chunks
  rw [hm.inOrder.find hpos, hsplit, List.append_assoc,
    List.getElem?_append_right (by rw [hgone]; exact Nat.le_add_right ..),
    hgone, Nat.add_sub_cancel_left, List.getElem?_append_left hi]

theorem log_nodup_trans {e : Event ι} (h : (s.log.map Prod.snd).Nodup)
    (hg : AllocsNew s e) (ht : Trans d s e s') :
    (s'.log.map Prod.snd).Nodup := by
  cases ht with
  | allocated t offset chunkId hp hfresh =>
      show ((s.log ++ [(offset, chunkId)]).map Prod.snd).Nodup
      rw [List.map_append, List.nodup_append]
      refine ⟨h, List.nodup_singleton _, ?_⟩
      intro a ha b hb hab
      rw [List.map_cons, List.map_nil, List.mem_singleton] at hb
      rw [hab, hb] at ha
      exact hg ha
  | _ => exact h

/-- Every answer so far consists of the bytes of its range. -/
def Answered (d : Dims) (s : Flow ι) : Prop :=
  ∀ a ∈ s.answers, Covers d s.log a.1 a.2

theorem Answered.trans {e : Event ι} (hpos : 0 < d.chunkSize)
    (hsize : d.chunkSize ≤ 2 ^ 32) (hm : Mapped d s) (ha : Answered d s)
    (ht : Trans d s e s') : Answered d s' := by
  cases ht with
  | built t r flowAddr hp hbuild =>
      have hnew : Covers d s.log r flowAddr := hm.build hpos hsize hbuild
      intro a hmem
      rcases List.mem_append.mp hmem with hmem | hmem
      · exact ha a hmem
      · rw [List.mem_singleton.mp hmem]
        exact hnew
  | allocated t offset chunkId hp hfresh =>
      intro a hmem
      exact (ha a hmem).append _
  | _ => exact ha

/-- A byte of an answer is a byte of its range. -/
theorem Covers.mem {log : List (Nat × Nat)} {r : Range}
    {flowAddr : List FlowAddr} (h : Covers d log r flowAddr) {b : Nat × Nat}
    (hb : b ∈ bytesOf flowAddr) :
    ∃ x, r.offset ≤ x ∧ x < r.offset + r.len ∧ byteAt d log x = some b := by
  have hmem : some b ∈ (bytesOf flowAddr).map some := List.mem_map_of_mem hb
  rw [h.bytes] at hmem
  obtain ⟨i, hi, hbyte⟩ := List.mem_map.mp hmem
  have hlt := List.mem_range.mp hi
  exact ⟨r.offset + i, Nat.le_add_right .., by omega, hbyte⟩

/-- **FLOW ADDRESSES**: along every run with chunks that are never handed out
    twice and offsets that fit, at most one thread is in `PreLoadHandle`, the
    chunk list holds the chunks of its offsets and `mPreLoadOffset` is its end;
    every answer consists of the bytes of its range, answers for ranges that do
    not overlap share no byte, and answers for one range are the same bytes. -/
theorem flow_addresses {es : List (Event ι)} (hpos : 1 ≤ d.chunkSize)
    (hsize : d.chunkSize ≤ 2 ^ 32)
    (hgood : Along (step d) (Addressed d) (Flow.init ι) es)
    (hrun : runFrom (step d) (Flow.init ι) es = some s) :
    (∀ t u, (s.threads t).handles = true → (s.threads u).handles = true →
      t = u) ∧
    (∀ i < s.chunkList.length, s.chunkList[i]? = chunkFor s.log
      ((s.truncateOffset / d.chunkSize + i) * d.chunkSize)) ∧
    s.preLoadOffset = (s.truncateOffset / d.chunkSize + s.chunkList.length) *
      d.chunkSize ∧
    (∀ a ∈ s.answers, (a.2.map FlowAddr.chunkLen).sum = a.1.len ∧
      (bytesOf a.2).map some =
        (List.range a.1.len).map fun i => byteAt d s.log (a.1.offset + i)) ∧
    (∀ a ∈ s.answers, ∀ b ∈ s.answers,
      (a.1.needOffset ≤ b.1.offset ∨ b.1.needOffset ≤ a.1.offset →
        ∀ x ∈ bytesOf a.2, x ∉ bytesOf b.2) ∧
      (a.1 = b.1 → bytesOf a.2 = bytesOf b.2)) := by
  obtain ⟨hm, hans, hnodup⟩ := runFrom_invariant_along
    (I := fun s => Mapped d s ∧ Answered d s ∧ (s.log.map Prod.snd).Nodup)
    (fun _ _ _ hI hg hs => ⟨hI.1.trans hpos hg.1 (trans_of_step hs),
      hI.2.1.trans hpos hsize hI.1 (trans_of_step hs),
      log_nodup_trans hI.2.2 hg.2 (trans_of_step hs)⟩)
    es (Flow.init ι) s ⟨mapped_init d, nofun, List.nodup_nil⟩ hgood hrun
  refine ⟨?_, ?_, hm.preLoad, ?_, ?_⟩
  · intro t u ht hu
    exact hm.unique (handles_owns hu) (handles_owns ht)
  · intro i hi
    exact (hm.chunkFor hpos hi).symm
  · intro a ha
    exact ⟨(hans a ha).total, (hans a ha).bytes⟩
  · intro a ha b hb
    have hca := hans a ha
    have hcb := hans b hb
    constructor
    · intro hdisj x hxa hxb
      obtain ⟨y, hy1, hy2, hy⟩ := hca.mem hxa
      obtain ⟨z, hz1, hz2, hz⟩ := hcb.mem hxb
      have hyz := byteAt_inj hpos hm.inOrder hnodup hy hz
      rw [Range.needOffset, Range.needOffset] at hdisj
      omega
    · intro heq
      have hbytes : (bytesOf a.2).map some = (bytesOf b.2).map some := by
        rw [hca.bytes, hcb.bytes, heq]
      exact List.map_injective_iff.mpr (Option.some_injective _) hbytes

/-! ## Two runs -/

/-- Chunks larger than what the offset of a `FlowAddr` can tell apart. -/
def hugeDims : Dims := .of (2 ^ 33) 0

/-- Two writers ask for one byte each, `2 ^ 32` bytes apart. -/
def farApart : List (Event (Fin 2)) :=
  [.getAddrByOffset (two 0) (.of (2 ^ 32) 1), .go (two 0), .go (two 0),
   .go (two 0), .go (two 0), .go (two 0), .preLoadObject (two 0) true,
   .start (two 1), .go (two 1), .mediaAlloc (two 1) (some 70), .go (two 1),
   .go (two 1), .go (two 0), .go (two 0), .go (two 0), .go (two 0),
   .getAddrByOffset (two 0) (.of 0 1), .go (two 0), .go (two 0), .go (two 0),
   .go (two 0)]

/-- With chunks of `2 ^ 33` bytes two ranges that do not overlap get the same
    byte. -/
theorem far_apart_share_byte :
    ∃ s, runFrom (step hugeDims) (Flow.init (Fin 2)) farApart = some s ∧
      ∃ a ∈ s.answers, ∃ b ∈ s.answers, b.1.needOffset ≤ a.1.offset ∧
        ∃ x ∈ bytesOf a.2, x ∈ bytesOf b.2 := by
  have hcheck : (runFrom (step hugeDims) (Flow.init (Fin 2)) farApart).any
      (fun s => s.answers.any fun a => s.answers.any fun b =>
        decide (b.1.needOffset ≤ a.1.offset) &&
          (bytesOf a.2).any fun x => decide (x ∈ bytesOf b.2)) = true := by
    decide +kernel
  obtain ⟨s, hs, hcheck⟩ := (Option.any_eq_true _ _).mp hcheck
  obtain ⟨a, ha, hcheck⟩ := List.any_eq_true.mp hcheck
  obtain ⟨b, hb, hcheck⟩ := List.any_eq_true.mp hcheck
  obtain ⟨hle, hshare⟩ := Bool.and_eq_true_iff.mp hcheck
  obtain ⟨x, hx, hxb⟩ := List.any_eq_true.mp hshare
  exact ⟨s, hs, a, ha, b, hb, of_decide_eq_true hle, x, hx,
    of_decide_eq_true hxb⟩

/-- A check that is enough for a step to keep the addresses right. -/
def addressedB (d : Dims) (s : Flow (Fin 2)) : Event (Fin 2) → Bool
  | .mediaAlloc _ (some chunkId) => decide (chunkId ∉ s.log.map Prod.snd)
  | .go _ => decide (s.preLoadOffset + d.chunkSize < 2 ^ 64)
  | _ => true

theorem addressed_of_addressedB {s : Flow (Fin 2)} {e : Event (Fin 2)}
    (hcheck : addressedB d s e = true) : Addressed d s e := by
  cases e with
  | mediaAlloc t result =>
      cases result with
      | none => exact ⟨trivial, trivial⟩
      | some chunkId =>
          rw [addressedB, decide_eq_true_iff] at hcheck
          exact ⟨trivial, hcheck⟩
  | go t =>
      rw [addressedB, decide_eq_true_iff] at hcheck
      exact ⟨fun _ _ => hcheck, trivial⟩
  | getAddrByOffset t r => exact ⟨trivial, trivial⟩
  | truncateOffset t offset => exact ⟨trivial, trivial⟩
  | start t => exact ⟨trivial, trivial⟩
  | preLoadObject t ok => exact ⟨trivial, trivial⟩

/-- A range over two chunks, and a truncation of the first. -/
def acrossChunks : List (Event (Fin 2)) :=
  [.getAddrByOffset (two 0) (.of 2 4), .go (two 0), .go (two 0), .go (two 0),
   .go (two 0), .go (two 0), .preLoadObject (two 0) true, .start (two 1),
   .go (two 1), .mediaAlloc (two 1) (some 70), .go (two 1), .go (two 1),
   .go (two 1), .mediaAlloc (two 1) (some 71), .go (two 1), .go (two 1),
   .go (two 0), .go (two 0), .go (two 0), .go (two 0),
   .truncateOffset (two 0) 5, .go (two 0), .go (two 0), .go (two 0)]

theorem flow_addresses_acrossChunks :
    ∃ s, runFrom (step ⟨4, 0, by decide, by decide⟩) (Flow.init (Fin 2))
        acrossChunks = some s ∧
      s.answers.map (fun a => bytesOf a.2) =
        [[(70, 2), (70, 3), (71, 0), (71, 1)]] ∧
      s.preLoadOffset = (s.truncateOffset / 4 + s.chunkList.length) * 4 := by
  have hcheck : (runFrom (step ⟨4, 0, by decide, by decide⟩)
      (Flow.init (Fin 2)) acrossChunks).any (fun s =>
        decide (s.answers.map (fun a => bytesOf a.2) =
          [[(70, 2), (70, 3), (71, 0), (71, 1)]])) = true := by
    decide +kernel
  have hgood : alongB (step ⟨4, 0, by decide, by decide⟩)
      (addressedB ⟨4, 0, by decide, by decide⟩) (Flow.init (Fin 2))
      acrossChunks = true := by
    decide +kernel
  obtain ⟨s, hs, hcheck⟩ := (Option.any_eq_true _ _).mp hcheck
  obtain ⟨-, -, hpre, -⟩ := flow_addresses (d := ⟨4, 0, by decide, by decide⟩)
    (by decide) (by decide) (along_of_alongB
      (fun _ _ h => addressed_of_addressedB h) _ _ hgood) hs
  exact ⟨s, hs, of_decide_eq_true hcheck, hpre⟩

end UbsIo.Flows
