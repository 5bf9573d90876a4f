import UbsIo.Lib.Chain
import UbsIo.Bdm.Tiling

/-! # Restoring the allocator from its records

    `BdmAllocatorRestoreImpl` walks the records from the first one on.  A disk
    is `Recoverable` to a list of chunks when that walk is a chain to its end
    and the records on it that are not free are exactly those chunks; then the
    restoration succeeds and has these chunks and the free areas between
    them. -/

namespace UbsIo.Bdm

open UbsIo.Lib

/-- The chunk a record describes. -/
def chunkAt (disk : Nat → BdmChunkMeta) (x : Nat) : Chunk :=
  ⟨x, (disk x).length, (disk x).bucketId, (disk x).bucketOffset⟩

/-- The chunks among the records at some positions. -/
def chunksOf (disk : Nat → BdmChunkMeta) (ps : List Nat) : List Chunk :=
  (ps.filter fun x => !(disk x).free).map (chunkAt disk)

/-- The records on the disk form a chain that describes the chunks. -/
structure Records (n : Nat) (live : List Chunk) (disk : Nat → BdmChunkMeta)
    (ps : List Nat) : Prop where
  chain : Chain (fun x => (disk x).length) 0 ps n
  head : ∀ x ∈ ps, (disk x).head = true ∧ (disk x).restore = true
  taken : ∀ x ∈ ps, (disk x).free = false → chunkAt disk x ∈ live
  held : ∀ k ∈ live, k.id ∈ ps ∧ (disk k.id).free = false ∧
    chunkAt disk k.id = k

def Recoverable (n : Nat) (live : List Chunk) (disk : Nat → BdmChunkMeta) :
    Prop := ∃ ps, Records n live disk ps

theorem Records.perm {n : Nat} {live : List Chunk} {disk : Nat → BdmChunkMeta}
    {ps : List Nat} (h : Records n live disk ps) (hn : live.Nodup) :
    (chunksOf disk ps).Perm live := by
  refine (List.perm_ext_iff_of_nodup ?_ hn).mpr ?_
  · refine ((chain_nodup h.chain).filter _).map ?_
    intro x y hxy
    exact congrArg Chunk.id hxy
  · intro k
    rw [chunksOf, List.mem_map]
    constructor
    · rintro ⟨x, hx, rfl⟩
      obtain ⟨hmem, hfree⟩ := List.mem_filter.mp hx
      exact h.taken x hmem (by simpa using hfree)
    · intro hk
      obtain ⟨hmem, hfree, heq⟩ := h.held k hk
      exact ⟨k.id, List.mem_filter.mpr ⟨hmem, by simp [hfree]⟩, heq⟩

/-! ## The loop -/

/-- Records that a scan cannot tell apart. -/
structure Alike (m m' : BdmChunkMeta) : Prop where
  head : m.head = m'.head
  free : m.free = m'.free
  length : m.length = m'.length
  bucket : m.free = false →
    m.bucketId = m'.bucketId ∧ m.bucketOffset = m'.bucketOffset

theorem Alike.refl (m : BdmChunkMeta) : Alike m m :=
  ⟨rfl, rfl, rfl, fun _ => ⟨rfl, rfl⟩⟩

theorem Alike.trans {m₁ m₂ m₃ : BdmChunkMeta} (h₁ : Alike m₁ m₂)
    (h₂ : Alike m₂ m₃) : Alike m₁ m₃ := by
  refine ⟨h₁.head.trans h₂.head, h₁.free.trans h₂.free,
    h₁.length.trans h₂.length, ?_⟩
  intro hf
  have h₁' := h₁.bucket hf
  have h₂' := h₂.bucket (h₁.free ▸ hf)
  exact ⟨h₁'.1.trans h₂'.1, h₁'.2.trans h₂'.2⟩

/-- A free record written again without its bucket. -/
theorem alike_free {m : BdmChunkMeta} (hh : m.head = true) (hf : m.free = true)
    (hl : m.length < 2 ^ 21) : Alike (metaOf 0 0 m.length true) m :=
  ⟨hh.symm, hf.symm, Nat.mod_eq_of_lt hl, nofun⟩

variable {n pos : Nat} {a : BdmAllocatorRealize} {live : List Chunk}

/-- Nothing before the position of the loop reaches it. -/
theorem Sound.below (h : Sound pos ⟨a, live⟩) :
    (∀ c ∈ a.root.toList, c + a.len c ≤ pos) ∧
    (∀ k ∈ live, k.id + k.length ≤ pos) := by
  constructor
  · intro c hc
    have hcell := h.areas.cell c hc
    have hle := h.tiles.le (s := a.seg c)
      (List.mem_append_left _ (List.mem_map_of_mem hc)) hcell.pos
    rw [hcell.seg_eq] at hle
    exact hle
  · intro k hk
    exact h.tiles.le (s := k.seg)
      (List.mem_append_right _ (List.mem_map_of_mem hk)) (h.pos k hk)

/-- The cell at the position of the loop is not in use. -/
theorem Sound.setCell (h : Sound pos ⟨a, live⟩) (x : BdmChunkIndex) :
    Sound pos ⟨a.setCell pos x, live⟩ := by
  have hout : pos ∉ a.root.toList := by
    intro hmem
    have := h.below.1 pos hmem
    have := (h.areas.cell pos hmem).pos
    change 0 < a.len pos at this
    omega
  have hareas : (a.setCell pos x).areas = a.areas := by
    refine List.map_congr_left ?_
    intro d hd
    refine seg_congr (Function.update_of_ne ?_ _ _)
    rintro rfl
    exact hout hd
  refine ⟨h.areas.setCell hout x, ?_, h.pos, ?_, h.used, h.minPos⟩
  · intro k hk
    have := h.below.2 k hk
    have := h.pos k hk
    have hne : k.id ≠ pos := by omega
    exact (Function.update_of_ne hne _ _).trans (h.held k hk)
  · show Tiles pos ((a.setCell pos x).areas ++ _)
    rw [hareas]
    exact h.tiles

/-- A free record becomes a free area, or a part of the one before it. -/
theorem sound_restoreInsert (h : Sound pos ⟨a, live⟩) {l : Nat} (hl : 0 < l)
    (hself : a.chunkList pos = ⟨pos, l⟩) :
    ∃ a', bdmAllocatorRestoreInsert a pos = some a' ∧
      Sound (pos + l) ⟨a', live⟩ ∧ a'.chunkNum = a.chunkNum ∧
      a'.minChunkSize = a.minChunkSize ∧
      (a'.metaAddr = a.metaAddr ∨
        a'.metaAddr = Function.update a.metaAddr pos (metaOf 0 0 l true)) := by
  have hlen : a.len pos = l := congrArg BdmChunkIndex.length hself
  have hcell : Cell a pos :=
    ⟨congrArg BdmChunkIndex.index hself, hlen ▸ hl⟩
  have hfresh : Fresh a pos := ⟨hcell, fun d hd => Or.inr (h.below.1 d hd)⟩
  obtain ⟨a', lower, gone, upper, new, hins, hj, hr⟩ :=
    restoreInsert_spec h.areas hfresh
  have hsound : Sound (pos + l) ⟨a', live⟩ := by
    refine ⟨hj.areas h.areas, ?_, h.pos, ?_, ?_, ?_⟩
    · intro k hk
      have := h.below.2 k hk
      have := h.pos k hk
      exact (h.held_of_joins hk hj (by omega)).trans (h.held k hk)
    · refine h.tiles.extend ?_
      intro u
      have hcover : coverNum a'.areas u = coverNum a.areas u + _ :=
        hj.coverNum_areas h.areas u
      rw [hcell.seg_eq, hlen] at hcover
      show coverNum (a'.areas ++ live.map Chunk.seg) u =
        coverNum (a.areas ++ live.map Chunk.seg) u + coverNum [⟨pos, l⟩] u
      rw [coverNum_append, coverNum_append, hcover]
      omega
    · exact hj.usedSize.trans (hj.minChunkSize ▸ h.used)
    · exact hj.minChunkSize ▸ h.minPos
  refine ⟨a', hins, hsound, hj.chunkNum, hj.minChunkSize, ?_⟩
  rcases hr with ⟨-, hm, -⟩ | ⟨first, ⟨rfl, hlt⟩ | rfl, -, hm, -⟩
  · exact Or.inl hm
  · -- no area lies after the position, so none was joined from there
    have hmem : first.start ∈ a'.root.toList := by
      rw [hj.root]
      simp
    have hle := hsound.below.1 _ hmem
    rw [hj.cell_new.2] at hle
    change pos + a.len pos < first.start + first.length at hlt
    omega
  · right
    rw [hcell.seg_eq, hlen] at hm
    exact hm

/-- A record in use becomes a held chunk. -/
theorem sound_restoreHeld (h : Sound pos ⟨a, live⟩) {k : Chunk}
    (hid : k.id = pos) (hl : 0 < k.length)
    (hself : a.chunkList pos = ⟨pos, k.length⟩) :
    Sound (pos + k.length)
      ⟨{ a with usedSize := a.usedSize + a.minChunkSize * k.length },
       k :: live⟩ := by
  subst hid
  refine ⟨h.areas.of_eq rfl rfl rfl rfl, ?_, ?_, ?_, ?_, h.minPos⟩
  · intro j hj
    rcases List.mem_cons.mp hj with rfl | hj
    · exact hself
    · exact h.held j hj
  · intro j hj
    rcases List.mem_cons.mp hj with rfl | hj
    · exact hl
    · exact h.pos j hj
  · refine h.tiles.extend ?_
    intro u
    show coverNum (a.areas ++ k.seg :: live.map Chunk.seg) u =
      coverNum (a.areas ++ live.map Chunk.seg) u + coverNum [k.seg] u
    rw [coverNum_append, coverNum_append, coverNum_cons]
    omega
  · have hused : a.usedSize = a.minChunkSize * _ := h.used
    show a.usedSize + a.minChunkSize * k.length = a.minChunkSize * _
    rw [hused, List.map_cons, List.sum_cons, Nat.mul_add, Nat.add_comm]

theorem chunksOf_cons (disk : Nat → BdmChunkMeta) (x : Nat) (ps : List Nat) :
    chunksOf disk (x :: ps) =
      if (disk x).free then chunksOf disk ps
      else chunkAt disk x :: chunksOf disk ps := by
  rw [chunksOf, List.filter_cons]
  cases (disk x).free with
  | true => rfl
  | false => rfl

/-- **RESTORATION**: walking a chain of records to its end gives a sound
    allocator with the chunks on the chain. -/
theorem restoreFrom_spec {disk : Nat → BdmChunkMeta} (hbits : n < 2 ^ 21) :
    ∀ (ps : List Nat) (fuel : Nat) (a : BdmAllocatorRealize)
      (live : List Chunk) (pos : Nat),
      Chain (fun x => (disk x).length) pos ps n → ps.length < fuel →
      (∀ x ∈ ps, (disk x).head = true ∧ (disk x).restore = true) →
      Sound pos ⟨a, live⟩ → a.chunkNum = n →
      (∀ x, pos ≤ x → a.metaAddr x = disk x) →
      ∃ r live', restoreFrom fuel a pos = some r ∧ Sound n ⟨r, live'⟩ ∧
        live'.Perm (chunksOf disk ps ++ live) ∧ r.chunkNum = n ∧
        r.minChunkSize = a.minChunkSize ∧
        ∀ x, Alike (r.metaAddr x) (a.metaAddr x) := by
  intro ps
  induction ps with
  | nil =>
      intro fuel a live pos hchain hfuel _ hsound hnum _
      cases hchain
      cases fuel with
      | zero => exact absurd hfuel (Nat.not_lt_zero _)
      | succ fuel =>
          refine ⟨a, live, ?_, hsound, ?_, hnum, rfl, fun x => Alike.refl _⟩
          · rw [restoreFrom, if_pos (le_of_eq hnum)]
          · exact List.Perm.refl _
  | cons pos ps ih =>
      intro fuel a live start hchain hfuel hhead hsound hnum hmeta
      cases hchain with
      | cons hpos htail =>
      cases fuel with
      | zero => exact absurd hfuel (Nat.not_lt_zero _)
      | succ fuel =>
          have hend := chain_le htail
          obtain ⟨hh, hres⟩ := hhead pos (List.mem_cons_self ..)
          have hhead' : ∀ x ∈ ps, (disk x).head = true ∧
              (disk x).restore = true :=
            fun x hx => hhead x (List.mem_cons_of_mem _ hx)
          have hset := hsound.setCell ⟨pos, (disk pos).length⟩
          have hself : (a.setCell pos ⟨pos, (disk pos).length⟩).chunkList pos =
              ⟨pos, (disk pos).length⟩ := Function.update_self pos _ _
          rw [restoreFrom, if_neg (by rw [hnum]; omega)]
          dsimp only
          rw [hmeta pos (le_refl _), hh, if_neg (by simp), hres]
          cases hfree : (disk pos).free with
          | true =>
              rw [if_pos (Or.inl rfl)]
              obtain ⟨b, hins, hb, hbn, hbm, hrec⟩ :=
                sound_restoreInsert hset hpos hself
              rw [hins, Option.bind_some]
              -- the rewritten record is free and as long as before
              have hrewrite : Alike (metaOf 0 0 (disk pos).length true)
                  (disk pos) := alike_free hh hfree (by omega)
              have hkeep : ∀ x, x ≠ pos → b.metaAddr x = a.metaAddr x := by
                intro x hx
                rcases hrec with hrec | hrec
                · rw [hrec]
                  rfl
                · rw [hrec, Function.update_of_ne hx]
                  rfl
              have hlow : ∀ x, Alike (b.metaAddr x) (a.metaAddr x) := by
                intro x
                by_cases hx : x = pos
                · subst hx
                  rcases hrec with hrec | hrec
                  · rw [hrec]
                    exact Alike.refl _
                  · rw [hrec, Function.update_self, hmeta _ (le_refl _)]
                    exact hrewrite
                · rw [hkeep x hx]
                  exact Alike.refl _
              have hhigh : ∀ x, pos + (disk pos).length ≤ x →
                  b.metaAddr x = disk x := by
                intro x hx
                rw [hkeep x (by omega)]
                exact hmeta x (by omega)
              obtain ⟨r, live', hr, hs, hperm, hrn, hrm, hra⟩ :=
                ih fuel b live _ htail (Nat.lt_of_succ_lt_succ hfuel) hhead' hb
                  (hbn.trans hnum) hhigh
              refine ⟨r, live', hr, hs, ?_, hrn, hrm.trans hbm,
                fun x => (hra x).trans (hlow x)⟩
              rw [chunksOf_cons, hfree]
              exact hperm
          | false =>
              rw [if_neg (by simp)]
              have hb := sound_restoreHeld (k := chunkAt disk pos) hset rfl hpos
                hself
              obtain ⟨r, live', hr, hs, hperm, hrn, hrm, hra⟩ :=
                ih fuel _ _ _ htail (Nat.lt_of_succ_lt_succ hfuel) hhead' hb
                  hnum (fun x hx => hmeta x (by omega))
              refine ⟨r, live', hr, hs, ?_, hrn, hrm, hra⟩
              rw [chunksOf_cons, hfree]
              exact hperm.trans List.perm_middle

/-! ## Scanning the restored allocator -/

theorem chunksOf_alike {disk disk' : Nat → BdmChunkMeta}
    (h : ∀ x, Alike (disk x) (disk' x)) (ps : List Nat) :
    chunksOf disk ps = chunksOf disk' ps := by
  induction ps with
  | nil => rfl
  | cons x ps ih =>
      rw [chunksOf_cons, chunksOf_cons, ih, (h x).free]
      cases hf : (disk' x).free with
      | true => rfl
      | false =>
          have hb := (h x).bucket ((h x).free.trans hf)
          rw [chunkAt, chunkAt, (h x).length, hb.1, hb.2]

/-- The next chunk of a scan is the next one on the chain. -/
theorem nextChunkFrom_spec :
    ∀ (ps : List Nat) (fuel pos : Nat),
      Chain (fun x => (a.metaAddr x).length) pos ps a.chunkNum →
      (∀ x ∈ ps, (a.metaAddr x).head = true) → ps.length < fuel →
      (nextChunkFrom a fuel pos = some none ∧ chunksOf a.metaAddr ps = []) ∨
      ∃ x rest, nextChunkFrom a fuel pos = some (some (chunkAt a.metaAddr x)) ∧
        chunksOf a.metaAddr ps =
          chunkAt a.metaAddr x :: chunksOf a.metaAddr rest ∧
        Chain (fun x => (a.metaAddr x).length) (x + (a.metaAddr x).length)
          rest a.chunkNum ∧
        rest.length < ps.length ∧ ∀ y ∈ rest, y ∈ ps := by
  intro ps
  induction ps with
  | nil =>
      intro fuel pos hchain _ hfuel
      cases hchain
      cases fuel with
      | zero => exact absurd hfuel (Nat.not_lt_zero _)
      | succ fuel =>
          refine Or.inl ⟨?_, rfl⟩
          rw [nextChunkFrom, if_neg (lt_irrefl _)]
  | cons pos ps ih =>
      intro fuel start hchain hhead hfuel
      cases hchain with
      | cons hpos htail =>
      cases fuel with
      | zero => exact absurd hfuel (Nat.not_lt_zero _)
      | succ fuel =>
          have hend := chain_le htail
          have hlt : pos < a.chunkNum := by
            have : 0 < (a.metaAddr pos).length := hpos
            omega
          rw [nextChunkFrom, if_pos hlt]
          dsimp only
          rw [if_neg (by simp [hhead pos (List.mem_cons_self ..)]),
            chunksOf_cons]
          cases hfree : (a.metaAddr pos).free with
          | true =>
              rw [if_neg (by simp), if_pos rfl]
              rcases ih fuel _ htail
                (fun x hx => hhead x (List.mem_cons_of_mem _ hx))
                (Nat.lt_of_succ_lt_succ hfuel) with
                h | ⟨x, rest, hx, hlist, hch, hlen, hmem⟩
              · exact Or.inl h
              · exact Or.inr ⟨x, rest, hx, hlist, hch, Nat.lt_succ_of_lt hlen,
                  fun y hy => List.mem_cons_of_mem _ (hmem y hy)⟩
          | false =>
              refine Or.inr ⟨pos, ps, ?_, ?_, htail, Nat.lt_succ_self _,
                fun y hy => List.mem_cons_of_mem _ hy⟩
              · rw [if_pos rfl]
                rfl
              · rw [if_neg (by simp)]

/-- A whole scan hands out the chunks on the chain, in their order. -/
theorem scanAll_spec :
    ∀ (fuel : Nat) (ps : List Nat) (a : BdmAllocatorRealize),
      Chain (fun x => (a.metaAddr x).length) a.scanIndex ps a.chunkNum →
      (∀ x ∈ ps, (a.metaAddr x).head = true) → ps.length < fuel →
      scanAll fuel a = some (chunksOf a.metaAddr ps) := by
  intro fuel
  induction fuel with
  | zero => intro ps a _ _ hfuel; exact absurd hfuel (Nat.not_lt_zero _)
  | succ fuel ih =>
      intro ps a hchain hhead hfuel
      have hlen := chain_length hchain
      rw [scanAll, bdmAllocatorGetNextChunk]
      rcases nextChunkFrom_spec ps (a.chunkNum + 1) a.scanIndex hchain hhead
        (by omega) with ⟨hnone, hlist⟩ | ⟨x, rest, hx, hlist, hch, hlt, hmem⟩
      · rw [hnone, hlist]
        rfl
      · have hrest := ih rest { a with scanIndex := x + (a.metaAddr x).length }
          hch (fun y hy => hhead y (hmem y hy)) (by omega)
        rw [hx, Option.map_some, Option.bind_some, hlist]
        dsimp only
        show (scanAll fuel { a with
          scanIndex := x + (a.metaAddr x).length }).map _ = _
        rw [hrest]
        rfl

/-! ## The whole restoration -/

theorem sound_empty {minChunkSize : Nat} (hmin : 0 < minChunkSize)
    (totalSize : Nat) (cells : Nat → BdmChunkIndex)
    (records : Nat → BdmChunkMeta) :
    Sound 0 ⟨emptyAllocator minChunkSize totalSize cells records, []⟩ := by
  refine ⟨areas_empty _ _ _ _, ?_, ?_, ?_, rfl, hmin⟩
  · intro k hk
    exact absurd hk List.not_mem_nil
  · intro k hk
    exact absurd hk List.not_mem_nil
  · rw [tiles_iff]
    intro u
    rfl

/-- The order of the held chunks does not matter. -/
theorem Sound.perm (h : Sound n ⟨a, live⟩) {live' : List Chunk}
    (hp : live'.Perm live) : Sound n ⟨a, live'⟩ := by
  refine ⟨h.areas, fun k hk => h.held k (hp.mem_iff.mp hk),
    fun k hk => h.pos k (hp.mem_iff.mp hk), ?_, ?_, h.minPos⟩
  · rw [tiles_iff]
    intro u
    rw [← tiles_iff.mp h.tiles u]
    exact coverNum_perm ((hp.map Chunk.seg).append_left a.areas) u
  · have hsum : (live'.map (·.length)).sum = (live.map (·.length)).sum :=
      (hp.map fun k : Chunk => k.length).sum_eq
    rw [hsum]
    exact h.used

/-- **RECOVERY**: from a recoverable disk the allocator is restored with
    exactly its chunks. -/
theorem restore_spec {minChunkSize totalSize : Nat}
    {disk : Nat → BdmChunkMeta} (hmin : 0 < minChunkSize)
    (hn : totalSize / minChunkSize = n) (hbits : n < 2 ^ 21)
    (hnodup : live.Nodup) (h : Recoverable n live disk)
    (cells : Nat → BdmChunkIndex) :
    ∃ r live', bdmAllocatorRestore minChunkSize totalSize cells disk = some r ∧
      live'.Perm live ∧ liveChunks r = some live' ∧ Sound n ⟨r, live'⟩ ∧
      r.minChunkSize = minChunkSize := by
  obtain ⟨ps, hps⟩ := h
  have hlen := chain_length hps.chain
  obtain ⟨r, taken, hr, hs, hperm, hrn, hrm, halike⟩ :=
    restoreFrom_spec hbits ps (n + 1)
      (emptyAllocator minChunkSize totalSize cells disk) [] 0 hps.chain
      (by omega) hps.head (sound_empty hmin _ _ _) hn (fun _ _ => rfl)
  rw [List.append_nil] at hperm
  have hchunks := chunksOf_alike halike ps
  refine ⟨r, chunksOf disk ps, ?_, hps.perm hnodup, ?_, hs.perm hperm.symm, hrm⟩
  · rw [bdmAllocatorRestore, if_neg (Nat.pos_iff_ne_zero.mp hmin)]
    dsimp only
    rw [show (emptyAllocator minChunkSize totalSize cells disk).chunkNum = n
      from hn]
    exact hr
  · rw [liveChunks, hrn, scanAll_spec (n + 1) ps]
    · exact congrArg some hchunks
    · exact chain_congr hps.chain fun x _ => (halike x).length
    · intro x hx
      exact (halike x).head.trans (hps.head x hx).1
    · omega

end UbsIo.Bdm
