import UbsIo.Bdm.Restore

/-! # Restoration from arbitrary records

    `BdmAllocatorRestoreImpl` walks over the records by the lengths they hold,
    which may be anything.  Here the loop also says what it touches and which
    chunks it found in use, and it tells an error code from a write outside of
    the free lists. -/

namespace UbsIo.Bdm

open UbsIo.Lib

/-- How the loop ends. -/
inductive RestoreEnd where
  | ok (a : BdmAllocatorRealize) (used : List Chunk)
  | err
  /-- An area of length 0 is put in the list before the first one. -/
  | wild

/-- The walk of `BdmAllocatorInsertCallback` ends without a neighbour, and
    `MIN(length, BDM_FREE_LIST_NUM) - 1` wraps around. -/
def insertsWild (a : BdmAllocatorRealize) (chunk : Nat) : Bool :=
  match (descend (insertTurn a chunk) a.root []).1 with
  | .leaf => a.len chunk = 0
  | .node _ _ _ _ => false

/-- The loop of `BdmAllocatorRestoreImpl`.  `touched` are the records and cells
    it has looked at or written: an insertion works on the chunk and on cells
    of the tree. -/
def restoreLoop : Nat → BdmAllocatorRealize → List Chunk → List Nat → Nat →
    Option (RestoreEnd × List Nat)
  | 0, _, _, _, _ => none
  | fuel + 1, a, used, touched, pos =>
      if a.chunkNum ≤ pos then some (.ok a used, touched)
      else
        let m := a.metaAddr pos
        if m.head = false then some (.err, pos :: touched)
        else
          let a := a.setCell pos ⟨pos, m.length⟩
          if m.free = true ∨ m.restore = false then
            let touched := pos :: (a.root.toList ++ touched)
            if insertsWild a pos then some (.wild, touched)
            else
              match bdmAllocatorRestoreInsert a pos with
              | none => some (.err, touched)
              | some a => restoreLoop fuel a used touched (pos + m.length)
          else
            restoreLoop fuel
              { a with usedSize := a.usedSize + a.minChunkSize * m.length }
              (⟨pos, m.length, m.bucketId, m.bucketOffset⟩ :: used)
              (pos :: touched) (pos + m.length)

variable {n pos : Nat} {a a' : BdmAllocatorRealize} {live : List Chunk}
  {disk : Nat → BdmChunkMeta} {touched : List Nat}

/-- A wild insertion is none. -/
theorem restoreInsert_of_wild {c : Nat} (h : insertsWild a c = true) :
    bdmAllocatorRestoreInsert a c = none := by
  rw [insertsWild] at h
  rw [bdmAllocatorRestoreInsert]
  rcases hw : descend (insertTurn a c) a.root [] with ⟨t, p⟩
  rw [hw] at h
  cases t with
  | leaf => exact if_pos (of_decide_eq_true h)
  | node color l d r => cases h

/-! ## What is asked of a restoration -/

/-- The areas and the chunks in use tile the disk, and the used size is that of
    the chunks. -/
def RestoreEnd.Tiled (n : Nat) : RestoreEnd → Prop
  | .ok a used => Tiles n (a.areas ++ used.map Chunk.seg) ∧
      a.usedSize = a.minChunkSize * (used.map (·.length)).sum
  | .err => True
  | .wild => False

/-- The loop comes to an end, has stayed on the disk and tells the truth. -/
def Robust (n : Nat) (a : BdmAllocatorRealize) (used : List Chunk)
    (touched : List Nat) (pos : Nat) : Prop :=
  ∃ fuel e log, restoreLoop fuel a used touched pos = some (e, log) ∧
    (∀ x ∈ log, x < n) ∧ e.Tiled n

/-- The positions that the loop comes to. -/
inductive Visits (disk : Nat → BdmChunkMeta) (n : Nat) : Nat → Nat → Prop
  | here (pos : Nat) : Visits disk n pos pos
  | next {pos q : Nat} (hpos : pos < n) (hhead : (disk pos).head = true)
      (htail : Visits disk n (pos + (disk pos).length) q) : Visits disk n pos q

/-- A record at a position is the start of a chunk that lies on the disk. -/
def OnDisk (disk : Nat → BdmChunkMeta) (n q : Nat) : Prop :=
  q < n → (disk q).head = true →
    0 < (disk q).length ∧ q + (disk q).length ≤ n

/-! ## Records of length 0 -/

theorem insertTurn_congr {c d : Nat} (h : a'.chunkList = a.chunkList) :
    insertTurn a' c d = insertTurn a c d := by
  rw [insertTurn, insertTurn, h]

/-- The walk of a chunk of length 0 after all areas. -/
theorem zero_neighbour (h : Sound pos ⟨a, live⟩)
    (hself : a.chunkList pos = ⟨pos, 0⟩) {color : Color} {l r : RbTree Nat}
    {d : Nat} {p : List (Frame Nat)}
    (hw : descend (insertTurn a pos) a.root [] = (.node color l d r, p)) :
    d + a.len d = pos ∧ Cell a d ∧
      ∀ x, next r p = some x → (a.chunkList x).index ≠ pos := by
  have hlist := congrArg RbTree.toList (plug_descend (insertTurn a pos) a.root [])
  rw [hw, toList_plug, toList_plug, before_nil, after_nil, List.append_nil,
    List.nil_append, toList_node] at hlist
  have hmem : d ∈ a.root.toList := by
    rw [← hlist]
    simp
  have hcell := h.areas.cell d hmem
  have hle := h.below.1 d hmem
  have hpos := hcell.pos
  change 0 < a.len d at hpos
  refine ⟨?_, hcell, fun x hx hindex => ?_⟩
  · have hhere : insertTurn a pos d = .here := by
      rcases descend_end (insertTurn a pos) a.root [] with
        h | ⟨_, _, v, _, h, hv⟩
      · rw [hw] at h
        cases h
      · rw [hw] at h
        obtain ⟨-, -, rfl, -⟩ := RbTree.node.inj h
        exact hv
    have hindex : (a.chunkList d).index = d := hcell.index
    have hlen : (a.chunkList d).length = a.len d := rfl
    rw [insertTurn, hself] at hhere
    dsimp only at hhere
    rw [hindex, hlen] at hhere
    split at hhere; · omega
    split at hhere; · omega
    split at hhere; · cases hhere
    split at hhere
    · cases hhere
    · omega
  · -- no area starts where the last one ends
    rw [next_eq] at hx
    have hxmem : x ∈ a.root.toList := by
      rw [← hlist]
      have := List.mem_of_mem_head? hx
      rw [List.mem_append] at this
      simp [this]
    have hxcell := h.areas.cell x hxmem
    have hxle := h.below.1 x hxmem
    have hxpos := hxcell.pos
    change 0 < a.len x at hxpos
    rw [show (a.chunkList x).index = x from hxcell.index] at hindex
    omega

/-- A free record of length 0 behind an area: the loop stays there. -/
structure Stuck (n pos : Nat) (a : BdmAllocatorRealize) : Prop where
  number : a.chunkNum = n
  lt : pos < n
  head : (a.metaAddr pos).head = true
  free : (a.metaAddr pos).free = true ∨ (a.metaAddr pos).restore = false
  zero : (a.metaAddr pos).length = 0
  walk : ∃ color l d r p,
    descend (insertTurn (a.setCell pos ⟨pos, 0⟩) pos) a.root [] =
      (.node color l d r, p) ∧ d + a.len d = pos ∧ d ≠ pos ∧ Cell a d ∧
    ∀ x, next r p = some x →
      ((a.setCell pos ⟨pos, 0⟩).chunkList x).index ≠ pos

theorem Stuck.insert (h : Stuck n pos a) :
    insertsWild (a.setCell pos ⟨pos, 0⟩) pos = false ∧
      ∃ b, bdmAllocatorRestoreInsert (a.setCell pos ⟨pos, 0⟩) pos = some b ∧
        Stuck n pos b := by
  obtain ⟨color, l, d, r, p, hw, hend, hne, hcell, hnext⟩ := h.walk
  have hself : (a.setCell pos ⟨pos, 0⟩).chunkList pos = ⟨pos, 0⟩ :=
    Function.update_self ..
  have hlen : (a.setCell pos ⟨pos, 0⟩).len pos = 0 :=
    congrArg BdmChunkIndex.length hself
  have hkeep : (a.setCell pos ⟨pos, 0⟩).chunkList d = a.chunkList d :=
    Function.update_of_ne hne ..
  have hlend : (a.setCell pos ⟨pos, 0⟩).len d = a.len d :=
    congrArg BdmChunkIndex.length hkeep
  have hcell' : Cell (a.setCell pos ⟨pos, 0⟩) d :=
    ⟨hkeep ▸ hcell.index, hlend ▸ hcell.pos⟩
  refine ⟨by rw [insertsWild, root_setCell, hw], ?_⟩
  have hapart : ∀ x, next r p = some x →
      pos + (a.setCell pos ⟨pos, 0⟩).len pos
        ≠ ((a.setCell pos ⟨pos, 0⟩).chunkList x).index := by
    intro x hx
    rw [hlen, Nat.add_zero]
    exact (hnext x hx).symm
  have hins := insertNext_eq (by rw [hself, hlen]) hcell' (Ne.symm hne) hapart
  rw [bdmAllocatorRestoreInsert, root_setCell, hw]
  dsimp only
  rw [if_pos (by rw [hself, hlend, hcell'.index]; exact hend.symm), hins]
  refine ⟨_, rfl, ?_⟩
  -- the area before grows by nothing, so the cells are as they were
  have hcells : (grown (a.setCell pos ⟨pos, 0⟩) pos d).chunkList =
      (a.setCell pos ⟨pos, 0⟩).chunkList := by
    rw [grown, hlen, Nat.add_zero]
    show Function.update (a.setCell pos ⟨pos, 0⟩).chunkList d
      ⟨((a.setCell pos ⟨pos, 0⟩).chunkList d).index, _⟩ = _
    exact Function.update_eq_self _ _
  have hagain : Function.update (a.setCell pos ⟨pos, 0⟩).chunkList pos ⟨pos, 0⟩ =
      (a.setCell pos ⟨pos, 0⟩).chunkList :=
    Function.update_idem ..
  have hmeta : Function.update a.metaAddr pos (metaOf 0 0 0 true) pos =
      metaOf 0 0 0 true := Function.update_self ..
  refine ⟨h.number, h.lt, ?_, ?_, ?_, color, l, d, r, p, ?_, ?_, hne, ?_, ?_⟩
  · show (Function.update a.metaAddr pos _ pos).head = true
    rw [hlen, hmeta]
    rfl
  · left
    show (Function.update a.metaAddr pos _ pos).free = true
    rw [hlen, hmeta]
    rfl
  · show (Function.update a.metaAddr pos _ pos).length = 0
    rw [hlen, hmeta]
    rfl
  · have hturn : insertTurn (BdmAllocatorRealize.setCell
        { link (grown (a.setCell pos ⟨pos, 0⟩) pos d) d with
          metaAddr := Function.update (a.setCell pos ⟨pos, 0⟩).metaAddr pos
            (metaOf 0 0 ((a.setCell pos ⟨pos, 0⟩).len pos) true)
          writes := (a.setCell pos ⟨pos, 0⟩).writes ++
            [(pos, metaOf 0 0 ((a.setCell pos ⟨pos, 0⟩).len pos) true)] }
        pos ⟨pos, 0⟩) pos = insertTurn (a.setCell pos ⟨pos, 0⟩) pos := by
      funext x
      refine insertTurn_congr ?_
      show Function.update (grown _ _ _).chunkList pos _ = _
      rw [hcells, hagain]
    rw [hturn]
    exact hw
  · show d + ((grown _ _ _).chunkList d).length = pos
    rw [hcells]
    show d + (a.setCell pos ⟨pos, 0⟩).len d = pos
    rw [hlend]
    exact hend
  · refine ⟨?_, ?_⟩
    · show ((grown _ _ _).chunkList d).index = d
      rw [hcells]
      exact hcell'.index
    · show 0 < ((grown _ _ _).chunkList d).length
      rw [hcells]
      exact hcell'.pos
  · intro x hx
    show (Function.update (grown _ _ _).chunkList pos _ x).index ≠ pos
    rw [hcells, hagain]
    exact hnext x hx

theorem Stuck.endless (h : Stuck n pos a) : ∀ (fuel : Nat) (used : List Chunk)
    (touched : List Nat), restoreLoop fuel a used touched pos = none := by
  intro fuel
  induction fuel generalizing a with
  | zero => exact fun _ _ => rfl
  | succ fuel ih =>
      intro used touched
      obtain ⟨hwild, b, hins, hb⟩ := h.insert
      rw [restoreLoop, if_neg (by rw [h.number]; exact Nat.not_le.mpr h.lt)]
      dsimp only
      rw [if_neg (by rw [h.head]; exact nofun), if_pos h.free,
        h.zero, hwild, if_neg Bool.false_ne_true, hins]
      exact ih hb _ _

/-- A used record of length 0: the loop stays there. -/
theorem endless_of_used (hnum : a.chunkNum = n) (hpos : pos < n)
    (hhead : (a.metaAddr pos).head = true)
    (hused : ¬ ((a.metaAddr pos).free = true ∨
      (a.metaAddr pos).restore = false))
    (hzero : (a.metaAddr pos).length = 0) :
    ∀ (fuel : Nat) (used : List Chunk) (touched : List Nat),
      restoreLoop fuel a used touched pos = none := by
  intro fuel
  induction fuel generalizing a with
  | zero => exact fun _ _ => rfl
  | succ fuel ih =>
      intro used touched
      rw [restoreLoop, if_neg (by rw [hnum]; exact Nat.not_le.mpr hpos)]
      dsimp only
      rw [if_neg (by rw [hhead]; exact nofun), if_neg hused, hzero]
      refine @ih _ ?_ ?_ ?_ ?_ _ _
      · exact hnum
      · exact hhead
      · exact hused
      · exact hzero

/-! ## The loop -/

theorem visits_cons {q : Nat} (hpos : pos < n)
    (hhead : (disk pos).head = true) :
    Visits disk n pos q ↔
      q = pos ∨ Visits disk n (pos + (disk pos).length) q := by
  constructor
  · intro h
    cases h with
    | here => exact .inl rfl
    | next _ _ htail => exact .inr htail
  · rintro (rfl | h)
    · exact .here q
    · exact .next hpos hhead h

/-- Past the end of the disk the loop is done, and what it found does not
    tile the disk. -/
theorem not_robust_past (hsound : Sound pos ⟨a, live⟩) (hnum : a.chunkNum = n)
    (hpos : n < pos) : ¬ Robust n a live touched pos := by
  rintro ⟨fuel, e, log, hr, -, htiled⟩
  cases fuel with
  | zero => exact nomatch hr
  | succ fuel =>
      rw [restoreLoop, if_pos (by rw [hnum]; exact hpos.le)] at hr
      cases hr
      -- the unit after the disk is covered
      obtain ⟨x, hx, hhas⟩ := (hsound.tiles.exact n).mp hpos
      exact absurd ((htiled.1.exact n).mpr ⟨x, hx, hhas⟩) (Nat.lt_irrefl n)

/-- One turn of the loop goes on where the record says. -/
theorem robust_iff_of_turn {used used' : List Chunk} {log : List Nat} {q : Nat}
    (h : ∀ fuel, restoreLoop (fuel + 1) a used touched pos =
      restoreLoop fuel a' used' log q) :
    Robust n a used touched pos ↔ Robust n a' used' log q := by
  constructor
  · rintro ⟨fuel, e, found, hr, hrest⟩
    cases fuel with
    | zero => exact nomatch hr
    | succ fuel => exact ⟨fuel, e, found, (h fuel).symm.trans hr, hrest⟩
  · rintro ⟨fuel, e, found, hr, hrest⟩
    exact ⟨fuel + 1, e, found, (h fuel).trans hr, hrest⟩

/-- A record of length 0 is the end of all hope. -/
theorem not_robust_zero (hsound : Sound pos ⟨a, live⟩)
    (hnum : a.chunkNum = n) (hpos : pos < n)
    (hhead : (a.metaAddr pos).head = true)
    (hzero : (a.metaAddr pos).length = 0) :
    ¬ Robust n a live touched pos := by
  rintro ⟨fuel, e, log, hr, -, htiled⟩
  by_cases hfree : (a.metaAddr pos).free = true ∨
      (a.metaAddr pos).restore = false
  · have hset := hsound.setCell ⟨pos, 0⟩
    have hself : (a.setCell pos ⟨pos, 0⟩).chunkList pos = ⟨pos, 0⟩ :=
      Function.update_self ..
    rcases hw : descend (insertTurn (a.setCell pos ⟨pos, 0⟩) pos) a.root [] with
      ⟨t, p⟩
    cases t with
    | leaf =>
        have hwild : insertsWild (a.setCell pos ⟨pos, 0⟩) pos = true := by
          rw [insertsWild, root_setCell, hw]
          exact decide_eq_true (congrArg BdmChunkIndex.length hself)
        cases fuel with
        | zero => exact nomatch hr
        | succ fuel =>
            rw [restoreLoop, if_neg (by rw [hnum]; exact Nat.not_le.mpr hpos)]
              at hr
            dsimp only at hr
            rw [if_neg (by rw [hhead]; exact nofun), if_pos hfree, hzero,
              hwild, if_pos rfl] at hr
            cases hr
            exact htiled
    | node color l d r =>
        obtain ⟨hend, hcell, hnext⟩ := zero_neighbour hset hself hw
        have hne : d ≠ pos := by
          rintro rfl
          have := hcell.pos
          omega
        have hkeep : (a.setCell pos ⟨pos, 0⟩).chunkList d = a.chunkList d :=
          Function.update_of_ne hne ..
        have hlen : (a.setCell pos ⟨pos, 0⟩).len d = a.len d :=
          congrArg BdmChunkIndex.length hkeep
        have hstuck : Stuck n pos a := by
          refine ⟨hnum, hpos, hhead, hfree, hzero, color, l, d, r, p, hw,
            hlen ▸ hend, hne, ⟨?_, hlen ▸ hcell.pos⟩, hnext⟩
          rw [← hkeep]
          exact hcell.index
        rw [hstuck.endless] at hr
        exact nomatch hr
  · rw [endless_of_used hnum hpos hhead hfree hzero] at hr
    exact nomatch hr

/-- **LOOP**: from a position on the loop does what is asked of it if and only
    if every record that it comes to starts a chunk on the disk. -/
theorem robust_iff : ∀ (m pos : Nat) (a : BdmAllocatorRealize)
    (live : List Chunk) (touched : List Nat), n - pos ≤ m → pos ≤ n →
    Sound pos ⟨a, live⟩ → a.chunkNum = n →
    (∀ x, pos ≤ x → a.metaAddr x = disk x) → (∀ x ∈ touched, x < n) →
    (Robust n a live touched pos ↔
      ∀ q, Visits disk n pos q → OnDisk disk n q) := by
  intro m
  induction m with
  | zero =>
      intro pos a live touched hm hpos hsound hnum _ htouched
      obtain rfl : pos = n := by omega
      refine iff_of_true ⟨1, .ok a live, touched, ?_, htouched, hsound.tiles,
        hsound.used⟩ ?_
      · rw [restoreLoop, if_pos hnum.le]
      · intro q hq
        cases hq with
        | here => exact fun hlt => absurd hlt (Nat.lt_irrefl _)
        | next hlt => exact absurd hlt (Nat.lt_irrefl _)
  | succ m ih =>
      intro pos a live touched hm hle hsound hnum hmeta htouched
      rcases Nat.eq_or_lt_of_le hle with rfl | hpos
      · refine ih pos a live touched (by omega) hle hsound hnum hmeta htouched
      have hin : ¬ a.chunkNum ≤ pos := by
        rw [hnum]
        exact Nat.not_le.mpr hpos
      have hself := hmeta pos le_rfl
      by_cases hhead : (disk pos).head = false
      · -- the chain is broken: an error
        refine iff_of_true ⟨1, .err, pos :: touched, ?_, ?_, trivial⟩ ?_
        · rw [restoreLoop, if_neg hin, hself]
          exact if_pos hhead
        · exact fun x hx => (List.mem_cons.mp hx).elim (fun h => h ▸ hpos)
            (htouched x)
        · intro q hq
          cases hq with
          | here => exact fun _ htrue => nomatch hhead.symm.trans htrue
          | next _ htrue => exact nomatch hhead.symm.trans htrue
      rw [Bool.not_eq_false] at hhead
      by_cases hzero : (disk pos).length = 0
      · refine iff_of_false (not_robust_zero hsound hnum hpos
          (hself ▸ hhead) (hself ▸ hzero)) fun hall => ?_
        exact absurd (hall pos (.here pos) hpos hhead).1
          (Nat.not_lt.mpr hzero.le)
      have hlen : 0 < (disk pos).length := Nat.pos_of_ne_zero hzero
      have hset := hsound.setCell ⟨pos, (disk pos).length⟩
      have hcell : (a.setCell pos ⟨pos, (disk pos).length⟩).chunkList pos =
          ⟨pos, (disk pos).length⟩ := Function.update_self ..
      -- what follows is the same for a free record and a used one
      have hgoal (b : BdmAllocatorRealize) (used : List Chunk) (log : List Nat)
          (hturn : ∀ fuel, restoreLoop (fuel + 1) a live touched pos =
            restoreLoop fuel b used log (pos + (disk pos).length))
          (hb : Sound (pos + (disk pos).length) ⟨b, used⟩)
          (hbn : b.chunkNum = n)
          (hbm : ∀ x, x ≠ pos → b.metaAddr x = a.metaAddr x)
          (hlog : ∀ x ∈ log, x < n) :
          Robust n a live touched pos ↔
            ∀ q, Visits disk n pos q → OnDisk disk n q := by
        rw [robust_iff_of_turn hturn]
        by_cases hend : pos + (disk pos).length ≤ n
        · rw [ih _ b used log (by omega) hend hb hbn (fun x hx => by
            rw [hbm x (by omega)]
            exact hmeta x (by omega)) hlog]
          constructor
          · intro hall q hq
            rcases (visits_cons hpos hhead).mp hq with rfl | hq
            · exact fun _ _ => ⟨hlen, hend⟩
            · exact hall q hq
          · exact fun hall q hq =>
              hall q ((visits_cons hpos hhead).mpr (.inr hq))
        · exact iff_of_false (not_robust_past hb hbn (Nat.not_le.mp hend))
            fun hall => hend (hall pos (.here pos) hpos hhead).2
      have hhead' : ¬ (disk pos).head = false := by
        rw [hhead]
        exact nofun
      by_cases hfree : (disk pos).free = true ∨ (disk pos).restore = false
      · obtain ⟨b, hins, hb, hbn, -, hrec⟩ := sound_restoreInsert hset hlen hcell
        have hwild : insertsWild (a.setCell pos ⟨pos, (disk pos).length⟩) pos =
            false := by
          by_contra h
          rw [restoreInsert_of_wild (Bool.eq_true_of_not_eq_false h)] at hins
          exact nomatch hins
        refine hgoal b live (pos :: (a.root.toList ++ touched)) (fun fuel => ?_)
          hb (hbn.trans hnum) ?_ ?_
        · rw [restoreLoop, if_neg hin, hself]
          dsimp only
          rw [if_neg hhead', if_pos hfree, hwild, if_neg Bool.false_ne_true,
            hins]
          rfl
        · intro x hx
          rcases hrec with hrec | hrec
          · rw [hrec]
            rfl
          · rw [hrec, Function.update_of_ne hx]
            rfl
        · intro x hx
          rcases List.mem_cons.mp hx with rfl | hx
          · exact hpos
          rcases List.mem_append.mp hx with hx | hx
          · have := hsound.below.1 x hx
            have := (hsound.areas.cell x hx).pos
            change 0 < a.len x at this
            omega
          · exact htouched x hx
      · refine hgoal _ (chunkAt disk pos :: live) (pos :: touched)
          (fun fuel => ?_)
          (sound_restoreHeld (k := chunkAt disk pos) hset rfl hlen hcell) hnum
          (fun _ _ => rfl) ?_
        · rw [restoreLoop, if_neg hin, hself]
          dsimp only
          rw [if_neg hhead', if_neg hfree]
          rfl
        · exact fun x hx => (List.mem_cons.mp hx).elim (fun h => h ▸ hpos)
            (htouched x)

/-- **ROBUSTNESS**: on a disk with any records the restoration comes to its
    end, has looked only at records and cells of the disk and, if it reports
    success, has found chunks and areas that tile the disk and their size, if
    and only if every record that it comes to starts a chunk that is not empty
    and ends on the disk. -/
theorem restore_robust (minChunkSize totalSize : Nat) (hmin : 0 < minChunkSize)
    (cells : Nat → BdmChunkIndex) (disk : Nat → BdmChunkMeta) :
    (∃ fuel e log, restoreLoop fuel
        (emptyAllocator minChunkSize totalSize cells disk) [] [] 0 =
          some (e, log) ∧
      (∀ x ∈ log, x < totalSize / minChunkSize) ∧
      e.Tiled (totalSize / minChunkSize)) ↔
    ∀ pos, Visits disk (totalSize / minChunkSize) 0 pos →
      pos < totalSize / minChunkSize → (disk pos).head = true →
      0 < (disk pos).length ∧
        pos + (disk pos).length ≤ totalSize / minChunkSize :=
  robust_iff (totalSize / minChunkSize) 0 _ [] [] le_rfl (Nat.zero_le _)
    (sound_empty hmin totalSize cells disk) rfl (fun _ _ => rfl)
    fun _ hx => absurd hx List.not_mem_nil

theorem restore_robust_units : 0 < 1 ∧
    ∃ fuel e log, restoreLoop fuel (emptyAllocator 1 8 noCells
        fun _ => metaOf 0 0 1 true) [] [] 0 = some (e, log) ∧
      (∀ x ∈ log, x < 8 / 1) ∧ e.Tiled (8 / 1) :=
  ⟨by decide, (restore_robust 1 8 (by decide) noCells _).mpr
    fun _ _ hpos _ => ⟨by decide, hpos⟩⟩

/-- A used record of length 0 at the start of the disk. -/
theorem restore_endless : ¬ ∀ disk : Nat → BdmChunkMeta,
    ∃ fuel e log, restoreLoop fuel (emptyAllocator 1 8 noCells disk) [] [] 0 =
        some (e, log) ∧
      (∀ x ∈ log, x < 8 / 1) ∧ e.Tiled (8 / 1) := by
  intro h
  obtain ⟨fuel, e, log, hr, -⟩ := h fun _ => metaOf 0 0 0 false
  have hnone := @endless_of_used 8 0
    (emptyAllocator 1 8 noCells fun _ => metaOf 0 0 0 false) rfl (by decide)
    rfl (by decide) rfl fuel [] []
  rw [hnone] at hr
  exact nomatch hr

end UbsIo.Bdm
