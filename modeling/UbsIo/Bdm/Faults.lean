import UbsIo.Bdm.Coalesce
import UbsIo.Bdm.Crash

/-! # Writes that fail

    The calls again, with the results of `metaOps.writeMeta` as an argument.  A
    call that meets a failed write returns its code at once and leaves what it
    has changed so far.  Where all writes succeed these are the calls of the
    allocator; where one fails, the free lists are never those from before. -/

namespace UbsIo.Bdm

open UbsIo.Lib

/-- How a call ends: with the results of the writes that are still to come, or
    with an error and what is left of the allocator. -/
inductive Written (β : Type) where
  | done (b : β) (rest : List Bool)
  | refused
  | failed (a : BdmAllocatorRealize)

def Written.bind {β γ : Type} (x : Written β) (f : β → List Bool → Written γ) :
    Written γ :=
  match x with
  | .done b rest => f b rest
  | .refused => .refused
  | .failed a => .failed a

namespace Faults

/-- `BdmAllocatorUpdateMeta`: the record is in the memory also when it could not
    be written to the disk.  Writes whose results are not given succeed. -/
def bdmAllocatorUpdateMeta (a : BdmAllocatorRealize)
    (bucketId bucketOffset c : Nat) (isFree : Bool) (results : List Bool) :
    Written BdmAllocatorRealize :=
  let a' := Bdm.bdmAllocatorUpdateMeta a bucketId bucketOffset c isFree
  match results with
  | false :: _ => .failed { a' with writes := a.writes }
  | _ => .done a' results.tail

/-- `BdmAllocatorInsertPre`. -/
def bdmAllocatorInsertPre (a : BdmAllocatorRealize) (chunk next : Nat)
    (results : List Bool) : Written BdmAllocatorRealize :=
  if a.len next = 0 then .failed a
  else
    let a := unlink a next (freeIndexOf (a.len next))
    let a := a.setLength chunk (a.len chunk + a.len next)
    if a.len chunk = 0 then .failed a
    else
      (bdmAllocatorUpdateMeta (link a chunk) 0 0 chunk true results).bind
        fun a rest => .done { a with root := rbtreeReplace a.root chunk next } rest

/-- `BdmAllocatorInsertNext`. -/
def bdmAllocatorInsertNext (a : BdmAllocatorRealize) (chunk prev : Nat)
    (neigh : Option Nat) (results : List Bool) :
    Written (BdmAllocatorRealize × Option Nat) :=
  if a.len prev = 0 then .failed a
  else
    let a := unlink a prev (freeIndexOf (a.len prev))
    let a := a.setLength prev (a.len prev + a.len chunk)
    match adjacent a chunk neigh with
    | some n =>
        if a.len n = 0 then .failed a
        else
          let a := unlink a n (freeIndexOf (a.len n))
          let a := a.setLength prev (a.len prev + a.len n)
          if a.len prev = 0 then .failed a
          else
            (bdmAllocatorUpdateMeta (link a prev) 0 0 prev true results).bind
              fun a rest => .done (a, some n) rest
    | none =>
        if a.len prev = 0 then .failed a
        else
          (bdmAllocatorUpdateMeta (link a prev) 0 0 chunk true results).bind
            fun a rest => .done (a, none) rest

/-- `BdmAllocatorRestoreInsert`, which is `BdmAllocatorInsert` up to its
    own record. -/
def bdmAllocatorRestoreInsert (a : BdmAllocatorRealize) (chunk : Nat)
    (results : List Bool) : Written BdmAllocatorRealize :=
  match descend (insertTurn a chunk) a.root [] with
  | (.leaf, p) =>
      if a.len chunk = 0 then .failed a
      else
        match insertFix (.node .red .leaf chunk .leaf) p with
        | none => .failed a
        | some t => .done { link a chunk with root := t } results
  | (.node _ _ temp r, p) =>
      if (a.chunkList chunk).index = (a.chunkList temp).index + a.len temp then
        (bdmAllocatorInsertNext a chunk temp (next r p) results).bind
          fun s rest =>
            match s.2 with
            | none => .done s.1 rest
            | some n =>
                match rbtreeDelete s.1.root n with
                | none => .failed s.1
                | some t => .done { s.1 with root := t } rest
      else if (a.chunkList chunk).index + a.len chunk
          = (a.chunkList temp).index then
        bdmAllocatorInsertPre a chunk temp results
      else .failed a

/-- `BdmAllocatorInsert`. -/
def bdmAllocatorInsert (a : BdmAllocatorRealize) (chunk : Nat)
    (results : List Bool) : Written BdmAllocatorRealize :=
  (bdmAllocatorRestoreInsert a chunk results).bind fun a rest =>
    bdmAllocatorUpdateMeta a 0 0 chunk true rest

/-- `BdmAllocatorRemoveSameLen`. -/
def bdmAllocatorRemoveSameLen (a : BdmAllocatorRealize)
    (chunk bucketId bucketOffset freeIndex : Nat) (results : List Bool) :
    Written (BdmAllocatorRealize × Nat) :=
  (bdmAllocatorUpdateMeta (unlink a chunk freeIndex) bucketId bucketOffset
    chunk false results).bind fun a rest =>
      match rbtreeDelete a.root chunk with
      | none => .failed a
      | some t => .done ({ a with root := t }, (a.chunkList chunk).index) rest

/-- `BdmAllocatorRemoveDiffLen`. -/
def bdmAllocatorRemoveDiffLen (a : BdmAllocatorRealize)
    (chunk bucketId bucketOffset length : Nat) (results : List Bool) :
    Written (BdmAllocatorRealize × Nat) :=
  let neigh := chunk + length
  let a := a.setCell neigh
    ⟨(a.chunkList chunk).index + length, a.len chunk - length⟩
  (bdmAllocatorUpdateMeta (link a neigh) 0 0 neigh true results).bind
    fun a rest =>
      let a := unlink a chunk (freeIndexOf (a.len chunk))
      let a := a.setLength chunk (a.len chunk - a.len neigh)
      (bdmAllocatorUpdateMeta a bucketId bucketOffset chunk false rest).bind
        fun a rest =>
          .done ({ a with root := rbtreeReplace a.root neigh chunk },
            (a.chunkList chunk).index) rest

/-- `BdmAllocatorRemove`. -/
def bdmAllocatorRemove (a : BdmAllocatorRealize)
    (bucketId bucketOffset chunkSize : Nat) (results : List Bool) :
    Written (BdmAllocatorRealize × Nat) :=
  if a.minChunkSize = 0 then .refused
  else
    let length := chunkSize / a.minChunkSize
    if length = 0 then .refused
    else
      match findArea a length with
      | none => .refused
      | some (k, c) =>
          if a.len c = length then
            bdmAllocatorRemoveSameLen a c bucketId bucketOffset k results
          else bdmAllocatorRemoveDiffLen a c bucketId bucketOffset length results

/-- `BdmAllocatorAllocChunk`. -/
def bdmAllocatorAllocChunk (a : BdmAllocatorRealize)
    (bucketId bucketOffset chunkSize : Nat) (results : List Bool) :
    Written (BdmAllocatorRealize × Nat) :=
  (bdmAllocatorRemove a bucketId bucketOffset chunkSize results).bind
    fun s rest =>
      .done ({ s.1 with usedSize := s.1.usedSize + chunkSize }, s.2) rest

/-- `BdmAllocatorFreeChunk`. -/
def bdmAllocatorFreeChunk (a : BdmAllocatorRealize) (chunkSize chunkId : Nat)
    (results : List Bool) : Written BdmAllocatorRealize :=
  if chunkId ≥ a.chunkNum then .refused
  else if chunkSize ≠ a.len chunkId * a.minChunkSize then .refused
  else
    (bdmAllocatorInsert a chunkId results).bind fun a rest =>
      .done { a with usedSize := a.usedSize - chunkSize } rest

end Faults

/-! ## The calls of the allocator -/

/-- What a call does agrees with the call whose writes succeed, unless a write
    fails. -/
def Written.Follows {β : Type} (x : Written β) (o : Outcome β)
    (results : List Bool) : Prop :=
  match x with
  | .done b rest => o = .done b ∧ rest <:+ results
  | .refused => o = .refused
  | .failed _ => o = .broken ∨ false ∈ results

theorem Written.Follows.bind {β γ : Type} {x : Written β} {o : Option β}
    {results : List Bool} {f : β → List Bool → Written γ} {g : β → Option γ}
    (hx : x.Follows (.ofOption o) results)
    (hf : ∀ b rest, (f b rest).Follows (.ofOption (g b)) rest) :
    (x.bind f).Follows (.ofOption (o.bind g)) results := by
  cases x with
  | refused => cases o <;> exact nomatch hx
  | failed a =>
      rcases hx with hx | hx
      · cases o with
        | none => exact .inl rfl
        | some b => exact nomatch hx
      · exact .inr hx
  | done b rest =>
      obtain ⟨ho, hsuffix⟩ := hx
      cases o with
      | none => exact nomatch ho
      | some b' =>
          cases ho
          have h := hf b rest
          rw [Written.bind, Option.bind_some]
          cases hfb : f b rest with
          | done c rest' =>
              rw [hfb] at h
              exact ⟨h.1, h.2.trans hsuffix⟩
          | refused =>
              rw [hfb] at h
              exact h
          | failed a =>
              rw [hfb] at h
              exact h.imp_right fun hmem => hsuffix.subset hmem

theorem follows_done {β : Type} (b : β) (results : List Bool) :
    (Written.done b results).Follows (.ofOption (some b)) results :=
  ⟨rfl, List.suffix_rfl⟩

theorem follows_failed {β : Type} (a : BdmAllocatorRealize)
    (results : List Bool) :
    (Written.failed a : Written β).Follows (.ofOption none) results := .inl rfl

variable {a b : BdmAllocatorRealize} {c n : Nat} {results : List Bool}
  {s : Sys}

theorem follows_updateMeta (a : BdmAllocatorRealize)
    (bucketId bucketOffset c : Nat) (isFree : Bool) (results : List Bool) :
    (Faults.bdmAllocatorUpdateMeta a bucketId bucketOffset c isFree
      results).Follows
      (.ofOption (some (bdmAllocatorUpdateMeta a bucketId bucketOffset c
        isFree))) results := by
  match results with
  | [] => exact follows_done _ _
  | true :: rest => exact ⟨rfl, List.suffix_cons ..⟩
  | false :: rest => exact .inr (List.mem_cons_self ..)

theorem follows_insertPre (a : BdmAllocatorRealize) (c n : Nat)
    (results : List Bool) :
    (Faults.bdmAllocatorInsertPre a c n results).Follows
      (.ofOption (bdmAllocatorInsertPre a c n)) results := by
  rw [Faults.bdmAllocatorInsertPre, bdmAllocatorInsertPre]
  split
  · exact follows_failed _ _
  · dsimp only
    split
    · exact follows_failed _ _
    · exact (follows_updateMeta _ _ _ _ _ results).bind
        (g := fun a => some { a with root := rbtreeReplace a.root c n })
        fun _ rest => follows_done _ rest

theorem follows_insertNext (a : BdmAllocatorRealize) (c p : Nat)
    (neigh : Option Nat) (results : List Bool) :
    (Faults.bdmAllocatorInsertNext a c p neigh results).Follows
      (.ofOption (bdmAllocatorInsertNext a c p neigh)) results := by
  rw [Faults.bdmAllocatorInsertNext, bdmAllocatorInsertNext]
  split
  · exact follows_failed _ _
  · dsimp only
    rw [adjacent]
    generalize (unlink a p (freeIndexOf (a.len p))).setLength p
      ((unlink a p (freeIndexOf (a.len p))).len p +
        (unlink a p (freeIndexOf (a.len p))).len c) = b
    generalize neigh.filter (fun n =>
      (b.chunkList c).index + b.len c == (b.chunkList n).index) = next
    cases next with
    | some n =>
        dsimp only
        split
        · exact follows_failed _ _
        · split
          · exact follows_failed _ _
          · exact (follows_updateMeta _ _ _ _ _ results).bind
              (g := fun a => some (a, some n)) fun _ rest => follows_done _ rest
    | none =>
        dsimp only
        split
        · exact follows_failed _ _
        · exact (follows_updateMeta _ _ _ _ _ results).bind
            (g := fun a => some (a, none)) fun _ rest => follows_done _ rest

theorem follows_restoreInsert (a : BdmAllocatorRealize) (c : Nat)
    (results : List Bool) :
    (Faults.bdmAllocatorRestoreInsert a c results).Follows
      (.ofOption (bdmAllocatorRestoreInsert a c)) results := by
  rw [Faults.bdmAllocatorRestoreInsert, bdmAllocatorRestoreInsert]
  rcases descend (insertTurn a c) a.root [] with ⟨t, p⟩
  cases t with
  | leaf =>
      dsimp only
      split
      · exact follows_failed _ _
      · cases insertFix (.node .red .leaf c .leaf) p with
        | none => exact follows_failed _ _
        | some t => exact follows_done _ _
  | node color l d r =>
      dsimp only
      split
      · refine (follows_insertNext a c d (next r p) results).bind ?_
        rintro ⟨b, n⟩ rest
        cases n with
        | none => exact follows_done _ _
        | some n =>
            dsimp only
            cases rbtreeDelete b.root n with
            | none => exact follows_failed _ _
            | some t => exact follows_done _ _
      · split
        · exact follows_insertPre a c d results
        · exact follows_failed _ _

theorem follows_insert (a : BdmAllocatorRealize) (c : Nat)
    (results : List Bool) :
    (Faults.bdmAllocatorInsert a c results).Follows
      (.ofOption (bdmAllocatorInsert a c)) results := by
  rw [Faults.bdmAllocatorInsert, bdmAllocatorInsert, Option.map_eq_bind]
  exact (follows_restoreInsert a c results).bind fun b rest =>
    follows_updateMeta b 0 0 c true rest

theorem follows_removeSameLen (a : BdmAllocatorRealize)
    (c bucketId bucketOffset k : Nat) (results : List Bool) :
    (Faults.bdmAllocatorRemoveSameLen a c bucketId bucketOffset k
      results).Follows (.ofOption
        (bdmAllocatorRemoveSameLen a c bucketId bucketOffset k)) results := by
  rw [Faults.bdmAllocatorRemoveSameLen, bdmAllocatorRemoveSameLen]
  refine (follows_updateMeta _ _ _ _ _ results).bind
    (g := fun a => (rbtreeDelete a.root c).map fun t =>
      ({ a with root := t }, (a.chunkList c).index)) fun b rest => ?_
  cases rbtreeDelete b.root c with
  | none => exact follows_failed _ _
  | some t => exact follows_done _ _

theorem follows_removeDiffLen (a : BdmAllocatorRealize)
    (c bucketId bucketOffset length : Nat) (results : List Bool) :
    (Faults.bdmAllocatorRemoveDiffLen a c bucketId bucketOffset length
      results).Follows (.done
        (bdmAllocatorRemoveDiffLen a c bucketId bucketOffset length))
      results := by
  rw [Faults.bdmAllocatorRemoveDiffLen, bdmAllocatorRemoveDiffLen]
  refine (follows_updateMeta _ _ _ _ _ results).bind
    (g := fun a =>
      let a := unlink a c (freeIndexOf (a.len c))
      let a := a.setLength c (a.len c - a.len (c + length))
      let a := bdmAllocatorUpdateMeta a bucketId bucketOffset c false
      some ({ a with root := rbtreeReplace a.root (c + length) c },
        (a.chunkList c).index)) fun b rest => ?_
  exact (follows_updateMeta _ _ _ _ _ rest).bind
    (g := fun a => some ({ a with root := rbtreeReplace a.root (c + length) c },
      (a.chunkList c).index)) fun b rest => follows_done _ rest

theorem follows_remove (a : BdmAllocatorRealize)
    (bucketId bucketOffset chunkSize : Nat) (results : List Bool) :
    (Faults.bdmAllocatorRemove a bucketId bucketOffset chunkSize
      results).Follows
      (bdmAllocatorRemove a bucketId bucketOffset chunkSize) results := by
  rw [Faults.bdmAllocatorRemove, bdmAllocatorRemove]
  split
  · exact rfl
  dsimp only
  split
  · exact rfl
  rcases findArea a (chunkSize / a.minChunkSize) with _ | ⟨k, c⟩
  · exact rfl
  dsimp only
  split
  · exact follows_removeSameLen a c bucketId bucketOffset k results
  · exact follows_removeDiffLen a c bucketId bucketOffset _ results

/-- **AGREEMENT**: a call whose writes succeed is the call of the allocator. -/
theorem follows_allocChunk (a : BdmAllocatorRealize)
    (bucketId bucketOffset chunkSize : Nat) (results : List Bool) :
    (Faults.bdmAllocatorAllocChunk a bucketId bucketOffset chunkSize
      results).Follows
      (bdmAllocatorAllocChunk a bucketId bucketOffset chunkSize) results := by
  have h := follows_remove a bucketId bucketOffset chunkSize results
  rw [Faults.bdmAllocatorAllocChunk, bdmAllocatorAllocChunk]
  cases hw : Faults.bdmAllocatorRemove a bucketId bucketOffset chunkSize
      results with
  | done x rest =>
      rw [hw] at h
      obtain ⟨ho, hsuffix⟩ := h
      rw [ho]
      exact ⟨rfl, hsuffix⟩
  | refused =>
      rw [hw] at h
      rw [show bdmAllocatorRemove a bucketId bucketOffset chunkSize = .refused
        from h]
      exact rfl
  | failed b =>
      rw [hw] at h
      rcases h with h | h
      · rw [h]
        exact .inl rfl
      · exact .inr h

theorem follows_freeChunk (a : BdmAllocatorRealize) (chunkSize chunkId : Nat)
    (results : List Bool) :
    (Faults.bdmAllocatorFreeChunk a chunkSize chunkId results).Follows
      (bdmAllocatorFreeChunk a chunkSize chunkId) results := by
  rw [Faults.bdmAllocatorFreeChunk, bdmAllocatorFreeChunk]
  split
  · exact rfl
  split
  · exact rfl
  · rw [Option.map_eq_bind]
    exact (follows_insert a chunkId results).bind fun b rest =>
      follows_done _ rest

/-! ## What a failed write leaves behind -/

/-- An area stands in one of the free lists. -/
def Lists (a : BdmAllocatorRealize) (x : Seg) : Prop :=
  ∃ i, ∃ c ∈ a.freeHead i, a.seg c = x

/-- The same areas in the tree and in the lists, and the same used size. -/
structure Unchanged (a b : BdmAllocatorRealize) : Prop where
  tree : ∀ x, x ∈ b.areas ↔ x ∈ a.areas
  lists : ∀ x, Lists b x ↔ Lists a x
  used : b.usedSize = a.usedSize

theorem lists_link (a : BdmAllocatorRealize) (c : Nat) :
    Lists (link a c) (a.seg c) := by
  refine ⟨freeIndexOf (a.len c), c, ?_, rfl⟩
  show c ∈ Function.update a.freeHead _ _ _
  rw [Function.update_self]
  exact List.mem_append_right _ (List.mem_singleton_self c)

/-- The listed areas are those of the tree. -/
theorem Areas.lists_iff (hA : Areas a) {x : Seg} :
    Lists a x ↔ ∃ d ∈ a.root.toList, x = ⟨d, a.len d⟩ := by
  constructor
  · rintro ⟨i, d, hd, rfl⟩
    have hmem := (((hA.filed i).2.2 d).mp hd).1
    exact ⟨d, hmem, (hA.cell d hmem).seg_eq⟩
  · rintro ⟨d, hd, rfl⟩
    exact ⟨freeIndexOf (a.len d), d, ((hA.filed _).2.2 d).mpr ⟨hd, rfl⟩,
      (hA.cell d hd).seg_eq⟩

/-- A listed area has the unit. -/
def Covers (a : BdmAllocatorRealize) (u : Nat) : Prop :=
  ∃ x, Lists a x ∧ x.Has u

/-- No area covers a chunk that meets none. -/
theorem Covers.changed (h : Covers b c) (hA : Areas a) (hc : Fresh a c) :
    ¬ Unchanged a b := by
  intro hsame
  obtain ⟨x, hx, hhas⟩ := h
  obtain ⟨d, hd, rfl⟩ := hA.lists_iff.mp ((hsame.lists x).mp hx)
  have happ := hc.apart d hd
  have hpos := hc.cell.pos
  rw [Seg.Has] at hhas
  dsimp only at hhas
  omega

/-- An area of the tree is in no list any more. -/
theorem unlisted_changed {d : Nat} (hA : Areas a) (hd : d ∈ a.root.toList)
    (hhead : ∀ i, ∀ e ∈ b.freeHead i, e ∈ (a.freeHead i).erase d)
    (hindex : ∀ e, (b.chunkList e).index = (a.chunkList e).index) :
    ¬ Unchanged a b := by
  intro hsame
  have hin : Lists a ⟨d, a.len d⟩ := hA.lists_iff.mpr ⟨d, hd, rfl⟩
  obtain ⟨i, e, he, hseg⟩ := (hsame.lists _).mpr hin
  have he := hhead i e he
  rw [(hA.filed i).1.mem_erase_iff] at he
  have hmem := (((hA.filed i).2.2 e).mp he.2).1
  have hstart : (b.chunkList e).index = d := congrArg Seg.start hseg
  rw [hindex, (hA.cell e hmem).index] at hstart
  exact he.1 hstart

/-- What a failed write of a record leaves. -/
theorem updateMeta_failed {bucketId bucketOffset : Nat} {isFree : Bool}
    (h : Faults.bdmAllocatorUpdateMeta a bucketId bucketOffset c isFree results =
      .failed b) :
    b.root = a.root ∧ b.freeHead = a.freeHead ∧ b.chunkList = a.chunkList := by
  match results, h with
  | false :: _, h =>
      cases h
      exact ⟨rfl, rfl, rfl⟩
  | [], h => exact nomatch h
  | true :: _, h => exact nomatch h

theorem Lists.of_eq {x : Seg} (h : Lists a x) (hh : b.freeHead = a.freeHead)
    (hc : b.chunkList = a.chunkList) : Lists b x := by
  obtain ⟨i, d, hd, hseg⟩ := h
  refine ⟨i, d, hh ▸ hd, ?_⟩
  rw [BdmAllocatorRealize.seg, BdmAllocatorRealize.len, hc]
  exact hseg

/-- Only the write of the record fails. -/
theorem bind_updateMeta_failed {β : Type} {bucketId bucketOffset : Nat}
    {isFree : Bool} {f : BdmAllocatorRealize → β}
    (h : (Faults.bdmAllocatorUpdateMeta a bucketId bucketOffset c isFree
      results).bind (fun a rest => Written.done (f a) rest) = .failed b) :
    Faults.bdmAllocatorUpdateMeta a bucketId bucketOffset c isFree results =
      .failed b := by
  match results, h with
  | false :: _, h =>
      have hb := Written.failed.inj h
      rw [← hb]
      rfl
  | [], h => exact nomatch h
  | true :: _, h => exact nomatch h

/-- An area that has grown over the chunk is listed again. -/
theorem covers_of_link {p l : Nat} {d : BdmAllocatorRealize}
    (hp : (d.chunkList p) = ⟨p, l⟩) (hle : p ≤ c) (hlt : c < p + l)
    (hhead : b.freeHead = (link d p).freeHead)
    (hcells : b.chunkList = (link d p).chunkList) : Covers b c := by
  refine ⟨_, (lists_link d p).of_eq hhead hcells, ?_⟩
  rw [BdmAllocatorRealize.seg, BdmAllocatorRealize.len, hp]
  exact ⟨hle, hlt⟩

theorem insertPre_failed {next : Nat} (hc : Cell a c) (hn : Cell a next)
    (h : Faults.bdmAllocatorInsertPre a c next results = .failed b) :
    Covers b c := by
  have hpos := hc.pos
  rw [Faults.bdmAllocatorInsertPre, if_neg hn.pos.ne'] at h
  dsimp only at h
  rw [if_neg (by rw [len_setLength, if_pos rfl, len_unlink]; omega)] at h
  obtain ⟨-, hhead, hcells⟩ := updateMeta_failed (bind_updateMeta_failed h)
  have hself := chunkList_setLength_self
    (a := unlink a next (freeIndexOf (a.len next))) hc.index
    (a.len c + a.len next)
  exact covers_of_link (l := a.len c + a.len next)
    ((congrFun hself c).trans (Function.update_self ..)) le_rfl (by omega)
    hhead hcells


theorem insertNext_failed {p : Nat} {neigh : Option Nat} (hc : Cell a c)
    (hp : Cell a p) (hend : p + a.len p = c)
    (hneigh : ∀ n, neigh = some n → Cell a n ∧ n ≠ p)
    (h : Faults.bdmAllocatorInsertNext a c p neigh results = .failed b) :
    Covers b c := by
  have hpos := hp.pos
  have hself : (grown a c p).chunkList p = ⟨p, a.len p + a.len c⟩ :=
    (congrFun (chunkList_setLength_self (a := unlink a p _) hp.index _)
      p).trans (Function.update_self ..)
  have hcpos := hc.pos
  rw [Faults.bdmAllocatorInsertNext, if_neg hp.pos.ne'] at h
  change (match adjacent (grown a c p) c neigh with
    | some n => _
    | none => _) = Written.failed b at h
  cases hadj : adjacent (grown a c p) c neigh with
  | none =>
      rw [hadj] at h
      dsimp only at h
      change (if (grown a c p).len p = 0 then _ else _) = Written.failed b at h
      rw [if_neg (by rw [len_grown_self]; omega)] at h
      obtain ⟨-, hhead, hcells⟩ := updateMeta_failed (bind_updateMeta_failed h)
      exact covers_of_link hself (by omega) (by omega) hhead hcells
  | some n =>
      rw [hadj] at h
      dsimp only at h
      obtain ⟨hn, hnp⟩ := hneigh n (Option.eq_some_of_filter_eq_some hadj)
      change (if (grown a c p).len n = 0 then _ else
        if ((unlink (grown a c p) n _).setLength p
          ((grown a c p).len p + (grown a c p).len n)).len p = 0 then _ else _) =
            Written.failed b at h
      rw [if_neg (by rw [len_grown hnp]; exact hn.pos.ne'),
        if_neg (by rw [len_setLength, if_pos rfl, len_grown_self]; omega)] at h
      obtain ⟨-, hhead, hcells⟩ := updateMeta_failed (bind_updateMeta_failed h)
      have hboth := chunkList_setLength_self
        (a := unlink (grown a c p) n (freeIndexOf ((grown a c p).len n)))
        (c := p) (congrArg BdmChunkIndex.index hself)
        ((grown a c p).len p + (grown a c p).len n)
      refine covers_of_link ((congrFun hboth p).trans (Function.update_self ..))
        (by omega) ?_ hhead hcells
      rw [len_grown_self]
      omega

theorem restoreInsert_failed (hA : Areas a) (hc : Fresh a c)
    (h : Faults.bdmAllocatorRestoreInsert a c results = .failed b) :
    Covers b c := by
  obtain ⟨a', -, -, -, -, hins, -⟩ := restoreInsert_spec hA hc
  rw [Faults.bdmAllocatorRestoreInsert] at h
  rw [bdmAllocatorRestoreInsert] at hins
  rcases hw : descend (insertTurn a c) a.root [] with ⟨t, p⟩
  rw [hw] at h hins
  cases t with
  | leaf =>
      dsimp only at h hins
      rw [if_neg hc.cell.pos.ne'] at h hins
      obtain ⟨t, ht, -⟩ := Option.map_eq_some_iff.mp hins
      rw [ht] at h
      cases h
  | node color l d r =>
      obtain ⟨hlist, hmem, hd⟩ := fresh_neighbour hA hc hw
      have hcell := hA.cell d hmem
      have hpos := hcell.pos
      dsimp only at h hins
      rw [hc.cell.index, hcell.index] at h hins
      rcases hd with hd | hd
      · rw [if_pos hd.symm] at h hins
        have hneigh : ∀ n, next r p = some n → Cell a n ∧ n ≠ d := by
          intro n hn
          rw [next_eq] at hn
          have hn := List.mem_of_mem_head? hn
          have hnmem : n ∈ a.root.toList := by
            rw [hlist]
            exact List.mem_append_right _ (List.mem_cons_of_mem _ hn)
          refine ⟨hA.cell n hnmem, ?_⟩
          have := (hA.around hlist).2 n hn
          omega
        have hfollows := follows_insertNext a c d (next r p) results
        cases hnext : Faults.bdmAllocatorInsertNext a c d (next r p) results with
        | refused =>
            rw [hnext] at h
            cases h
        | failed x =>
            rw [hnext] at h
            rw [Written.bind] at h
            cases h
            exact insertNext_failed hc.cell hcell hd hneigh hnext
        | done x rest =>
            rw [hnext] at h hfollows
            cases hx : bdmAllocatorInsertNext a c d (next r p) with
            | none =>
                rw [hx] at hins
                cases hins
            | some y =>
                rw [hx] at hins hfollows
                obtain rfl : y = x := by
                  have heq := hfollows.1
                  cases heq
                  rfl
                obtain ⟨y, n⟩ := y
                rw [Written.bind] at h
                cases n with
                | none => cases h
                | some n =>
                    -- the node that is deleted stands in the tree
                    dsimp only [Option.bind_some] at h hins
                    obtain ⟨t, ht, -⟩ := Option.map_eq_some_iff.mp hins
                    rw [ht] at h
                    cases h
      · rw [if_neg (by omega), if_pos hd] at h
        exact insertPre_failed hc.cell hcell h

theorem insert_failed (hA : Areas a) (hc : Fresh a c)
    (h : Faults.bdmAllocatorInsert a c results = .failed b) : Covers b c := by
  obtain ⟨a', lower, gone, upper, new, hins, hj, -⟩ := restoreInsert_spec hA hc
  have hfollows := follows_restoreInsert a c results
  rw [Faults.bdmAllocatorInsert] at h
  cases hrest : Faults.bdmAllocatorRestoreInsert a c results with
  | refused =>
      rw [hrest] at h
      exact nomatch h
  | failed x =>
      rw [hrest, Written.bind] at h
      cases h
      exact restoreInsert_failed hA hc hrest
  | done x rest =>
      rw [hrest, Written.bind] at h
      rw [hrest, hins] at hfollows
      obtain rfl : a' = x := by
        have heq := hfollows.1
        cases heq
        rfl
      obtain ⟨-, hhead, hcells⟩ := updateMeta_failed h
      have hnew : Lists a' ⟨new.start, a'.len new.start⟩ :=
        (hj.areas hA).lists_iff.mpr ⟨new.start, by rw [hj.root]; simp, rfl⟩
      refine ⟨_, hnew.of_eq hhead hcells, ?_⟩
      have hhas := hj.has (s := ⟨a, []⟩) hc.cell
      change new.start ≤ c ∧ c + a.len c ≤ _ at hhas
      have hpos := hc.cell.pos
      rw [hj.cell_new.2, Seg.Has]
      dsimp only
      omega

/-! ## Allocations -/

/-- The area has left its list and not the tree. -/
theorem removeSameLen_failed (hA : Areas a) (hc : c ∈ a.root.toList)
    {bucketId bucketOffset k : Nat}
    (h : Faults.bdmAllocatorRemoveSameLen a c bucketId bucketOffset k results =
      .failed b) : ¬ Unchanged a b := by
  have hmeta : b.freeHead = (unlink a c k).freeHead ∧
      b.chunkList = a.chunkList := by
    rw [Faults.bdmAllocatorRemoveSameLen] at h
    match results, h with
    | false :: _, h =>
        cases h
        exact ⟨rfl, rfl⟩
    | [], h | true :: _, h =>
        change (match rbtreeDelete a.root c with
          | none => _
          | some t => _) = Written.failed b at h
        cases hdel : rbtreeDelete a.root c with
        | none =>
            rw [hdel] at h
            cases h
            exact ⟨rfl, rfl⟩
        | some t =>
            rw [hdel] at h
            exact nomatch h
  refine unlisted_changed hA hc (fun i e he => ?_) fun e => by rw [hmeta.2]
  rw [hmeta.1] at he
  exact he

/-- The rest of the area is listed, and the area is in the tree. -/
theorem removeDiffLen_failed (hA : Areas a) (hc : c ∈ a.root.toList)
    {bucketId bucketOffset length : Nat} (hpos : 0 < length)
    (hlt : length < a.len c)
    (h : Faults.bdmAllocatorRemoveDiffLen a c bucketId bucketOffset length
      results = .failed b) : ¬ Unchanged a b := by
  intro hsame
  have hindex := (hA.cell c hc).index
  have hlist : ∃ x, Lists b x ∧ x.start = c + length := by
    rw [Faults.bdmAllocatorRemoveDiffLen] at h
    dsimp only at h
    match results, h with
    | false :: _, h =>
        cases h
        refine ⟨_, lists_link (a.setCell (c + length)
          ⟨(a.chunkList c).index + length, a.len c - length⟩) (c + length), ?_⟩
        show (Function.update a.chunkList (c + length) _ (c + length)).index = _
        rw [Function.update_self]
        exact congrArg (· + length) hindex
    | [], h => exact nomatch h
    | [true], h => exact nomatch h
    | true :: true :: _, h => exact nomatch h
    | true :: false :: _, h =>
        cases h
        have hne : c + length ≠ c := by omega
        refine ⟨_, ⟨freeIndexOf ((a.setCell (c + length)
          ⟨(a.chunkList c).index + length, a.len c - length⟩).len (c + length)),
          c + length, ?_, rfl⟩, ?_⟩
        · refine (List.mem_erase_of_ne hne).mpr ?_
          show c + length ∈ Function.update a.freeHead _ _ _
          rw [Function.update_self]
          exact List.mem_append_right _ (List.mem_singleton_self _)
        · show (Function.update (Function.update a.chunkList (c + length) _) c _
            (c + length)).index = _
          rw [Function.update_of_ne hne, Function.update_self]
          exact congrArg (· + length) hindex
  obtain ⟨x, hx, hstart⟩ := hlist
  obtain ⟨d, hd, rfl⟩ := hA.lists_iff.mp ((hsame.lists x).mp hx)
  dsimp only at hstart
  exact hA.inside_not_mem hc hpos hlt (hstart ▸ hd)

/-! ## Runs -/

/-- A call of the users, with the results of its writes. -/
def callWritten (a : BdmAllocatorRealize) (results : List Bool) :
    Op → Written BdmAllocatorRealize
  | .alloc bucketId bucketOffset chunkSize =>
      (Faults.bdmAllocatorAllocChunk a bucketId bucketOffset chunkSize
        results).bind fun x rest => .done x.1 rest
  | .free chunkSize chunkId =>
      Faults.bdmAllocatorFreeChunk a chunkSize chunkId results

theorem alloc_of_callWritten {bucketId bucketOffset chunkSize : Nat}
    (h : callWritten a results (.alloc bucketId bucketOffset chunkSize) =
      .failed b) :
    Faults.bdmAllocatorAllocChunk a bucketId bucketOffset chunkSize results =
      .failed b := by
  rw [callWritten] at h
  cases hw : Faults.bdmAllocatorAllocChunk a bucketId bucketOffset chunkSize
      results with
  | done x rest =>
      rw [hw] at h
      exact nomatch h
  | refused =>
      rw [hw] at h
      exact nomatch h
  | failed x =>
      rw [hw] at h
      cases h
      rfl

theorem allocChunk_failed (hA : Areas a)
    {bucketId bucketOffset chunkSize : Nat}
    (h : Faults.bdmAllocatorAllocChunk a bucketId bucketOffset chunkSize
      results = .failed b) : ¬ Unchanged a b := by
  have hrem : Faults.bdmAllocatorRemove a bucketId bucketOffset chunkSize
      results = .failed b := by
    rw [Faults.bdmAllocatorAllocChunk] at h
    cases hw : Faults.bdmAllocatorRemove a bucketId bucketOffset chunkSize
        results with
    | done x rest =>
        rw [hw] at h
        exact nomatch h
    | refused =>
        rw [hw] at h
        exact nomatch h
    | failed x =>
        rw [hw] at h
        cases h
        rfl
  rw [Faults.bdmAllocatorRemove] at hrem
  split at hrem
  · exact nomatch hrem
  dsimp only at hrem
  split at hrem
  · exact nomatch hrem
  rename_i hlength
  split at hrem
  · exact nomatch hrem
  · rename_i k c hfind
    obtain ⟨hmem, -, hle⟩ := findArea_spec hA hfind
    split at hrem
    · exact removeSameLen_failed hA hmem hrem
    · exact removeDiffLen_failed hA hmem (Nat.pos_of_ne_zero hlength) (by omega)
        hrem

theorem freeChunk_failed {k : Chunk} {chunkSize : Nat} (h : Sound n s)
    (hk : k ∈ s.live)
    (hf : Faults.bdmAllocatorFreeChunk s.alloc chunkSize k.id results =
      .failed b) : ¬ Unchanged s.alloc b := by
  rw [Faults.bdmAllocatorFreeChunk] at hf
  split at hf
  · exact nomatch hf
  split at hf
  · exact nomatch hf
  cases hins : Faults.bdmAllocatorInsert s.alloc k.id results with
  | done x rest =>
      rw [hins] at hf
      exact nomatch hf
  | refused =>
      rw [hins] at hf
      exact nomatch hf
  | failed x =>
      rw [hins] at hf
      cases hf
      exact (insert_failed h.areas (h.fresh hk) hins).changed h.areas
        (h.fresh hk)

/-- An allowed call ends with an error only where a write fails. -/
theorem false_mem_of_failed (h : Sound n s) {op : Op} (hop : Allowed s op)
    (hcall : callWritten s.alloc results op = .failed b) : false ∈ results := by
  obtain ⟨s', hs', -⟩ := step_effect h hop
  rw [step.eq_def, if_pos hop] at hs'
  cases op with
  | alloc bucketId bucketOffset chunkSize =>
      have hfollows := follows_allocChunk s.alloc bucketId bucketOffset
        chunkSize results
      rw [alloc_of_callWritten hcall] at hfollows
      refine hfollows.resolve_left fun hbroken => ?_
      dsimp only at hs'
      rw [hbroken] at hs'
      cases hs'
  | free chunkSize chunkId =>
      have hfollows := follows_freeChunk s.alloc chunkSize chunkId results
      rw [callWritten] at hcall
      rw [hcall] at hfollows
      refine hfollows.resolve_left fun hbroken => ?_
      dsimp only at hs'
      rw [hbroken] at hs'
      cases hs'

/-- **FAILED WRITES**: in every state that the allocator reaches, a call one of
    whose writes fails returns an error and leaves other free areas than those
    from before. -/
theorem failed_write_changes (minChunkSize totalSize : Nat)
    (cells : Nat → BdmChunkIndex) (records : Nat → BdmChunkMeta)
    (hcreate : bdmAllocatorCreate minChunkSize totalSize cells records = some a)
    (ops : List Op) (hrun : runFrom step ⟨a, []⟩ ops = some s) (op : Op)
    (hop : Allowed s op) (results : List Bool) (b : BdmAllocatorRealize)
    (hcall : callWritten s.alloc results op = .failed b) :
    false ∈ results ∧ ¬ Unchanged s.alloc b := by
  obtain ⟨hmin, hj, -⟩ := create_of_some hcreate
  have hs : Sound (totalSize / minChunkSize) s :=
    runFrom_invariant (fun s op s' hs hstep => sound_of_step hs hstep)
      (sound_create hmin hj) hrun
  refine ⟨false_mem_of_failed hs hop hcall, ?_⟩
  cases op with
  | alloc bucketId bucketOffset chunkSize =>
      exact allocChunk_failed hs.areas (alloc_of_callWritten hcall)
  | free chunkSize chunkId =>
      obtain ⟨k, hk, rfl⟩ := List.mem_map.mp hop
      exact freeChunk_failed hs hk hcall

/-- What a failed allocation of the whole disk leaves of a new allocator. -/
def afterFailure : Option BdmAllocatorRealize :=
  (bdmAllocatorCreate 1 8 noCells noRecords).bind fun a =>
    match callWritten a [false] (.alloc 7 0 8) with
    | .failed b => some b
    | _ => none

theorem afterFailure_spec : ∃ a b,
    bdmAllocatorCreate 1 8 noCells noRecords = some a ∧
    Allowed ⟨a, []⟩ (.alloc 7 0 8) ∧
    callWritten a [false] (.alloc 7 0 8) = .failed b := by
  have hrun : afterFailure.isSome = true := by
    decide +kernel
  obtain ⟨b, hb⟩ := Option.isSome_iff_exists.mp hrun
  obtain ⟨a, ha, hb⟩ := Option.bind_eq_some_iff.mp hb
  refine ⟨a, b, ha, ⟨by decide, ?_⟩, ?_⟩
  · obtain ⟨-, hj, -⟩ := create_of_some ha
    rw [show (Sys.mk a []).alloc.minChunkSize = 1 from hj.minChunkSize]
    exact Nat.one_dvd 8
  · cases hcall : callWritten a [false] (.alloc 7 0 8) with
    | done x rest =>
        rw [hcall] at hb
        exact nomatch hb
    | refused =>
        rw [hcall] at hb
        exact nomatch hb
    | failed x =>
        rw [hcall] at hb
        exact congrArg Written.failed (Option.some.inj hb)

theorem failed_write_changes_eight : ∃ a b,
    bdmAllocatorCreate 1 8 noCells noRecords = some a ∧
    runFrom step ⟨a, []⟩ [] = some ⟨a, []⟩ ∧
    Allowed ⟨a, []⟩ (.alloc 7 0 8) ∧
    callWritten a [false] (.alloc 7 0 8) = .failed b ∧
    ¬ Unchanged a b := by
  obtain ⟨a, b, ha, hop, hcall⟩ := afterFailure_spec
  exact ⟨a, b, ha, rfl, hop, hcall, (failed_write_changes 1 8 noCells noRecords
    ha [] rfl _ hop _ b hcall).2⟩

/-- The area that an allocation has taken from its list is lost. -/
theorem failed_write_not_atomic : ¬ ∀ (ops : List Op)
    (a : BdmAllocatorRealize) (s : Sys) (op : Op) (results : List Bool)
    (b : BdmAllocatorRealize),
    bdmAllocatorCreate 1 8 noCells noRecords = some a →
    runFrom step ⟨a, []⟩ ops = some s → Allowed s op →
    callWritten s.alloc results op = .failed b → Unchanged s.alloc b := by
  intro h
  obtain ⟨a, b, ha, hop, hcall⟩ := afterFailure_spec
  obtain ⟨hmin, hj, -⟩ := create_of_some ha
  exact allocChunk_failed (sound_create hmin hj).areas
    (alloc_of_callWritten hcall) (h [] a ⟨a, []⟩ _ _ b ha rfl hop hcall)

end UbsIo.Bdm
