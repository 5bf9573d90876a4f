import UbsIo.Bdm.Faults

/-! # Frees of what is not held

    `BdmAllocatorFreeChunk` again, for any id and any size: the cell at the id
    may be left over from an area that is gone, or never have been written, so
    sums and products are of 64 bits here.  The call compares the size with the
    cell and then only looks at the areas that its walk through the tree
    meets. -/

namespace UbsIo.Bdm

open UbsIo.Lib

/-- How a free ends: done, refused at the start, with an error and what is left
    of the allocator, or with a write before the first free list. -/
inductive Freed (β : Type) where
  | done (b : β)
  | refused
  | failed (a : BdmAllocatorRealize)
  | wild

def Freed.bind {β γ : Type} (x : Freed β) (f : β → Freed γ) : Freed γ :=
  match x with
  | .done b => f b
  | .refused => .refused
  | .failed a => .failed a
  | .wild => .wild

/-- The sum of two numbers of 64 bits. -/
def add64 (x y : Nat) : Nat := (x + y) % 2 ^ 64

namespace Wide

/-- The comparisons of `BdmAllocatorInsertCallback`. -/
def insertTurn (a : BdmAllocatorRealize) (chunk temp : Nat) : Turn :=
  let x := a.chunkList chunk
  let y := a.chunkList temp
  if x.index = add64 y.index y.length then .here
  else if add64 x.index x.length = y.index then .here
  else if add64 x.index x.length < y.index then .left
  else if add64 y.index y.length < x.index then .right
  else .here

/-- `BdmAllocatorInsertPre`. -/
def bdmAllocatorInsertPre (a : BdmAllocatorRealize) (chunk next : Nat) :
    Freed BdmAllocatorRealize :=
  if a.len next = 0 then .failed a
  else
    let a := unlink a next (freeIndexOf (a.len next))
    let a := a.setLength chunk (add64 (a.len chunk) (a.len next))
    if a.len chunk = 0 then .failed a
    else
      let a := bdmAllocatorUpdateMeta (link a chunk) 0 0 chunk true
      .done { a with root := rbtreeReplace a.root chunk next }

/-- `BdmAllocatorInsertNext`. -/
def bdmAllocatorInsertNext (a : BdmAllocatorRealize) (chunk prev : Nat)
    (neigh : Option Nat) : Freed (BdmAllocatorRealize × Option Nat) :=
  if a.len prev = 0 then .failed a
  else
    let a := unlink a prev (freeIndexOf (a.len prev))
    let a := a.setLength prev (add64 (a.len prev) (a.len chunk))
    let adjacent := neigh.filter fun n =>
      add64 (a.chunkList chunk).index (a.len chunk) == (a.chunkList n).index
    match adjacent with
    | some n =>
        if a.len n = 0 then .failed a
        else
          let a := unlink a n (freeIndexOf (a.len n))
          let a := a.setLength prev (add64 (a.len prev) (a.len n))
          if a.len prev = 0 then .failed a
          else
            .done (bdmAllocatorUpdateMeta (link a prev) 0 0 prev true, some n)
    | none =>
        if a.len prev = 0 then .failed a
        else .done (bdmAllocatorUpdateMeta (link a prev) 0 0 chunk true, none)

/-- `BdmAllocatorInsert`. -/
def bdmAllocatorInsert (a : BdmAllocatorRealize) (chunk : Nat) :
    Freed BdmAllocatorRealize :=
  let joined : Freed BdmAllocatorRealize :=
    match descend (insertTurn a chunk) a.root [] with
    | (.leaf, p) =>
        if a.len chunk = 0 then .wild
        else
          match insertFix (.node .red .leaf chunk .leaf) p with
          | none => .failed a
          | some t => .done { link a chunk with root := t }
    | (.node _ _ temp r, p) =>
        if (a.chunkList chunk).index =
            add64 (a.chunkList temp).index (a.len temp) then
          (bdmAllocatorInsertNext a chunk temp (next r p)).bind fun s =>
            match s.2 with
            | none => .done s.1
            | some n =>
                match rbtreeDelete s.1.root n with
                | none => .failed s.1
                | some t => .done { s.1 with root := t }
        else if add64 (a.chunkList chunk).index (a.len chunk)
            = (a.chunkList temp).index then
          bdmAllocatorInsertPre a chunk temp
        else .failed a
  joined.bind fun a => .done (bdmAllocatorUpdateMeta a 0 0 chunk true)

/-- `BdmAllocatorFreeChunk`. -/
def bdmAllocatorFreeChunk (a : BdmAllocatorRealize)
    (chunkSize chunkId : Nat) : Freed BdmAllocatorRealize :=
  if chunkId ≥ a.chunkNum then .refused
  else if chunkSize ≠ a.len chunkId * a.minChunkSize % 2 ^ 64 then .refused
  else
    (bdmAllocatorInsert a chunkId).bind fun a =>
      .done { a with usedSize := a.usedSize - chunkSize }

end Wide

variable {a b : BdmAllocatorRealize} {c n : Nat} {s s' : Sys}

/-! ## Chunks that are held -/

theorem add64_eq {x y : Nat} (h : x + y < 2 ^ 64) : add64 x y = x + y :=
  Nat.mod_eq_of_lt h

/-- The ends of the areas and of a chunk are numbers of 64 bits. -/
structure Narrow (a : BdmAllocatorRealize) (c : Nat) : Prop where
  chunk : c + a.len c < 2 ^ 64
  area : ∀ d ∈ a.root.toList, d + a.len d < 2 ^ 64

theorem Narrow.turn (h : Narrow a c) (hA : Areas a) (hc : Cell a c) {d : Nat}
    (hd : d ∈ a.root.toList) : Wide.insertTurn a c d = insertTurn a c d := by
  have hx : (a.chunkList c).index + (a.chunkList c).length < 2 ^ 64 := by
    rw [hc.index]
    exact h.chunk
  have hy : (a.chunkList d).index + (a.chunkList d).length < 2 ^ 64 := by
    rw [(hA.cell d hd).index]
    exact h.area d hd
  rw [Wide.insertTurn, insertTurn, add64_eq hx, add64_eq hy]

theorem Narrow.walk (h : Narrow a c) (hA : Areas a) (hc : Cell a c) :
    descend (Wide.insertTurn a c) a.root [] =
      descend (insertTurn a c) a.root [] :=
  descend_congr a.root [] fun _ hd => h.turn hA hc hd

theorem Narrow.insertPre (h : Narrow a c) {d : Nat}
    (hd : c + a.len c = d) (hmem : d ∈ a.root.toList) :
    bdmAllocatorInsertPre a c d = some b →
      Wide.bdmAllocatorInsertPre a c d = .done b := by
  have harea := h.area d hmem
  intro hb
  rw [bdmAllocatorInsertPre] at hb
  rw [Wide.bdmAllocatorInsertPre]
  split at hb
  · cases hb
  next hlen =>
    rw [if_neg hlen]
    have hadd : add64 ((unlink a d (freeIndexOf (a.len d))).len c)
        ((unlink a d (freeIndexOf (a.len d))).len d) = _ :=
      add64_eq (by rw [len_unlink, len_unlink]; omega)
    dsimp only at hb ⊢
    rw [hadd]
    split at hb
    · cases hb
    next hlen' =>
      rw [if_neg hlen']
      exact congrArg Freed.done (Option.some.inj hb)

/-- The area before the chunk grows as it does there. -/
theorem wide_insertNext_grown {p : Nat} (hp : Cell a p) (neigh : Option Nat)
    (hadd : add64 (a.len p) (a.len c) = a.len p + a.len c) :
    Wide.bdmAllocatorInsertNext a c p neigh =
      match neigh.filter fun n => add64 ((grown a c p).chunkList c).index
          ((grown a c p).len c) == ((grown a c p).chunkList n).index with
      | some n =>
          if (grown a c p).len n = 0 then .failed (grown a c p)
          else
            let b := unlink (grown a c p) n (freeIndexOf ((grown a c p).len n))
            let b := b.setLength p (add64 (b.len p) (b.len n))
            if b.len p = 0 then .failed b
            else .done (bdmAllocatorUpdateMeta (link b p) 0 0 p true, some n)
      | none =>
          if (grown a c p).len p = 0 then .failed (grown a c p)
          else .done (bdmAllocatorUpdateMeta (link (grown a c p) p) 0 0 c true,
            none) := by
  rw [Wide.bdmAllocatorInsertNext, if_neg hp.pos.ne', grown, ← hadd]
  rfl

theorem Narrow.insertNext (h : Narrow a c) (hc : Cell a c) {p : Nat}
    {neigh : Option Nat} {x : BdmAllocatorRealize × Option Nat}
    (hp : p + a.len p = c) (hpc : Cell a p)
    (hneigh : ∀ d, neigh = some d →
      d ∈ a.root.toList ∧ d ≠ p ∧ (a.chunkList d).index = d) :
    bdmAllocatorInsertNext a c p neigh = some x →
      Wide.bdmAllocatorInsertNext a c p neigh = .done x := by
  have hchunk := h.chunk
  have hne : c ≠ p := by
    have := hpc.pos
    omega
  intro hx
  rw [insertNext_grown hpc] at hx
  rw [wide_insertNext_grown hpc neigh (add64_eq (by omega))]
  rw [index_grown, len_grown hne, hc.index, add64_eq hchunk]
  have hadj : (neigh.filter fun n =>
      c + a.len c == ((grown a c p).chunkList n).index) =
      adjacent (grown a c p) c neigh := by
    rw [adjacent, index_grown, len_grown hne, hc.index]
  rw [hadj]
  cases hfilter : adjacent (grown a c p) c neigh with
  | none =>
      rw [hfilter] at hx
      dsimp only at hx ⊢
      split at hx
      · cases hx
      next hlen =>
        rw [if_neg hlen]
        exact congrArg Freed.done (Option.some.inj hx)
  | some d =>
      rw [hfilter] at hx
      obtain ⟨hmem, hdp, hindex⟩ :=
        hneigh d (Option.eq_some_of_filter_eq_some hfilter)
      have harea := h.area d hmem
      have hend : c + a.len c = d := by
        have htrue := (Option.filter_eq_some_iff.mp hfilter).2
        rw [beq_iff_eq, index_grown, index_grown, len_grown hne, hc.index,
          hindex] at htrue
        exact htrue
      dsimp only at hx ⊢
      split at hx
      · cases hx
      next hlen =>
        rw [if_neg hlen]
        have hadd : add64
            ((unlink (grown a c p) d (freeIndexOf ((grown a c p).len d))).len p)
            ((unlink (grown a c p) d (freeIndexOf ((grown a c p).len d))).len d)
              = _ :=
          add64_eq (by
            rw [len_unlink, len_unlink, len_grown_self, len_grown hdp]
            omega)
        rw [hadd]
        split at hx
        · cases hx
        next hlen' =>
          rw [if_neg hlen']
          exact congrArg Freed.done (Option.some.inj hx)

/-- A chunk that meets no area is inserted as the allocator does it. -/
theorem Narrow.insert (h : Narrow a c) (hA : Areas a) (hc : Fresh a c)
    (hb : bdmAllocatorInsert a c = some b) :
    Wide.bdmAllocatorInsert a c = .done b := by
  obtain ⟨x, hx, rfl⟩ := Option.map_eq_some_iff.mp hb
  rw [bdmAllocatorRestoreInsert] at hx
  rw [Wide.bdmAllocatorInsert, h.walk hA hc.cell]
  rcases hw : descend (insertTurn a c) a.root [] with ⟨t, p⟩
  rw [hw] at hx
  cases t with
  | leaf =>
      dsimp only at hx ⊢
      rw [if_neg hc.cell.pos.ne'] at hx ⊢
      obtain ⟨t, ht, rfl⟩ := Option.map_eq_some_iff.mp hx
      rw [ht]
      rfl
  | node color l d r =>
      obtain ⟨hlist, hmem, hd⟩ := fresh_neighbour hA hc hw
      have hcell := hA.cell d hmem
      have hpos := hcell.pos
      dsimp only at hx ⊢
      rw [hc.cell.index, hcell.index] at hx ⊢
      rw [add64_eq (h.area d hmem), add64_eq h.chunk]
      rcases hd with hd | hd
      · rw [if_pos hd.symm] at hx ⊢
        have hneigh : ∀ n, next r p = some n →
            n ∈ a.root.toList ∧ n ≠ d ∧ (a.chunkList n).index = n := by
          intro n hn
          rw [next_eq] at hn
          have hn := List.mem_of_mem_head? hn
          have hnmem : n ∈ a.root.toList := by
            rw [hlist]
            exact List.mem_append_right _ (List.mem_cons_of_mem _ hn)
          refine ⟨hnmem, ?_, (hA.cell n hnmem).index⟩
          have := (hA.around hlist).2 n hn
          omega
        obtain ⟨y, hy, hx⟩ := Option.bind_eq_some_iff.mp hx
        rw [h.insertNext hc.cell hd hcell hneigh hy]
        obtain ⟨y, n⟩ := y
        cases n with
        | none =>
            cases hx
            rfl
        | some n =>
            dsimp only at hx
            obtain ⟨t, ht, rfl⟩ := Option.map_eq_some_iff.mp hx
            dsimp only [Freed.bind]
            rw [ht]
      · rw [if_neg (by omega), if_pos hd] at hx ⊢
        rw [h.insertPre hd hmem hx]
        rfl

/-! ## What the call catches -/

/-- The walk of the insertion ends at an area that the chunk overlaps. -/
def Overlaps (a : BdmAllocatorRealize) (c : Nat) : Prop :=
  ∃ color l d r p,
    descend (Wide.insertTurn a c) a.root [] = (.node color l d r, p) ∧
    (a.chunkList c).index ≠ add64 (a.chunkList d).index (a.len d) ∧
    add64 (a.chunkList c).index (a.len c) ≠ (a.chunkList d).index

/-- What the call looks at: the id, the size of the cell, and one walk. -/
def Caught (a : BdmAllocatorRealize) (chunkSize chunkId : Nat) : Prop :=
  a.chunkNum ≤ chunkId ∨
  chunkSize ≠ a.len chunkId * a.minChunkSize % 2 ^ 64 ∨ Overlaps a chunkId

theorem Unchanged.refl (a : BdmAllocatorRealize) : Unchanged a a :=
  ⟨fun _ => Iff.rfl, fun _ => Iff.rfl, rfl⟩

/-- A free that is caught leaves the allocator as it was. -/
theorem Caught.eq {chunkSize chunkId : Nat} (h : Caught a chunkSize chunkId) :
    Wide.bdmAllocatorFreeChunk a chunkSize chunkId = .refused ∨
      Wide.bdmAllocatorFreeChunk a chunkSize chunkId = .failed a := by
  rw [Wide.bdmAllocatorFreeChunk]
  by_cases hid : chunkId ≥ a.chunkNum
  · exact .inl (if_pos hid)
  rw [if_neg hid]
  by_cases hsize : chunkSize ≠ a.len chunkId * a.minChunkSize % 2 ^ 64
  · exact .inl (if_pos hsize)
  rw [if_neg hsize]
  obtain ⟨color, l, d, r, p, hw, hprev, hnext⟩ :=
    (h.resolve_left hid).resolve_left hsize
  right
  rw [Wide.bdmAllocatorInsert, hw]
  dsimp only
  rw [if_neg hprev, if_neg hnext]
  rfl

/-- The chunk is held and has the size. -/
def Held (s : Sys) (chunkSize chunkId : Nat) : Prop :=
  ∃ k ∈ s.live, k.id = chunkId ∧
    chunkSize = k.length * s.alloc.minChunkSize

end UbsIo.Bdm
