import UbsIo.Bdm.Coalesce
import UbsIo.Bdm.Crash

/-! # Scanning the records

    The records in memory are those that were there at the beginning with all
    writes applied (`Mirrors`), so what holds of the durable records holds of
    them: a scan walks from head to head through the whole disk and hands out
    the held chunks in their order. -/

namespace UbsIo.Bdm

open UbsIo.Lib

variable {a a' : BdmAllocatorRealize} {records : Nat → BdmChunkMeta}
  {c : Nat}

/-- The records in memory are those that have been written. -/
def Mirrors (records : Nat → BdmChunkMeta) (a : BdmAllocatorRealize) : Prop :=
  a.metaAddr = applyWrites records a.writes

/-- Only the records matter. -/
theorem Mirrors.of_eq (h : Mirrors records a) (hm : a'.metaAddr = a.metaAddr)
    (hw : a'.writes = a.writes) : Mirrors records a' := by
  rw [Mirrors, hm, hw]
  exact h

theorem Mirrors.updateMeta (h : Mirrors records a)
    (bucketId bucketOffset c : Nat) (isFree : Bool) :
    Mirrors records
      (bdmAllocatorUpdateMeta a bucketId bucketOffset c isFree) := by
  show Function.update a.metaAddr _ _ = applyWrites records (a.writes ++ [_])
  rw [applyWrites_append, ← h]
  rfl

theorem Mirrors.insertPre (h : Mirrors records a) {next : Nat}
    (hins : bdmAllocatorInsertPre a c next = some a') : Mirrors records a' := by
  rw [bdmAllocatorInsertPre] at hins
  split at hins
  · cases hins
  · dsimp only at hins
    split at hins
    · cases hins
    · cases hins
      refine Mirrors.of_eq (a := bdmAllocatorUpdateMeta _ 0 0 c true)
        (Mirrors.updateMeta ?_ 0 0 c true) rfl rfl
      exact h.of_eq rfl rfl

theorem Mirrors.insertNext (h : Mirrors records a) {prev : Nat}
    {neigh erase : Option Nat}
    (hins : bdmAllocatorInsertNext a c prev neigh = some (a', erase)) :
    Mirrors records a' := by
  rw [bdmAllocatorInsertNext] at hins
  split at hins
  · cases hins
  · dsimp only at hins
    split at hins
    · split at hins
      · cases hins
      · split at hins
        · cases hins
        · cases hins
          refine Mirrors.updateMeta ?_ 0 0 prev true
          exact h.of_eq rfl rfl
    · split at hins
      · cases hins
      · cases hins
        refine Mirrors.updateMeta ?_ 0 0 c true
        exact h.of_eq rfl rfl

theorem Mirrors.restoreInsert (h : Mirrors records a)
    (hins : bdmAllocatorRestoreInsert a c = some a') : Mirrors records a' := by
  rw [bdmAllocatorRestoreInsert] at hins
  split at hins
  · split at hins
    · cases hins
    · obtain ⟨t, -, rfl⟩ := Option.map_eq_some_iff.mp hins
      exact h.of_eq rfl rfl
  · split at hins
    · obtain ⟨⟨b, erase⟩, hnext, hins⟩ := Option.bind_eq_some_iff.mp hins
      have hb := h.insertNext hnext
      cases erase with
      | none =>
          cases hins
          exact hb
      | some n =>
          obtain ⟨t, -, rfl⟩ := Option.map_eq_some_iff.mp hins
          exact hb.of_eq rfl rfl
    · split at hins
      · exact h.insertPre hins
      · cases hins

theorem Mirrors.insert (h : Mirrors records a)
    (hins : bdmAllocatorInsert a c = some a') : Mirrors records a' := by
  obtain ⟨b, hb, rfl⟩ := Option.map_eq_some_iff.mp hins
  exact (h.restoreInsert hb).updateMeta 0 0 c true

theorem Mirrors.remove (h : Mirrors records a)
    {bucketId bucketOffset chunkSize : Nat}
    (hrem : bdmAllocatorRemove a bucketId bucketOffset chunkSize =
      .done (a', c)) : Mirrors records a' := by
  rw [bdmAllocatorRemove] at hrem
  split at hrem
  · cases hrem
  · dsimp only at hrem
    split at hrem
    · cases hrem
    · split at hrem
      · cases hrem
      next k d hfind =>
        split at hrem
        · rw [bdmAllocatorRemoveSameLen] at hrem
          cases hdel : rbtreeDelete (bdmAllocatorUpdateMeta (unlink a d k)
            bucketId bucketOffset d false).root d with
          | none =>
              rw [hdel] at hrem
              cases hrem
          | some t =>
              rw [hdel] at hrem
              cases hrem
              exact (Mirrors.updateMeta (a := unlink a d k) (h.of_eq rfl rfl)
                bucketId bucketOffset d false).of_eq rfl rfl
        · rw [bdmAllocatorRemoveDiffLen] at hrem
          cases hrem
          refine Mirrors.of_eq
            (a := bdmAllocatorUpdateMeta _ bucketId bucketOffset d false)
            (Mirrors.updateMeta ?_ bucketId bucketOffset d false) rfl rfl
          refine Mirrors.of_eq (a := bdmAllocatorUpdateMeta _ 0 0 _ true)
            (Mirrors.updateMeta ?_ 0 0 _ true) rfl rfl
          exact h.of_eq rfl rfl

theorem Mirrors.step {s s' : Sys} (h : Mirrors records s.alloc) {op : Op}
    (hs : step s op = some s') : Mirrors records s'.alloc := by
  cases op with
  | alloc bucketId bucketOffset chunkSize =>
      rcases step_alloc hs with rfl | ⟨a, id, hrem, rfl⟩
      · exact h
      · exact (h.remove hrem).of_eq rfl rfl
  | free chunkSize chunkId =>
      rcases step_free hs with rfl | ⟨a, hins, rfl⟩
      · exact h
      · exact (h.insert hins).of_eq rfl rfl

theorem mirrors_create {minChunkSize totalSize : Nat}
    {cells : Nat → BdmChunkIndex}
    (hcreate : bdmAllocatorCreate minChunkSize totalSize cells records =
      some a) : Mirrors records a := by
  rw [bdmAllocatorCreate] at hcreate
  split at hcreate
  · cases hcreate
  · exact Mirrors.insert (a := (emptyAllocator minChunkSize totalSize cells
      records).setCell 0 ⟨0, totalSize / minChunkSize⟩) rfl hcreate

/-! ## Scans -/

theorem chunksOf_sorted {disk : Nat → BdmChunkMeta} {p q : Nat}
    {ps : List Nat} (h : Chain (fun x => (disk x).length) p ps q) :
    ((chunksOf disk ps).map (·.id)).Pairwise (· < ·) := by
  rw [chunksOf, List.map_map]
  have hsorted : ps.Pairwise (· < ·) := by
    induction h with
    | nil => exact List.Pairwise.nil
    | @cons p q ps hpos htail ih =>
        refine List.pairwise_cons.mpr ⟨fun x hx => ?_, ih⟩
        have := (chain_bounds htail x hx).1
        change 0 < (disk p).length at hpos
        omega
  rw [List.pairwise_map]
  exact hsorted.filter _

/-- **SCAN**: in every state that the allocator reaches a scan hands out every
    held chunk once, in the order of the ids and with the length and the bucket
    of its allocation, and it comes to its end. -/
theorem reachable_scan (minChunkSize totalSize : Nat)
    (hbits : totalSize / minChunkSize < 2 ^ 21)
    (cells : Nat → BdmChunkIndex) (records : Nat → BdmChunkMeta)
    (hcreate : bdmAllocatorCreate minChunkSize totalSize cells records = some a)
    (ops : List Op) (s : Sys) (hrun : runFrom step ⟨a, []⟩ ops = some s) :
    ∃ chunks, liveChunks s.alloc = some chunks ∧ chunks.Perm s.live ∧
      (chunks.map (·.id)).Pairwise (· < ·) := by
  have hnum := create_pos hcreate
  obtain ⟨hmin, hj, hr⟩ := create_of_some hcreate
  obtain ⟨hs, ⟨ps, hd⟩, hm, hnumber⟩ : Sound (totalSize / minChunkSize) s ∧
      (∃ ps, Durable (totalSize / minChunkSize) s
        (applyWrites records s.alloc.writes) ps) ∧
      Mirrors records s.alloc ∧
      s.alloc.chunkNum = totalSize / minChunkSize := by
    refine runFrom_invariant (I := fun s =>
      Sound (totalSize / minChunkSize) s ∧
      (∃ ps, Durable (totalSize / minChunkSize) s
        (applyWrites records s.alloc.writes) ps) ∧
      Mirrors records s.alloc ∧
      s.alloc.chunkNum = totalSize / minChunkSize) ?_
      ⟨sound_create hmin hj, ⟨_, durable_create hnum hbits hj hr records⟩,
        mirrors_create hcreate, hj.chunkNum⟩ hrun
    rintro s op s' ⟨hs, ⟨ps, hd⟩, hm, hnumber⟩ hstep
    have heff := effect_of_step hs hstep
    obtain ⟨vs, hvs, -, hdur⟩ := effect_crash hs hd hbits heff
    refine ⟨sound_of_effect hs heff, ?_, hm.step hstep,
      (effect_sizes heff).1.trans hnumber⟩
    rw [hvs, applyWrites_append]
    exact hdur
  rw [← hm] at hd
  refine ⟨chunksOf s.alloc.metaAddr ps, ?_,
    hd.records.perm (List.Nodup.of_map _ hs.nodup),
    chunksOf_sorted hd.records.chain⟩
  have hchain : Chain (fun x => (s.alloc.metaAddr x).length) 0 ps
      s.alloc.chunkNum := hnumber ▸ hd.records.chain
  have hlen := chain_length hchain
  exact scanAll_spec (s.alloc.chunkNum + 1) ps { s.alloc with scanIndex := 0 }
    hchain (fun x hx => (hd.records.head x hx).1) (by omega)

theorem reachable_scan_eight : 8 / 1 < 2 ^ 21 ∧
    ∃ a s chunks, bdmAllocatorCreate 1 8 noCells noRecords = some a ∧
      runFrom step ⟨a, []⟩ mixedOps = some s ∧
      liveChunks s.alloc = some chunks ∧ chunks.Perm s.live := by
  have hrun : ((bdmAllocatorCreate 1 8 noCells noRecords).bind fun a =>
      runFrom step ⟨a, []⟩ mixedOps).isSome = true := by
    decide +kernel
  obtain ⟨s, hs⟩ := Option.isSome_iff_exists.mp hrun
  obtain ⟨a, ha, hs⟩ := Option.bind_eq_some_iff.mp hs
  obtain ⟨chunks, hscan, hperm, -⟩ :=
    reachable_scan 1 8 (by decide) noCells noRecords ha _ s hs
  exact ⟨by decide, a, s, chunks, ha, hs, hscan, hperm⟩

end UbsIo.Bdm
