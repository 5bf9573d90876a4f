import UbsIo.Crb.Updates

/-! # The recovering node catches up

    When the last message has arrived and all updates have been applied, the
    recovering node has the bytes of every key of the partition, unless an
    update reached it while an older item of the same key was on its way. -/

namespace UbsIo.Crb.Updates

open UbsIo.Lib UbsIo.Cache UbsIo.Message UbsIo.Server UbsIo.Crb

variable {r : Route} {s s' : Sys} {items : List PutItem} {k : Key}
  {t t' : Transfer} {m m' : Mem} {u : Pending}

/-! ## The invariant -/

/-- What is on its way for a key. -/
def itemOf (items : List PutItem) (k : Key) : Option Value :=
  (items.find? fun item => item.key = k).map fun item =>
    (item.value, item.version.toUInt32)

/-- The updates of a key that are still to be applied. -/
def updatesOf (us : List Pending) (k : Key) : List Pending :=
  us.filter fun u => u.item.key = k

/-- The stage of a key; of a key that is not one of the partition there is
    nothing anywhere. -/
def KeyGood (r : Route) (s : Sys) (items : List PutItem) (k : Key) : Prop :=
  match entryIn r s.serving k with
  | none => itemOf items k = none ∧ updatesOf s.updates k = [] ∧
      contents r.target s.recovering k = none
  | some e => Stage (Scanned r.source s.transfer.bucketIndex k) (valueOf e)
      (itemOf items k) (updatesOf s.updates k)
      (contents r.target s.recovering k)

structure Good (r : Route) (s : Sys) (items : List PutItem) : Prop where
  serving : Serving r.source s.serving
  recovering : ∃ c, Inv r.target s.recovering c
  carried : Carried r s.transfer items
  nodup : (items.map (·.key)).Nodup
  finished : s.transfer.state = .finished →
    s.transfer.bucketIndex = r.source.shards.sum
  index_le : s.transfer.bucketIndex ≤ r.source.shards.sum
  versions : ∀ k e, contents r.source s.serving k = some e →
    e.version.toNat ≤ s.ptv.toNat
  keys : ∀ k, KeyGood r s items k

theorem itemOf_eq_none :
    itemOf items k = none ↔ ∀ item ∈ items, item.key ≠ k := by
  simp [itemOf]

theorem itemOf_append (items more : List PutItem) (k : Key) :
    itemOf (items ++ more) k = (itemOf items k).or (itemOf more k) := by
  rw [itemOf, List.find?_append, itemOf, itemOf]
  cases items.find? fun item => item.key = k with
  | none => rfl
  | some item => rfl

/-- With different keys, the item of a key is the only one. -/
theorem itemOf_of_mem {item : PutItem} (h : item ∈ items)
    (hnodup : (items.map (·.key)).Nodup) :
    itemOf items item.key = some (item.value, item.version.toUInt32) := by
  induction items with
  | nil => cases h
  | cons first rest ih =>
      rw [List.map_cons, List.nodup_cons] at hnodup
      rcases List.mem_cons.mp h with rfl | h
      · simp [itemOf]
      · have hne : first.key ≠ item.key := by
          intro heq
          exact hnodup.1 (heq ▸ List.mem_map_of_mem h)
        rw [← ih h hnodup.2, itemOf, itemOf, List.find?_cons_of_neg]
        simpa using hne

theorem KeyGood.of_some (h : KeyGood r s items k) {e : Entry}
    (he : entryIn r s.serving k = some e) :
    Stage (Scanned r.source s.transfer.bucketIndex k) (valueOf e)
      (itemOf items k) (updatesOf s.updates k)
      (contents r.target s.recovering k) := by
  rw [KeyGood, he] at h
  exact h

theorem KeyGood.of_none (h : KeyGood r s items k)
    (he : entryIn r s.serving k = none) :
    itemOf items k = none ∧ updatesOf s.updates k = [] ∧
      contents r.target s.recovering k = none := by
  rw [KeyGood, he] at h
  exact h

/-- Where nothing about the key changes, neither does its stage. -/
theorem KeyGood.frame {items' : List PutItem} (h : KeyGood r s items k)
    (hentry : entryIn r s'.serving k = entryIn r s.serving k)
    (hscan : Scanned r.source s.transfer.bucketIndex k ↔
      Scanned r.source s'.transfer.bucketIndex k)
    (hitem : itemOf items' k = itemOf items k)
    (hupdates : updatesOf s'.updates k = updatesOf s.updates k)
    (hthere : contents r.target s'.recovering k =
      contents r.target s.recovering k) : KeyGood r s' items' k := by
  rw [KeyGood, hentry, hitem, hupdates, hthere]
  cases he : entryIn r s.serving k with
  | none => exact h.of_none he
  | some e => exact (h.of_some he).congr hscan

theorem entryIn_eq_some {e : Entry} :
    entryIn r m k = some e ↔
      contents r.source m k = some e ∧ e.ptId = r.taskPtId := by
  rw [entryIn, Option.filter_eq_some_iff, decide_eq_true_eq]

/-! ## Updates -/

theorem Good.publish (h : Good r s items) {ptv : UInt64} (hle : s.ptv ≤ ptv) :
    Good r { s with ptv } items where
  serving := h.serving
  recovering := h.recovering
  carried := h.carried
  nodup := h.nodup
  finished := h.finished
  index_le := h.index_le
  versions := by
    intro k e he
    exact (h.versions k e he).trans (UInt64.le_iff_toNat_le.mp hle)
  keys := fun k => (h.keys k).frame rfl Iff.rfl rfl rfl rfl

/-- **AN UPDATE IS APPLIED** at the node that serves. -/
theorem Good.update (h : Good r s items) {item : UpdateItem} {g : Grants}
    (hguard : Guard r s (.update item g))
    (hstep : sysStep r s (.update item g) = some s') : Good r s' items := by
  obtain ⟨hlt, hroom, htaken⟩ := hguard
  rw [sysStep] at hstep
  split at hstep
  rotate_left
  · cases hstep
  rename_i hcan
  obtain ⟨hversion, hthere⟩ := hcan
  obtain ⟨e, he⟩ := Option.isSome_iff_exists.mp hthere
  obtain ⟨hcon, hpt⟩ := entryIn_eq_some.mp he
  have hoff := htaken e hcon
  obtain ⟨c, hinv⟩ := h.serving.inv
  obtain ⟨m, ⟨reply, hcall⟩, hinv', hrec, hnew⟩ := update_sets hinv
    ⟨item.key, item.value, item.offset, item.version.toUInt32⟩ item.nonempty
    hroom
  simp only [updateItem, if_true, hcall, Option.bind_eq_bind,
    Option.bind_some, Option.some.injEq] at hstep
  subst hstep
  rw [hcon, updateEntry, if_neg (Nat.not_lt.mpr hoff)] at hnew
  have hcast : item.version.toUInt32.toNat = s.ptv.toNat := by
    rw [UInt64.toNat_toUInt32, Nat.mod_eq_of_lt hlt, hversion]
  refine ⟨⟨hinv', hrec.trans h.serving.notRecovering, ?_⟩, h.recovering,
    h.carried, h.nodup, h.finished, h.index_le, ?_, ?_⟩
  · refine alive_update h.serving.alive hnew ?_
    intro e' he'
    cases he'
    exact h.serving.alive _ e hcon
  · intro k e' he'
    rw [hnew] at he'
    by_cases hk : k = item.key
    · rw [hk, Function.update_self] at he'
      cases he'
      exact Nat.le_of_eq hcast
    · rw [Function.update_of_ne hk] at he'
      exact h.versions k e' he'
  · intro k
    by_cases hk : k = item.key
    · subst hk
      have hentry : entryIn r m item.key = some
          { e with
            bytes := overlay e.bytes item.offset item.value
            version := item.version.toUInt32 } := by
        refine entryIn_eq_some.mpr ⟨?_, hpt⟩
        rw [hnew, Function.update_self]
      obtain ⟨u, hu⟩ : ∃ u : Pending, u = ⟨item, decide
        (Scanned r.source s.transfer.bucketIndex item.key)⟩ := ⟨_, rfl⟩
      have hstage := ((h.keys item.key).of_some he).update (u := u)
        (by rw [hu]; exact decide_eq_true_iff)
        (by
          rw [hu, UInt32.le_iff_toNat_le]
          exact (h.versions _ e hcon).trans (Nat.le_of_eq hcast.symm))
        (by rw [hu]; exact hoff)
      have hlast : updatesOf (s.updates ++ [u]) item.key =
          updatesOf s.updates item.key ++ [u] := by
        rw [updatesOf, List.filter_append, hu]
        simp [updatesOf]
      rw [KeyGood, hentry]
      show Stage _ _ _ (updatesOf (s.updates ++ [_]) item.key) _
      rw [← hu, hlast]
      rw [hu] at hstage ⊢
      exact hstage
    · refine (h.keys k).frame ?_ Iff.rfl rfl ?_ rfl
      · rw [entryIn, hnew, Function.update_of_ne hk]
        rfl
      · rw [updatesOf, List.filter_append]
        simp [updatesOf, Ne.symm hk]

/-- **AN UPDATE ARRIVES** at the recovering node. -/
theorem Good.apply (h : Good r s items) {g : Grants}
    (hguard : Guard r s (.apply g))
    (hstep : sysStep r s (.apply g) = some s') : Good r s' items := by
  rw [sysStep] at hstep
  cases hus : s.updates with
  | nil =>
      rw [hus] at hstep
      cases hstep
  | cons u rest =>
  obtain ⟨hfree, hroom, hlate⟩ := hguard u (by rw [hus]; rfl)
  obtain ⟨c, hinv⟩ := h.recovering
  obtain ⟨m, ⟨reply, hcall⟩, hinv', -, hnew⟩ := replace_sets hinv
    ⟨u.item.key, u.item.value, u.item.offset, u.item.version.toUInt32,
      r.taskPtId⟩ u.item.nonempty hfree hroom
  simp only [hus, updateItem, Bool.false_eq_true, if_false, hcall,
    Option.bind_eq_bind, Option.bind_some, Option.some.injEq] at hstep
  subst hstep
  refine ⟨h.serving, hinv', h.carried, h.nodup, h.finished, h.index_le,
    h.versions, ?_⟩
  intro k
  by_cases hk : k = u.item.key
  · subst hk
    have hupdates : updatesOf s.updates u.item.key =
        u :: updatesOf rest u.item.key := by
      rw [hus]
      simp [updatesOf]
    have hnone : u.late = true → itemOf items u.item.key = none :=
      fun hu => itemOf_eq_none.mpr (hlate hu items h.carried)
    cases he : entryIn r s.serving u.item.key with
    | none =>
        have hempty := ((h.keys _).of_none he).2.1
        rw [hupdates] at hempty
        cases hempty
    | some e =>
        have hstage := (h.keys _).of_some he
        rw [hupdates] at hstage
        rw [KeyGood, he]
        show Stage _ _ _ _ (contents r.target m u.item.key)
        rw [hnew, Function.update_self]
        exact hstage.apply hnone r.taskPtId
  · refine (h.keys k).frame rfl Iff.rfl rfl ?_ ?_
    · rw [hus]
      simp [updatesOf, Ne.symm hk]
    · show contents r.target m k = _
      rw [hnew, Function.update_of_ne hk]

/-! ## The transfer -/

theorem scan_some {behind : Bytes → Bytes}
    (h : t.scan r behind m = some t') :
    t.state = .running ∧ t.bucketIndex < r.source.shards.sum := by
  by_contra hnot
  rw [Transfer.scan, if_neg hnot] at h
  cases h

theorem finish_some (h : t.finish r = some t') :
    t.state = .running ∧ t.bucketIndex = r.source.shards.sum := by
  by_contra hnot
  rw [Transfer.finish, if_neg hnot] at h
  cases h

/-- **A BUCKET IS READ**, or the task ends. -/
theorem Good.scan (h : Good r s items) {behind : Bytes → Bytes}
    (hguard : Guard r s (.scan behind))
    (hstep : sysStep r s (.scan behind) = some s') :
    s'.transfer.state = .stopped ∨ ∃ items', Good r s' items' := by
  rw [sysStep, Option.map_eq_some_iff] at hstep
  obtain ⟨t, hscan, rfl⟩ := hstep
  obtain ⟨hstate, hlt⟩ := scan_some hscan
  obtain ⟨t', more, hscan', hread, hcases⟩ :=
    Transfer.scan_spec h.serving h.carried hstate hlt behind hguard
  cases hscan.symm.trans hscan'
  rcases hcases with ⟨hstop, -⟩ | ⟨hrun, hindex, hcarried, -⟩
  · exact Or.inl hstop
  right
  -- a key of the bucket has not been read before
  have hnew : ∀ k, InBucket r.source s.transfer.bucketIndex k →
      ¬ Scanned r.source s.transfer.bucketIndex k := by
    rintro k hk ⟨i, hi, hik⟩
    have heq := inBucket_unique (hi.trans hlt) hlt hik hk
    omega
  have hscanned : ∀ k, ¬ InBucket r.source s.transfer.bucketIndex k →
      (Scanned r.source s.transfer.bucketIndex k ↔
        Scanned r.source t.bucketIndex k) := by
    intro k hk
    rw [hindex, scanned_succ]
    exact (or_iff_left hk).symm
  refine ⟨items ++ more, h.serving, h.recovering, hcarried, ?_, ?_, ?_,
    h.versions, ?_⟩
  · rw [List.map_append, List.nodup_append]
    refine ⟨h.nodup, hread.nodup, ?_⟩
    intro k hk k' hk' heq
    subst heq
    obtain ⟨item, hitem, rfl⟩ := List.mem_map.mp hk
    obtain ⟨item', hitem', hkey⟩ := List.mem_map.mp hk'
    obtain ⟨e, hcon, hpt, hin, -⟩ := (hread.mem item').mp hitem'
    rw [hkey] at hcon hin
    have hstage := (h.keys item.key).of_some
      (entryIn_eq_some.mpr ⟨hcon, hpt⟩)
    rw [itemOf_of_mem hitem h.nodup] at hstage
    cases hstage with
    | carried hscan => exact hnew _ hin hscan
  · intro hfin
    cases hrun.symm.trans hfin
  · show t.bucketIndex ≤ _
    rw [hindex]
    exact hlt
  · intro k
    by_cases hmore : ∃ item ∈ more, item.key = k
    · obtain ⟨item, hitem, rfl⟩ := hmore
      obtain ⟨e, hcon, hpt, hin, hvalue, hversion⟩ :=
        (hread.mem item).mp hitem
      have he := entryIn_eq_some.mpr ⟨hcon, hpt⟩
      have hstage := (h.keys item.key).of_some he
      have hsnap : itemOf items item.key = none := by
        cases hitemOf : itemOf items item.key with
        | none => rfl
        | some x =>
            rw [hitemOf] at hstage
            cases hstage with
            | carried hscan => exact absurd hscan (hnew _ hin)
      have hitemValue : itemOf (items ++ more) item.key =
          some (valueOf e) := by
        rw [itemOf_append, hsnap, Option.none_or,
          itemOf_of_mem hitem hread.nodup, hvalue, hversion, valueOf,
          UInt32.toUInt32_toUInt64]
      rw [KeyGood, show entryIn r _ item.key = some e from he, hitemValue]
      refine hstage.read (hnew _ hin) ?_
      show Scanned r.source t.bucketIndex item.key
      rw [hindex, scanned_succ]
      exact Or.inr hin
    · have hnone : itemOf more k = none :=
        itemOf_eq_none.mpr fun item hitem hkey => hmore ⟨item, hitem, hkey⟩
      have hitem : itemOf (items ++ more) k = itemOf items k := by
        rw [itemOf_append, hnone, Option.or_none]
      cases he : entryIn r s.serving k with
      | none =>
          rw [KeyGood, show entryIn r _ k = none from he, hitem]
          exact (h.keys k).of_none he
      | some e =>
          refine (h.keys k).frame rfl (hscanned k ?_) hitem rfl rfl
          -- an entry of the bucket would be among the items
          intro hin
          obtain ⟨hcon, hpt⟩ := entryIn_eq_some.mp he
          obtain ⟨c, hinv⟩ := h.serving.inv
          have hbytes := bytes_ne_nil hinv hcon
            (h.serving.alive k e hcon)
          exact hmore ⟨⟨k, e.bytes, e.version.toUInt64,
            List.length_pos_of_ne_nil hbytes⟩,
            (hread.mem _).mpr ⟨e, hcon, hpt, hin, rfl, rfl⟩, rfl⟩

theorem Good.finish (h : Good r s items)
    (hstep : sysStep r s .finish = some s') : Good r s' items := by
  rw [sysStep, Option.map_eq_some_iff] at hstep
  obtain ⟨t, hfinish, rfl⟩ := hstep
  obtain ⟨hstate, hall⟩ := finish_some hfinish
  obtain ⟨t', msg, hfinish', -, hindex, -, hcarried⟩ :=
    Transfer.finish_spec h.carried hstate hall
  cases hfinish.symm.trans hfinish'
  refine ⟨h.serving, h.recovering, hcarried, h.nodup, ?_, ?_, h.versions, ?_⟩
  · exact fun _ => hindex.trans hall
  · show t.bucketIndex ≤ _
    rw [hindex]
    exact h.index_le
  · intro k
    refine (h.keys k).frame rfl ?_ rfl rfl rfl
    show _ ↔ Scanned r.source t.bucketIndex k
    rw [hindex]

/-- **A MESSAGE ARRIVES**, or the task ends. -/
theorem Good.deliver (h : Good r s items) {grants : PutItem → Grants}
    (hstep : sysStep r s (.deliver grants) = some s') :
    s'.transfer.state = .stopped ∨ ∃ items', Good r s' items' := by
  rw [sysStep, Option.map_eq_some_iff] at hstep
  obtain ⟨⟨t, m⟩, hdeliver, rfl⟩ := hstep
  have hsent : s.transfer.sender.sent ≠ [] := by
    intro hnil
    rw [Transfer.deliver, hnil] at hdeliver
    cases hdeliver
  obtain ⟨c, hinv⟩ := h.recovering
  obtain ⟨t', m', front, back, hdeliver', hinv', -, rfl, hcases⟩ :=
    Transfer.deliver_spec hinv h.carried hsent grants
  cases hdeliver.symm.trans hdeliver'
  rcases hcases with hstop | ⟨hstate, hindex, -, hcarried, hcon⟩
  · exact Or.inl hstop
  right
  have hnodup := h.nodup
  rw [List.map_append, List.nodup_append] at hnodup
  obtain ⟨hfront, hback, hapart⟩ := hnodup
  obtain ⟨hhere, hothers⟩ :=
    foldl_putReplaced r.taskPtId front
      (contents r.target s.recovering) hfront
  refine ⟨back, h.serving, hinv', hcarried, hback, ?_, ?_, h.versions, ?_⟩
  · intro hfin
    exact hindex.trans (h.finished (hstate.symm.trans hfin))
  · show t.bucketIndex ≤ _
    rw [hindex]
    exact h.index_le
  · intro k
    have hscan : Scanned r.source s.transfer.bucketIndex k ↔
        Scanned r.source t.bucketIndex k := by
      rw [hindex]
    by_cases hin : ∃ item ∈ front, item.key = k
    · obtain ⟨item, hitem, rfl⟩ := hin
      have hsnap : itemOf (front ++ back) item.key =
          some (item.value, item.version.toUInt32) := by
        rw [itemOf_append, itemOf_of_mem hitem hfront, Option.some_or]
      have hgone : itemOf back item.key = none := by
        refine itemOf_eq_none.mpr fun x hx heq => ?_
        exact hapart _ (List.mem_map_of_mem hitem) _ (List.mem_map_of_mem hx)
          heq.symm
      cases he : entryIn r s.serving item.key with
      | none =>
          have hnone := ((h.keys _).of_none he).1
          rw [hsnap] at hnone
          cases hnone
      | some e =>
          have hstage := (h.keys _).of_some he
          rw [hsnap] at hstage
          rw [KeyGood, show entryIn r _ item.key = some e from he, hgone]
          show Stage _ _ _ _ (contents r.target m item.key)
          rw [hcon, hhere item hitem]
          exact (hstage.arrive r.taskPtId).congr hscan
    · have hnone : itemOf front k = none :=
        itemOf_eq_none.mpr fun item hitem hkey => hin ⟨item, hitem, hkey⟩
      refine (h.keys k).frame rfl hscan ?_ rfl ?_
      · rw [itemOf_append, hnone, Option.none_or]
      · show contents r.target m k = _
        rw [hcon, hothers k fun item hitem hkey => hin ⟨item, hitem, hkey⟩]

/-! ## Runs -/

/-- **CAUGHT UP**: at the end each key of the partition has the same bytes at
    both nodes, and the second has no other key. -/
theorem Good.done (h : Good r s items) (hdone : Done s) (k : Key) :
    bytesOf r.target s.recovering k =
      (entryIn r s.serving k).map (·.bytes) := by
  obtain rfl := h.carried.eq_nil (by rw [hdone.finished]; decide)
    hdone.arrived
  have hscan : Scanned r.source s.transfer.bucketIndex k := by
    rw [h.finished hdone.finished]
    exact scanned_all r.source k
  cases he : entryIn r s.serving k with
  | none =>
      rw [bytesOf, ((h.keys k).of_none he).2.2, Option.map_none]
  | some e =>
      have hstage := (h.keys k).of_some he
      rw [hdone.applied] at hstage
      obtain ⟨e', hthere, -, hvalue⟩ := Stage.done hstage hscan
      rw [bytesOf, hthere]
      exact congrArg some (congrArg Prod.fst hvalue)

end UbsIo.Crb.Updates
