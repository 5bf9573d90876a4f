import UbsIo.Lib.Level

/-! # Work lists

    A work list holds one element for each of a fixed set of keys and is kept
    sorted by weight.  `WorkList` says that the weights are those of a table
    `f`.  Taking an element out and putting it back with another weight updates
    the table at its key. -/

namespace UbsIo.Lib

variable {α κ : Type} {key : α → κ} {w : α → Int} {keys : List κ}
  {f g : κ → Int} {l : List α}

/-- The list holds the keys, weighted by `f` and sorted. -/
structure WorkList (key : α → κ) (w : α → Int) (keys : List κ) (f : κ → Int)
    (l : List α) : Prop where
  perm : (l.map key).Perm keys
  weight : ∀ x ∈ l, w x = f (key x)
  sorted : SortedBy w l

namespace WorkList

theorem mem_keys (h : WorkList key w keys f l) {x : α} (hx : x ∈ l) :
    key x ∈ keys :=
  h.perm.mem_iff.mp (List.mem_map_of_mem hx)

/-- Every key has its element. -/
theorem exists_mem (h : WorkList key w keys f l) {k : κ} (hk : k ∈ keys) :
    ∃ x ∈ l, key x = k :=
  List.mem_map.mp (h.perm.mem_iff.mpr hk)

/-- Only the table's entries at the keys matter. -/
theorem congr (h : WorkList key w keys f l) (hfg : ∀ k ∈ keys, f k = g k) :
    WorkList key w keys g l :=
  ⟨h.perm, fun x hx => (h.weight x hx).trans (hfg _ (h.mem_keys hx)),
    h.sorted⟩

/-- No element is heavier than the last. -/
theorem le_last (h : WorkList key w keys f l) {y : α}
    (hy : l.getLast? = some y) {x : α} (hx : x ∈ l) : w x ≤ w y := by
  obtain ⟨l', rfl⟩ := List.getLast?_eq_some_iff.mp hy
  rcases List.mem_append.mp hx with hx | hx
  · exact (List.pairwise_append.mp h.sorted).2.2 x hx y
      (List.mem_singleton.mpr rfl)
  · rw [List.mem_singleton.mp hx]

/-- No element is lighter than the first. -/
theorem head_le (h : WorkList key w keys f l) {y : α}
    (hy : l.head? = some y) {x : α} (hx : x ∈ l) : w y ≤ w x := by
  obtain ⟨l', rfl⟩ := List.head?_eq_some_iff.mp hy
  rcases List.mem_cons.mp hx with rfl | hx
  · exact Int.le_refl _
  · exact (List.pairwise_cons.mp h.sorted).1 x hx

/-- **REWEIGH**: an element is taken out and put back with another weight. -/
theorem reweigh [DecidableEq κ] {l₁ l₂ : List α} {x x' : α}
    (h : WorkList key w keys f (l₁ ++ x :: l₂)) (hnd : keys.Nodup)
    (hk : key x' = key x) :
    WorkList key w keys (Function.update f (key x) (w x'))
      (insertAfter w x' (l₁ ++ l₂)) := by
  have hperm : ((x :: (l₁ ++ l₂)).map key).Perm keys :=
    (List.perm_middle.map key).symm.trans h.perm
  have hne : ∀ y ∈ l₁ ++ l₂, key y ≠ key x := by
    intro y hy heq
    have hnd' := hperm.nodup_iff.mpr hnd
    rw [List.map_cons, List.nodup_cons] at hnd'
    exact hnd'.1 (heq ▸ List.mem_map_of_mem hy)
  refine ⟨?_, ?_, ?_⟩
  · refine ((insertAfter_perm w x' (l₁ ++ l₂)).map key).trans ?_
    rw [List.map_cons, hk, ← List.map_cons]
    exact hperm
  · intro y hy
    rcases mem_insertAfter.mp hy with rfl | hy
    · rw [hk, Function.update_self]
    · rw [Function.update_of_ne (hne y hy)]
      exact h.weight y (List.perm_middle.mem_iff.mpr
        (List.mem_cons_of_mem x hy))
  · refine SortedBy.insertAfter ?_ x'
    exact List.Pairwise.sublist
      (List.Sublist.append_left (List.sublist_cons_self x l₂) l₁) h.sorted

/-- A key that is not in the list may be reweighed at will. -/
theorem update_of_notMem [DecidableEq κ] (h : WorkList key w keys f l)
    {k : κ} (hk : k ∉ keys) (v : Int) :
    WorkList key w keys (Function.update f k v) l :=
  h.congr fun k' hk' => by
    have hne : k' ≠ k := fun heq => hk (heq ▸ hk')
    rw [Function.update_of_ne hne]

/-- A list without weights. -/
theorem start (hp : (l.map key).Perm keys) (hw : ∀ x ∈ l, w x = 0) :
    WorkList key w keys (fun _ => 0) l where
  perm := hp
  weight := hw
  sorted := (level_of_eq hw).sorted

end WorkList

end UbsIo.Lib
