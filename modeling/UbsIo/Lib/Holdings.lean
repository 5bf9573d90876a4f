import Mathlib

/-! # What threads hold together

    A thread holds a list of things, and all but finitely many threads hold
    none.  `Holdings f l` says that `l` lists all that is held, each as often
    as it is held; when a thread gets or gives something, it is enough to look
    at that thread (`Holdings.update`). -/

namespace UbsIo.Lib

variable {ι α : Type}

/-- `l` lists what the threads hold. -/
def Holdings (f : ι → List α) (l : List α) : Prop :=
  ∃ ts : List ι, ts.Nodup ∧ (∀ t, t ∉ ts → f t = []) ∧ l.Perm (ts.flatMap f)

theorem holdings_nil : Holdings (fun _ : ι => ([] : List α)) [] :=
  ⟨[], List.nodup_nil, fun _ _ => rfl, .refl _⟩

theorem Holdings.eq_nil {f : ι → List α} {l : List α} (h : Holdings f l)
    (hnone : ∀ t, f t = []) : l = [] := by
  obtain ⟨ts, -, -, hperm⟩ := h
  have hempty : ts.flatMap f = [] :=
    List.flatMap_eq_nil_iff.mpr fun t _ => hnone t
  rw [hempty] at hperm
  exact hperm.eq_nil

/-- One of the listed threads holds something else. -/
theorem flatMap_update [DecidableEq ι] {ts : List ι} {t : ι} (hn : ts.Nodup)
    (ht : t ∈ ts) (f : ι → List α) :
    ∃ rest, (ts.flatMap f).Perm (f t ++ rest) ∧
      ∀ x, (ts.flatMap (Function.update f t x)).Perm (x ++ rest) := by
  have hsplit := List.perm_cons_erase ht
  refine ⟨(ts.erase t).flatMap f, hsplit.flatMap_right f, ?_⟩
  intro x
  have hsame : (ts.erase t).flatMap (Function.update f t x) =
      (ts.erase t).flatMap f := by
    refine List.flatMap_congr fun u hu => ?_
    exact Function.update_of_ne (ne_of_mem_of_not_mem hu hn.not_mem_erase) ..
  have hupd := hsplit.flatMap_right (Function.update f t x)
  rw [List.flatMap_cons, Function.update_self, hsame] at hupd
  exact hupd

/-- **ONE THREAD**: what a thread holds is a part of the whole, and the rest
    stays when the thread holds something else. -/
theorem Holdings.update [DecidableEq ι] {f : ι → List α} {l : List α}
    (h : Holdings f l) (t : ι) :
    ∃ rest, l.Perm (f t ++ rest) ∧
      ∀ x, Holdings (Function.update f t x) (x ++ rest) := by
  obtain ⟨ts, hnodup, hnone, hperm⟩ := h
  -- the thread can be taken to be one of the list
  obtain ⟨us, hmem, hus, hothers, hlist⟩ : ∃ us : List ι, t ∈ us ∧ us.Nodup ∧
      (∀ u, u ∉ us → f u = []) ∧ l.Perm (us.flatMap f) := by
    by_cases ht : t ∈ ts
    · exact ⟨ts, ht, hnodup, hnone, hperm⟩
    · refine ⟨t :: ts, List.mem_cons_self, List.nodup_cons.mpr ⟨ht, hnodup⟩,
        fun u hu => hnone u fun h => hu (List.mem_cons_of_mem _ h), ?_⟩
      rw [List.flatMap_cons, hnone t ht, List.nil_append]
      exact hperm
  obtain ⟨rest, hrest, hupd⟩ := flatMap_update hus hmem f
  refine ⟨rest, hlist.trans hrest, fun x => ⟨us, hus, ?_, (hupd x).symm⟩⟩
  intro u hu
  rw [Function.update_of_ne (ne_of_mem_of_not_mem hmem hu).symm]
  exact hothers u hu

end UbsIo.Lib
