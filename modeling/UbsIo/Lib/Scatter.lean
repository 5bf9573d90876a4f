import Mathlib

/-! # Gather and scatter

    A store is a function from places to values.  A transfer reads the values
    of a list of places and writes them to another list of places, one after
    the other.  The rules say what a transfer leaves in the store when the
    places written are distinct (`map_transfer`, `transfer_of_notMem`), and that
    a transfer may be made in pieces (`transfer_append`). -/

namespace UbsIo.Lib

variable {α β : Type} [DecidableEq α]

/-- Write a list of values to a list of places. -/
def scatter (m : α → β) : List α → List β → α → β
  | a :: as, b :: bs => scatter (Function.update m a b) as bs
  | _, _ => m

/-- The places that are not written keep their values. -/
theorem scatter_of_notMem {x : α} :
    ∀ (as : List α) (bs : List β) (m : α → β), x ∉ as →
      scatter m as bs x = m x := by
  intro as
  induction as with
  | nil => exact fun _ _ _ => rfl
  | cons a as ih =>
      intro bs m hx
      cases bs with
      | nil => rfl
      | cons b bs =>
          rw [scatter, ih bs _ fun h => hx (List.mem_cons_of_mem a h)]
          refine Function.update_of_ne ?_ ..
          rintro rfl
          exact hx (List.mem_cons_self ..)

/-- Distinct places have the values that were written to them. -/
theorem map_scatter :
    ∀ (as : List α) (bs : List β) (m : α → β), as.Nodup →
      as.length = bs.length → as.map (scatter m as bs) = bs := by
  intro as
  induction as with
  | nil =>
      intro bs m _ hlen
      rw [List.map_nil]
      exact (List.eq_nil_of_length_eq_zero hlen.symm).symm
  | cons a as ih =>
      intro bs m hnodup hlen
      cases bs with
      | nil => cases hlen
      | cons b bs =>
          obtain ⟨hnot, hnodup⟩ := List.nodup_cons.mp hnodup
          rw [scatter, List.map_cons, scatter_of_notMem as bs _ hnot,
            Function.update_self, ih bs _ hnodup (Nat.succ.inj hlen)]

theorem scatter_append {as' : List α} {bs' : List β} :
    ∀ (as : List α) (bs : List β) (m : α → β), as.length = bs.length →
      scatter m (as ++ as') (bs ++ bs') =
        scatter (scatter m as bs) as' bs' := by
  intro as
  induction as with
  | nil =>
      intro bs m hlen
      rw [List.eq_nil_of_length_eq_zero hlen.symm]
      rfl
  | cons a as ih =>
      intro bs m hlen
      cases bs with
      | nil => cases hlen
      | cons b bs => exact ih bs _ (Nat.succ.inj hlen)

/-- Copy the values of the places `src` to the places `dst`. -/
def transfer (m : α → β) (dst src : List α) : α → β :=
  scatter m dst (src.map m)

variable {m : α → β} {dst src dst' src' : List α}

theorem transfer_of_notMem {x : α} (h : x ∉ dst) :
    transfer m dst src x = m x :=
  scatter_of_notMem dst _ m h

/-- **TRANSFER**: the destination has what the source had. -/
theorem map_transfer (hnodup : dst.Nodup) (hlen : dst.length = src.length) :
    dst.map (transfer m dst src) = src.map m :=
  map_scatter dst _ m hnodup (by rw [hlen, List.length_map])

/-- What has been read is what was there before the first write. -/
theorem map_transfer_of_disjoint (h : ∀ x ∈ src', x ∉ dst) :
    src'.map (transfer m dst src) = src'.map m :=
  List.map_congr_left fun x hx => transfer_of_notMem (h x hx)

/-- **PIECES**: one transfer after another is one transfer, if nothing that is
    still to be read has been written. -/
theorem transfer_append (hlen : dst.length = src.length)
    (h : ∀ x ∈ src', x ∉ dst) :
    transfer m (dst ++ dst') (src ++ src') =
      transfer (transfer m dst src) dst' src' := by
  rw [transfer, List.map_append,
    scatter_append dst _ m (by rw [hlen, List.length_map]),
    ← map_transfer_of_disjoint h]
  rfl

end UbsIo.Lib
