import UbsIo.Message.RoundTrip

/-! # What the encoders hand over

    An encoder that does not refuse an item hands over finished blocks only,
    also when it has got no more blocks: they hold a beginning of the list, in
    order, and none of them is empty. -/

namespace UbsIo.Message

open UbsIo.Lib UbsIo.Cache

variable {c : Config} {kind : Kind} {supply : Nat → Option (RawBlock c)}

/-- Finished blocks with the first items of a list, all of them where the code
    is `MMS_OK`. -/
structure Handed (c : Config) (kind : Kind) (fs : List Fields)
    (out : Encoded) (ls : List (List Slot)) : Prop where
  blocks : List.Forall₂ (Finished c kind) out.ctxItems ls
  nonempty : ∀ l ∈ ls, l ≠ []
  first : ls.flatten.map Slot.fields <+: fs
  all : out.ret = .ok → ls.flatten.map Slot.fields = fs

/-- No result is stored yet. -/
def Slot.Fresh (s : Slot) : Prop := s.result = code .max

/-- The encoder stops at an item that is larger than a block, or hands over
    finished blocks without results. -/
theorem encodeLoop_handed : ∀ (fs : List Fields) {s : EncodeBufferState}
    {l : List Slot} {ctxItems : List IOCtxItem} {done : List (List Slot)}
    {asked : Nat} {out : Encoded}, Building c kind s l →
    s.offset ≤ c.ioCtxBuffLen →
    List.Forall₂ (Finished c kind) ctxItems done → (∀ x ∈ done, x ≠ []) →
    (fs = [] → l ≠ []) → (∀ s ∈ done.flatten ++ l, s.Fresh) →
    (∀ f ∈ fs, f.Sound kind) →
    encodeLoop c kind supply s ctxItems asked fs = some out →
    out.ret = .invalidParam ∨
      ∃ ls, Handed c kind ((done.flatten ++ l).map Slot.fields ++ fs) out ls ∧
        ∀ s ∈ ls.flatten, s.Fresh := by
  intro fs
  induction fs with
  | nil =>
      intro s l ctxItems done asked out h hfit hdone hne hl hfresh _ hrun
      obtain ⟨item, hitem, -, hfin⟩ := finishRequestBlock_eq h hfit
      rw [encodeLoop] at hrun
      simp only [hitem, Option.bind_eq_bind, Option.bind_some] at hrun
      cases hrun
      have hall : (done ++ [l]).flatten.map Slot.fields
          = (done.flatten ++ l).map Slot.fields ++ [] := by
        rw [List.flatten_append, List.flatten_singleton, List.append_nil]
      refine .inr ⟨done ++ [l], ⟨?_, ?_, ?_, fun _ => hall⟩, ?_⟩
      · exact List.rel_append hdone (.cons hfin .nil)
      · intro x hx
        rcases List.mem_append.mp hx with hx | hx
        · exact hne x hx
        · rw [List.mem_singleton.mp hx]
          exact hl rfl
      · rw [hall]
      · rw [List.flatten_append, List.flatten_singleton]
        exact hfresh
  | cons f fs ih =>
      intro s l ctxItems done asked out h hfit hdone hne hl hfresh hsound hrun
      have hf := hsound f (List.mem_cons_self ..)
      have hfs := fun x hx => hsound x (List.mem_cons_of_mem _ hx)
      rw [encodeLoop] at hrun
      by_cases hlarge : TooLarge c kind f
      · rw [if_pos hlarge] at hrun
        cases hrun
        exact .inl rfl
      rw [if_neg hlarge] at hrun
      have hone := fits_of_not_tooLarge hf hlarge
      by_cases hover : s.offset + f.len > c.ioCtxBuffLen
      · rw [if_pos hover] at hrun
        obtain ⟨item, hitem, -, hfin⟩ := finishRequestBlock_eq h hfit
        have hdone' := List.rel_append hdone
          (List.Forall₂.cons hfin List.Forall₂.nil)
        -- an empty block would have had room
        have hfilled : l ≠ [] := by
          rintro rfl
          have hoff : s.offset = ioDataRequestLen := h.offset
          omega
        have hne' : ∀ x ∈ done ++ [l], x ≠ [] := by
          intro x hx
          rcases List.mem_append.mp hx with hx | hx
          · exact hne x hx
          · rw [List.mem_singleton.mp hx]
            exact hfilled
        have hflat : (done ++ [l]).flatten = done.flatten ++ l := by
          rw [List.flatten_append, List.flatten_singleton]
        simp only [hitem, Option.bind_eq_bind, Option.bind_some] at hrun
        cases hb : supply asked with
        | none =>
            simp only [hb] at hrun
            cases hrun
            refine .inr ⟨done ++ [l], ⟨hdone', hne', ?_, ?_⟩, ?_⟩
            · rw [hflat]
              exact List.prefix_append ..
            · intro hret
              cases hret
            · rw [hflat]
              exact hfresh
        | some b =>
            obtain ⟨s', hs', -, hstart⟩ := startBlock_eq kind b
            have hoff : s'.offset = ioDataRequestLen := hstart.offset
            obtain ⟨buff, x, hcall, hxf, hxr, hbuild⟩ :=
              encodeSingleKV_building hstart hf (by rw [hoff]; exact hone)
            have hfresh' : ∀ s ∈ (done ++ [l]).flatten ++ ([] ++ [x]),
                s.Fresh := by
              intro y hy
              rw [hflat] at hy
              rcases List.mem_append.mp hy with hy | hy
              · exact hfresh y hy
              · rw [List.mem_singleton.mp hy]
                exact hxr
            simp only [hb, hs', hcall, Option.bind_some] at hrun
            have hrest := ih hbuild
              (by show s'.offset + f.len ≤ _; rw [hoff]; exact hone) hdone'
              hne' (fun _ => List.cons_ne_nil x []) hfresh' hfs hrun
            rw [hflat, List.map_append, List.nil_append, List.map_singleton,
              hxf, List.append_assoc, List.singleton_append] at hrest
            exact hrest
      · rw [if_neg hover] at hrun
        obtain ⟨buff, x, hcall, hxf, hxr, hbuild⟩ :=
          encodeSingleKV_building h hf (Nat.not_lt.mp hover)
        have hfresh' : ∀ s ∈ done.flatten ++ (l ++ [x]), s.Fresh := by
          intro y hy
          rw [← List.append_assoc] at hy
          rcases List.mem_append.mp hy with hy | hy
          · exact hfresh y hy
          · rw [List.mem_singleton.mp hy]
            exact hxr
        simp only [hcall, Option.bind_eq_bind, Option.bind_some] at hrun
        have hrest := ih hbuild (Nat.not_lt.mp hover) hdone hne
          (fun _ => List.append_ne_nil_of_right_ne_nil l
            (List.cons_ne_nil x [])) hfresh' hfs hrun
        rw [← List.append_assoc, List.map_append, List.map_singleton, hxf,
          List.append_assoc, List.singleton_append] at hrest
        exact hrest

/-- **HANDED OVER**: unless an item is refused, an encoder hands over finished
    blocks with the first items of the list, and no result is stored in
    them. -/
theorem encodeRequest_fresh {fs : List Fields} {out : Encoded}
    (hsound : ∀ f ∈ fs, f.Sound kind) (hne : fs ≠ [])
    (hrun : encodeRequest c kind supply fs = some out)
    (hret : out.ret ≠ .invalidParam) :
    ∃ ls, Handed c kind fs out ls ∧ ∀ s ∈ ls.flatten, s.Fresh := by
  rw [encodeRequest] at hrun
  cases hb : supply 0 with
  | none =>
      simp only [hb] at hrun
      cases hrun
      refine ⟨[], ⟨.nil, ?_, List.nil_prefix, ?_⟩, ?_⟩
      · intro l hl
        cases hl
      · intro hok
        cases hok
      · intro s hs
        cases hs
  | some b =>
      obtain ⟨s, hs, -, hstart⟩ := startBlock_eq kind b
      have hoff : s.offset = ioDataRequestLen := hstart.offset
      have hfit : s.offset ≤ c.ioCtxBuffLen := by
        have hge := c.buffLen_ge
        rw [hoff, ioDataRequestLen]
        omega
      simp only [hb, hs, Option.bind_eq_bind, Option.bind_some] at hrun
      obtain hbad | ⟨ls, hls⟩ := encodeLoop_handed fs hstart hfit
        List.Forall₂.nil (fun x hx => by cases hx)
        (fun hnil => absurd hnil hne) (fun x hx => by cases hx) hsound hrun
      · exact absurd hbad hret
      · exact ⟨ls, hls⟩

end UbsIo.Message
