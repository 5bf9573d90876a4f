import UbsIo.Buddy.Invariant

/-! # What each call of the buddy pool does

    The loops of `AllocUnlocked` and `FreeUnlocked` are sequences of the moves
    of the invariant; `Start` builds the free chunks from the left, each as
    large as its place allows.  A call never touches the headers of the blocks
    that users hold. -/

namespace UbsIo.Buddy

open UbsIo.Lib

variable {p p' : BuddyNumaMemoryPool} {u k e : Nat} {b : Block}
  {held : List Block} {ls : Nat → List Nat}

@[simp] theorem orderUnits_eq (order : Nat) : orderUnits order = 2 ^ order :=
  Nat.one_shiftLeft order

/-- What no call changes. -/
structure Same (p p' : BuddyNumaMemoryPool) : Prop where
  numaId : p'.mNumaId = p.mNumaId
  unitCount : p'.mUnitCount = p.mUnitCount
  maxOrder : p'.mMaxOrder = p.mMaxOrder

theorem Same.refl (p : BuddyNumaMemoryPool) : Same p p := ⟨rfl, rfl, rfl⟩

theorem Same.trans {p q r : BuddyNumaMemoryPool} (h₁ : Same p q)
    (h₂ : Same q r) : Same p r :=
  ⟨h₂.numaId.trans h₁.numaId, h₂.unitCount.trans h₁.unitCount,
    h₂.maxOrder.trans h₁.maxOrder⟩

theorem same_addFreeChunk (p : BuddyNumaMemoryPool) (u k : Nat) :
    Same p (addFreeChunkUnlocked p u k) := ⟨rfl, rfl, rfl⟩

theorem same_detach (p : BuddyNumaMemoryPool) (u k : Nat) :
    Same p (detach p u k) := ⟨rfl, rfl, rfl⟩

/-- A held block does not start inside another one. -/
theorem Inv.unit_out (h : Inv e p (b :: held) ls) {c : Block} (hc : c ∈ held) :
    ¬ b.seg.Has c.unit := by
  have hap := h.tiles.apart
  rw [List.map_append, List.map_cons] at hap
  obtain ⟨-, hheld, -⟩ := List.pairwise_append.mp hap
  intro hb
  exact (List.pairwise_cons.mp hheld).1 _ (List.mem_map_of_mem hc) c.unit
    ⟨hb, c.has_unit⟩

theorem Inv.unit_ne (h : Inv e p (b :: held) ls) {c : Block} (hc : c ∈ held) :
    c.unit ≠ b.unit := by
  intro heq
  exact h.unit_out hc (heq ▸ b.has_unit)

/-! ## Alloc -/

theorem buddy_of_even (h : 2 ^ (k + 1) ∣ u) :
    (⟨u, k⟩ : Block).buddy = u + 2 ^ k := by
  rcases Block.buddy_eq (Block.aligned_of_succ h) with ⟨-, heq⟩ | ⟨hdvd, heq⟩
  · exact heq
  · -- two neighbours are not both even
    have hdvd' : 2 ^ (k + 1) ∣ 2 ^ k :=
      (Nat.dvd_add_right hdvd).mp (heq ▸ h)
    have := Nat.le_of_dvd (Nat.two_pow_pos k) hdvd'
    rw [Nat.pow_succ] at this
    have := Nat.two_pow_pos k
    omega

/-- A held block is cut in two. -/
theorem Inv.cut (h : Inv e p (⟨u, k + 1⟩ :: held) ls) :
    Inv e p (⟨u + 2 ^ k, k⟩ :: ⟨u, k⟩ :: held) ls := by
  obtain ⟨hal, hord⟩ := h.aligned _ (Or.inr (List.mem_cons_self ..))
  change k + 1 ≤ p.mMaxOrder at hord
  have hu : (⟨u, k⟩ : Block).Aligned := Block.aligned_of_succ hal
  refine h.held_congr ?_ ?_
  · intro b hb
    simp only [List.mem_cons] at hb
    rcases hb with rfl | rfl | hb
    · exact ⟨Dvd.dvd.add hu (dvd_refl _), Nat.le_of_succ_le hord⟩
    · exact ⟨hu, Nat.le_of_succ_le hord⟩
    · exact h.aligned b (Or.inr (List.mem_cons_of_mem _ hb))
  · intro x
    have hcut := coverNum_cut u (2 ^ k) (2 ^ k) x
    rw [← Nat.mul_two, ← Nat.pow_succ] at hcut
    simp only [List.map_cons, Block.seg]
    rw [coverNum_cons, coverNum_cons ⟨u, 2 ^ k⟩,
      coverNum_cons ⟨u, 2 ^ (k + 1)⟩, hcut]
    omega

/-- The splitting leaves a block of the order that is asked for. -/
theorem splitLoop_spec : ∀ (d : Nat) (p : BuddyNumaMemoryPool)
    (ls : Nat → List Nat), Inv e p (⟨u, k + d⟩ :: held) ls →
    ∃ ls', Inv e (splitLoop u k d p) (⟨u, k⟩ :: held) ls' ∧
      Same p (splitLoop u k d p) ∧
      ∀ b ∈ held, (splitLoop u k d p).header b.unit = p.header b.unit := by
  intro d
  induction d with
  | zero => intro p ls h; exact ⟨ls, h, Same.refl p, fun _ _ => rfl⟩
  | succ d ih =>
      intro p ls h
      have hcut := h.cut (k := k + d)
      have hal := (h.aligned _ (Or.inr (List.mem_cons_self ..))).1
      have hself : (⟨u, k + d⟩ : Block) ∈
          (⟨u + 2 ^ (k + d), k + d⟩ :: ⟨u, k + d⟩ :: held : List Block) := by
        simp
      have hbuddy : (⟨u + 2 ^ (k + d), k + d⟩ : Block).buddy = u := by
        rw [← buddy_of_even (u := u) (k := k + d) hal]
        exact Block.buddy_buddy ⟨u, k + d⟩
      have hput := hcut.attach (by
        rw [hbuddy]
        rintro ⟨hf, -⟩
        rw [hcut.not_free hself (Block.has_unit ⟨u, k + d⟩)] at hf
        exact nomatch hf)
      obtain ⟨ls', hinv, hsame, hhead⟩ := ih _ _ hput
      rw [splitLoop, orderUnits_eq]
      refine ⟨ls', hinv, (same_addFreeChunk ..).trans hsame, ?_⟩
      intro b hb
      rw [hhead b hb]
      exact Function.update_of_ne
        (hcut.unit_ne (List.mem_cons_of_mem _ hb)) _ _

/-- The search finds a free chunk of the least order that has one. -/
theorem popLoop_spec (h : Inv e p held ls) : ∀ (fuel cur : Nat),
    (popLoop p fuel cur = none ∧
      ∀ j, cur ≤ j → j < cur + fuel → p.mFreeHeads j = none) ∨
    ∃ u d, popLoop p fuel cur = some (detach p u (cur + d), u, cur + d) ∧
      IsFree p ⟨u, cur + d⟩ := by
  intro fuel
  induction fuel with
  | zero =>
      intro cur
      exact Or.inl ⟨rfl, fun j h₁ h₂ => absurd h₂ (by omega)⟩
  | succ fuel ih =>
      intro cur
      rw [popLoop]
      rcases h.popFreeChunkUnlocked_eq cur with ⟨hpop, hnone⟩ | ⟨u, hpop, hf⟩
      · rw [hpop]
        rcases ih (cur + 1) with ⟨hrest, hall⟩ | ⟨u, d, hrest, hf⟩
        · refine Or.inl ⟨hrest, ?_⟩
          intro j h₁ h₂
          rcases Nat.eq_or_lt_of_le h₁ with rfl | h₁
          · exact hnone
          · exact hall j h₁ (by omega)
        · rw [show cur + 1 + d = cur + (d + 1) by omega] at hrest hf
          exact Or.inr ⟨u, d + 1, hrest, hf⟩
      · rw [hpop]
        exact Or.inr ⟨u, 0, rfl, hf⟩

/-- **ALLOCATION** of one block: it fails only when no chunk is large enough,
    and otherwise the block is held. -/
theorem allocUnlocked_spec (h : Inv e p held ls) (order : Nat) :
    (allocUnlocked p order = none ∧
      ∀ j, order ≤ j → j ≤ p.mMaxOrder → p.mFreeHeads j = none) ∨
    ∃ p' u ls', allocUnlocked p order = some (p', u) ∧
      Inv e p' (⟨u, order⟩ :: held) ls' ∧ Same p p' ∧
      (p'.header u).order = order ∧ (p'.header u).numaId = p.mNumaId ∧
      ∀ b ∈ held, p'.header b.unit = p.header b.unit := by
  rw [allocUnlocked]
  rcases popLoop_spec h (p.mMaxOrder + 1 - order) order with
    ⟨hpop, hall⟩ | ⟨u, d, hpop, hf⟩
  · refine Or.inl ⟨by rw [hpop]; rfl, ?_⟩
    intro j h₁ h₂
    exact hall j h₁ (by omega)
  · right
    obtain ⟨ls', hinv, hsame, hhead⟩ := splitLoop_spec d _ _ (h.detach hf)
    rw [hpop, Option.map_some, Nat.add_sub_cancel_left]
    have hself : Function.update
        (splitLoop u order d (detach p u (order + d))).header u
        (headerOf (splitLoop u order d (detach p u (order + d))) order) u =
          headerOf _ order := Function.update_self ..
    refine ⟨_, u, ls', rfl, ?_, ⟨hsame.numaId, hsame.unitCount,
      hsame.maxOrder⟩, ?_, ?_, ?_⟩
    · exact ⟨hinv.extent, hinv.linked, hinv.nodup, hinv.mem, hinv.bound,
        hinv.aligned, hinv.tiles, hinv.lone⟩
    · exact congrArg BlockHeader.order hself
    · exact (congrArg BlockHeader.numaId hself).trans hsame.numaId
    · intro b hb
      refine (Function.update_of_ne (hinv.unit_ne hb) _ _).trans ?_
      rw [hhead b hb]
      rfl

/-! ## Free -/

/-- A held block and its held buddy are joined. -/
theorem Inv.join (h : Inv e p (⟨b.buddy, b.order⟩ :: b :: held) ls)
    (hlt : b.order < p.mMaxOrder) : Inv e p (b.parent :: held) ls := by
  have hal := (h.aligned b (Or.inr (by simp))).1
  refine h.held_congr ?_ ?_
  · intro c hc
    rcases List.mem_cons.mp hc with rfl | hc
    · exact ⟨(Block.parent_eq hal).1, hlt⟩
    · exact h.aligned c (Or.inr (by simp [hc]))
  · intro x
    have hparent := Block.parent_has (x := x) hal
    have hap := h.tiles.apart
    rw [List.map_append, List.map_cons, List.map_cons] at hap
    obtain ⟨-, hheld, -⟩ := List.pairwise_append.mp hap
    have hboth := (List.pairwise_cons.mp hheld).1 b.seg
      (List.mem_cons_self ..) x
    rw [List.map_cons, List.map_cons, List.map_cons, coverNum_cons,
      coverNum_cons (Block.seg ⟨b.buddy, b.order⟩), coverNum_cons b.seg,
      coverNum_singleton, coverNum_singleton, coverNum_singleton]
    split_ifs <;> first | omega | tauto

/-- A buddy of the largest order does not fit into the pool. -/
theorem Inv.no_buddy_max (h : Inv e p (b :: held) ls)
    (hmax : e < 2 ^ (p.mMaxOrder + 1)) (hle : p.mMaxOrder ≤ b.order) :
    ¬ IsFree p ⟨b.buddy, b.order⟩ := by
  intro hf
  obtain ⟨hal, hord⟩ := h.aligned b (Or.inr (List.mem_cons_self ..))
  have h₁ := h.le (Or.inr (List.mem_cons_self ..))
  have h₂ := h.le (Or.inl hf)
  change b.buddy + 2 ^ b.order ≤ e at h₂
  rw [Nat.pow_succ, ← Nat.le_antisymm hord hle] at hmax
  rcases Block.buddy_eq hal with ⟨-, heq⟩ | ⟨-, heq⟩ <;> omega

/-- The merging ends with a block whose buddy is not free. -/
theorem mergeLoop_spec : ∀ (fuel : Nat) (p : BuddyNumaMemoryPool) (u k : Nat)
    (ls : Nat → List Nat), Inv p.mUnitCount p (⟨u, k⟩ :: held) ls →
    p.mUnitCount < 2 ^ (p.mMaxOrder + 1) → fuel = p.mMaxOrder - k →
    ∃ p' b ls', mergeLoop fuel p u k = (p', b.unit, b.order) ∧
      Inv p'.mUnitCount p' (b :: held) ls' ∧ Same p p' ∧
      ¬ IsFree p' ⟨b.buddy, b.order⟩ ∧ p'.header = p.header := by
  intro fuel
  induction fuel with
  | zero =>
      intro p u k ls h hmax hfuel
      refine ⟨p, ⟨u, k⟩, ls, rfl, h, Same.refl p, ?_, rfl⟩
      exact h.no_buddy_max hmax (Nat.sub_eq_zero_iff_le.mp hfuel.symm)
  | succ fuel ih =>
      intro p u k ls h hmax hfuel
      have hk : k < p.mMaxOrder := by omega
      rw [mergeLoop, orderUnits_eq,
        show u ^^^ 2 ^ k = (⟨u, k⟩ : Block).buddy from rfl]
      by_cases hend : (⟨u, k⟩ : Block).buddy + 2 ^ k > p.mUnitCount
      · rw [if_pos hend]
        refine ⟨p, ⟨u, k⟩, ls, rfl, h, Same.refl p, ?_, rfl⟩
        intro hf
        have := h.le (Or.inl hf)
        change (⟨u, k⟩ : Block).buddy + 2 ^ k ≤ p.mUnitCount at this
        omega
      · rw [if_neg hend]
        rcases removeFreeChunkUnlocked_eq (p := p)
          (u := (⟨u, k⟩ : Block).buddy) (k := k) with ⟨hrem, hf⟩ | ⟨hrem, hf⟩
        · rw [hrem]
          exact ⟨p, ⟨u, k⟩, ls, rfl, h, Same.refl p, hf, rfl⟩
        · rw [hrem]
          obtain ⟨p', b, ls', hloop, hinv, hsame, hlone, hhead⟩ :=
            ih (detach p (⟨u, k⟩ : Block).buddy k) _ _ _
              ((h.detach hf).join (b := ⟨u, k⟩) hk) hmax
              (show fuel = p.mMaxOrder - (k + 1) by omega)
          exact ⟨p', b, ls', hloop, hinv, (same_detach ..).trans hsame,
            hlone, hhead⟩

/-- **FREEING** a held block. -/
theorem freeUnlocked_spec (h : Inv p.mUnitCount p (b :: held) ls)
    (hmax : p.mUnitCount < 2 ^ (p.mMaxOrder + 1))
    (hhead : (p.header b.unit).order = b.order) :
    ∃ ls', Inv p.mUnitCount (freeUnlocked p b.unit) held ls' ∧
      Same p (freeUnlocked p b.unit) ∧
      ∀ c ∈ held, (freeUnlocked p b.unit).header c.unit = p.header c.unit := by
  obtain ⟨p', c, ls', hloop, hinv, hsame, hlone, hkeep⟩ :=
    mergeLoop_spec (p.mMaxOrder - b.order) p b.unit b.order ls h hmax rfl
  rw [freeUnlocked, hhead, hloop]
  have hput := Inv.attach (u := c.unit) (k := c.order) hinv hlone
  rw [hsame.unitCount] at hput
  refine ⟨_, hput, hsame.trans (same_addFreeChunk ..), ?_⟩
  intro d hd
  refine (Function.update_of_ne (hinv.unit_ne hd) _ _).trans ?_
  rw [hkeep]

/-! ## Start -/

theorem maxOrderLoop_spec : ∀ (fuel units : Nat), 0 < units →
    units < 2 ^ fuel → 2 ^ maxOrderLoop fuel units ≤ units ∧
      units < 2 ^ (maxOrderLoop fuel units + 1) := by
  intro fuel
  induction fuel with
  | zero => intro units hpos hlt; omega
  | succ fuel ih =>
      intro units hpos hlt
      rw [maxOrderLoop]
      by_cases hone : units > 1
      · rw [if_pos hone, Nat.shiftRight_one]
        rw [Nat.pow_succ] at hlt
        obtain ⟨h₁, h₂⟩ := ih (units / 2) (by omega) (by omega)
        rw [Nat.pow_succ, Nat.pow_succ]
        rw [Nat.pow_succ] at h₂
        constructor <;> omega
      · rw [if_neg hone]
        have : units = 1 := by omega
        subst this
        decide

/-- The next chunk is as large as its place allows. -/
theorem chunkOrderLoop_spec (unitIndex remainUnits : Nat) :
    ∀ (fuel order : Nat), 2 ^ order ≤ remainUnits → 2 ^ order ∣ unitIndex →
    ∃ k, chunkOrderLoop unitIndex remainUnits fuel order = k ∧
      order ≤ k ∧ k ≤ order + fuel ∧
      2 ^ k ≤ remainUnits ∧ 2 ^ k ∣ unitIndex ∧
      (k = order + fuel ∨
        ¬ (2 ^ (k + 1) ∣ unitIndex ∧ 2 ^ (k + 1) ≤ remainUnits)) := by
  intro fuel
  induction fuel with
  | zero =>
      intro order hle hdvd
      exact ⟨order, rfl, le_refl _, le_refl _, hle, hdvd, Or.inl rfl⟩
  | succ fuel ih =>
      intro order hle hdvd
      have hshift : orderUnits order <<< 1 = 2 ^ (order + 1) := by
        rw [orderUnits_eq, Nat.shiftLeft_eq, Nat.pow_one, Nat.pow_succ]
      rw [chunkOrderLoop, hshift, Nat.and_two_pow_sub_one_eq_mod]
      by_cases hgrow : 2 ^ (order + 1) ≤ remainUnits ∧
          unitIndex % 2 ^ (order + 1) = 0
      · rw [if_pos hgrow]
        obtain ⟨k, hk, h₁, h₂, h₃, h₄, h₅⟩ :=
          ih (order + 1) hgrow.1 (Nat.dvd_of_mod_eq_zero hgrow.2)
        refine ⟨k, hk, by omega, by omega, h₃, h₄, ?_⟩
        rcases h₅ with h₅ | h₅
        · exact Or.inl (by omega)
        · exact Or.inr h₅
      · rw [if_neg hgrow]
        refine ⟨order, rfl, le_refl _, by omega, hle, hdvd, Or.inr ?_⟩
        rintro ⟨hd, hr⟩
        exact hgrow ⟨hr, Nat.mod_eq_zero_of_dvd hd⟩

/-- More of the pool is taken into use, as a held block. -/
theorem Inv.grow (h : Inv e p held ls) (hle : e + 2 ^ k ≤ p.mUnitCount)
    (hal : 2 ^ k ∣ e) (hk : k ≤ p.mMaxOrder) :
    Inv (e + 2 ^ k) p (⟨e, k⟩ :: held) ls := by
  refine { h with
    extent := hle
    aligned := ?_
    tiles := h.tiles.extend ?_ }
  · intro b hb
    rcases hb with hb | hb
    · exact h.aligned b (Or.inl hb)
    · rcases List.mem_cons.mp hb with rfl | hb
      · exact ⟨hal, hk⟩
      · exact h.aligned b (Or.inr hb)
  · intro x
    rw [List.map_append, List.map_append, coverNum_append, coverNum_append,
      List.map_cons, coverNum_cons]
    show _ + (coverNum [⟨e, 2 ^ k⟩] x + _) = _
    omega

/-- A chunk that cannot be larger where it is. -/
def Full (n : Nat) (b : Block) : Prop :=
  ¬ (2 ^ (b.order + 1) ∣ b.unit ∧ b.unit + 2 ^ (b.order + 1) ≤ n)

/-- No chunk before a place is the buddy of the next one. -/
theorem Inv.no_buddy_before (h : Inv e p held ls)
    (hfull : ∀ b, IsFree p b → Full p.mUnitCount b)
    (hal : 2 ^ k ∣ e) (hle : e + 2 ^ k ≤ p.mUnitCount) :
    ¬ IsFree p ⟨(⟨e, k⟩ : Block).buddy, k⟩ := by
  intro hf
  have hbefore := h.le (Or.inl hf)
  change (⟨e, k⟩ : Block).buddy + 2 ^ k ≤ e at hbefore
  have hpos := Nat.two_pow_pos k
  rcases Block.buddy_eq (b := ⟨e, k⟩) hal with ⟨-, heq⟩ | ⟨hdvd, heq⟩
  · change (⟨e, k⟩ : Block).buddy = e + 2 ^ k at heq
    omega
  · refine hfull _ hf ⟨hdvd, ?_⟩
    change e = (⟨e, k⟩ : Block).buddy + 2 ^ k at heq
    show (⟨e, k⟩ : Block).buddy + 2 ^ (k + 1) ≤ p.mUnitCount
    rw [Nat.pow_succ]
    omega

theorem startLoop_spec : ∀ (fuel : Nat) (p : BuddyNumaMemoryPool)
    (unitIndex remainUnits : Nat) (ls : Nat → List Nat),
    Inv unitIndex p [] ls → unitIndex + remainUnits = p.mUnitCount →
    p.mUnitCount < 2 ^ (p.mMaxOrder + 1) →
    (∀ b, IsFree p b → Full p.mUnitCount b) → remainUnits < fuel →
    ∃ p' ls', startLoop fuel p unitIndex remainUnits = some p' ∧
      Inv p.mUnitCount p' [] ls' ∧ Same p p' := by
  intro fuel
  induction fuel with
  | zero => intro p u r ls _ _ _ _ hfuel; exact absurd hfuel (Nat.not_lt_zero _)
  | succ fuel ih =>
      intro p unitIndex remainUnits ls h hsum hmax hfull hfuel
      rw [startLoop]
      by_cases hpos : remainUnits > 0
      · rw [if_pos hpos]
        obtain ⟨k, hk, -, hle, hfit, hal, hstop⟩ :=
          chunkOrderLoop_spec unitIndex remainUnits p.mMaxOrder 0 hpos
            (one_dvd _)
        rw [Nat.zero_add] at hle hstop
        have hlek : unitIndex + 2 ^ k ≤ p.mUnitCount := by omega
        dsimp only
        rw [hk, orderUnits_eq]
        have hput := Inv.attach (h.grow hlek hal hle)
          (h.no_buddy_before hfull hal hlek)
        have hpow := Nat.two_pow_pos k
        obtain ⟨p', ls', hrun, hinv, hsame⟩ := ih
          (addFreeChunkUnlocked p unitIndex k) (unitIndex + 2 ^ k)
          (remainUnits - 2 ^ k) _ hput
          (show unitIndex + 2 ^ k + (remainUnits - 2 ^ k) = p.mUnitCount by omega)
          hmax
          (by
            intro b hb
            rcases isFree_addFreeChunk.mp hb with rfl | ⟨hb, -⟩
            · rintro ⟨hdvd, hend⟩
              change unitIndex + 2 ^ (k + 1) ≤ p.mUnitCount at hend
              rcases hstop with rfl | hstop
              · omega
              · exact hstop ⟨hdvd, by omega⟩
            · exact hfull b hb)
          (by omega)
        exact ⟨p', ls', hrun, hinv, (same_addFreeChunk ..).trans hsame⟩
      · rw [if_neg hpos]
        have hall : unitIndex = p.mUnitCount := by omega
        exact ⟨p, ls, rfl, hall ▸ h, Same.refl p⟩

/-- **START**: the pool begins with all of its units in free chunks. -/
theorem start_spec {size baseBlockSize : Nat} (numaId : Nat)
    (hbase : sizeofBuddyBlockNode ≤ baseBlockSize) (hsize : size < 2 ^ 64)
    (hcount : 1 ≤ size / (baseBlockSize + sizeofBlockHeader))
    (header : Nat → BlockHeader) (node : Links Nat) :
    ∃ p ls, start numaId size baseBlockSize header node = .ok p ∧
      p.mUnitCount = size / (baseBlockSize + sizeofBlockHeader) ∧
      Inv p.mUnitCount p [] ls ∧ 2 ^ p.mMaxOrder ≤ p.mUnitCount ∧
      p.mUnitCount < 2 ^ (p.mMaxOrder + 1) := by
  have hdiv := Nat.div_le_self size (baseBlockSize + sizeofBlockHeader)
  have hbig : baseBlockSize + sizeofBlockHeader ≤ size := by
    by_contra hlt
    rw [Nat.div_eq_of_lt (by omega)] at hcount
    omega
  have hmax := maxOrderLoop_spec 64
    (size / (baseBlockSize + sizeofBlockHeader)) hcount (by omega)
  rw [sizeofBuddyBlockNode] at hbase
  rw [start, if_neg (by rw [sizeofBuddyBlockNode]; omega)]
  dsimp only
  rw [if_neg (by omega)]
  generalize size / (baseBlockSize + sizeofBlockHeader) = n at *
  generalize hp : BuddyNumaMemoryPool.mk numaId
    (baseBlockSize + sizeofBlockHeader) n (maxOrderLoop 64 n) (fun _ => none)
    (fun _ => 0) (fun _ => false) header node = p
  have hn : p.mUnitCount = n := by rw [← hp]
  have ho : p.mMaxOrder = maxOrderLoop 64 n := by rw [← hp]
  have hfree : ∀ b, ¬ IsFree p b := by
    rintro b ⟨hf, -⟩
    rw [← hp] at hf
    exact nomatch hf
  have hempty : Inv 0 p [] fun _ => [] := by
    refine ⟨Nat.zero_le _, ?_, fun _ => List.nodup_nil, ?_, ?_, ?_, ?_, ?_⟩
    · intro k
      rw [← hp]
      rfl
    · intro k u
      exact iff_of_false List.not_mem_nil (hfree _)
    · intro u hu
      exact absurd (show IsFree p ⟨u, p.mOrders u⟩ from ⟨hu, rfl⟩) (hfree _)
    · rintro b (hb | hb)
      · exact absurd hb (hfree b)
      · exact absurd hb List.not_mem_nil
    · have hnone : freeChunks p = [] := by
        refine List.eq_nil_iff_forall_not_mem.mpr ?_
        intro b hb
        exact hfree b (mem_freeChunks.mp hb).2
      rw [hnone, tiles_iff]
      intro x
      rfl
    · intro b hb
      exact absurd hb (hfree b)
  obtain ⟨p', ls, hrun, hinv, hsame⟩ := startLoop_spec (n + 1) p 0 n _ hempty
    (by omega) (by rw [hn, ho]; exact hmax.2)
    (fun b hb => absurd hb (hfree b)) (by omega)
  rw [← hsame.unitCount] at hinv
  refine ⟨p', ls, by rw [hrun], hsame.unitCount.trans hn, hinv, ?_⟩
  rw [hsame.unitCount, hsame.maxOrder, hn, ho]
  exact hmax

end UbsIo.Buddy
