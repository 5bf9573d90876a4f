import UbsIo.Lib.Cover

/-! # Aligned blocks of a power of two

    A block of order `k` is `2 ^ k` units from a multiple of `2 ^ k` on.  Two
    blocks are nested or apart (`Block.nested`), and a block of order `k` and
    its buddy, whose start differs in one bit, make up a block of order
    `k + 1`.  From this: in a set of blocks that are apart and of which no two
    are buddies, every block that the set covers lies inside one member
    (`exists_member_of_covered`), and two such sets that cover the same units
    are equal (`maximal_unique`). -/

namespace UbsIo.Lib

@[ext]
structure Block where
  unit : Nat
  order : Nat
deriving DecidableEq, Repr

namespace Block

def seg (b : Block) : Seg := ⟨b.unit, 2 ^ b.order⟩

def Aligned (b : Block) : Prop := 2 ^ b.order ∣ b.unit

/-- Where the buddy of a block starts. -/
def buddy (b : Block) : Nat := b.unit ^^^ 2 ^ b.order

/-- The block and its buddy together. -/
def parent (b : Block) : Block := ⟨min b.unit b.buddy, b.order + 1⟩

theorem seg_pos (b : Block) : 0 < b.seg.length := Nat.two_pow_pos b.order

theorem has_unit (b : Block) : b.seg.Has b.unit := Seg.has_start b.seg_pos

variable {b c : Block} {x : Nat}

/-- The buddy is the block after an even one, and before an odd one. -/
theorem buddy_eq (h : b.Aligned) :
    (2 ^ (b.order + 1) ∣ b.unit ∧ b.buddy = b.unit + 2 ^ b.order) ∨
    (2 ^ (b.order + 1) ∣ b.buddy ∧ b.unit = b.buddy + 2 ^ b.order) := by
  obtain ⟨q, hq⟩ := h
  have hxor : b.buddy = 2 ^ b.order * (q ^^^ 1) := by
    have h := Nat.shiftLeft_xor_distrib (a := q) (b := 1) (i := b.order)
    simp only [Nat.shiftLeft_eq, Nat.one_mul] at h
    rw [buddy, hq, Nat.mul_comm (2 ^ b.order) q, ← h, Nat.mul_comm]
  rw [hxor, hq, Nat.pow_succ]
  rcases Nat.even_or_odd q with he | ho
  · left
    refine ⟨Nat.mul_dvd_mul_left _ he.two_dvd, ?_⟩
    rw [Nat.xor_one_of_even he, Nat.mul_add, Nat.mul_one]
  · right
    obtain ⟨r, hr⟩ := ho
    have hpred : q ^^^ 1 = 2 * r := by
      rw [Nat.xor_one_of_odd ⟨r, hr⟩, hr, Nat.add_sub_cancel]
    rw [hpred]
    refine ⟨Nat.mul_dvd_mul_left _ (Nat.dvd_mul_right 2 r), ?_⟩
    rw [hr, Nat.mul_add, Nat.mul_one]

theorem buddy_buddy (b : Block) : (⟨b.buddy, b.order⟩ : Block).buddy = b.unit := by
  rw [buddy, buddy, Nat.xor_assoc, Nat.xor_self, Nat.xor_zero]

theorem buddy_ne (b : Block) : b.buddy ≠ b.unit := by
  intro h
  have hzero : 2 ^ b.order = b.unit ^^^ b.buddy := by
    rw [buddy, ← Nat.xor_assoc, Nat.xor_self, Nat.zero_xor]
  rw [h, Nat.xor_self] at hzero
  exact absurd hzero (Nat.two_pow_pos b.order).ne'

theorem aligned_of_succ {u k : Nat} (h : 2 ^ (k + 1) ∣ u) :
    (⟨u, k⟩ : Block).Aligned := (pow_dvd_pow 2 (Nat.le_succ k)).trans h

theorem aligned_buddy (h : b.Aligned) :
    (⟨b.buddy, b.order⟩ : Block).Aligned := by
  rcases buddy_eq h with ⟨-, heq⟩ | ⟨hdvd, -⟩
  · show 2 ^ b.order ∣ b.buddy
    rw [heq]
    exact h.add (dvd_refl _)
  · exact aligned_of_succ hdvd

theorem parent_eq (h : b.Aligned) :
    b.parent.Aligned ∧
    ((b.parent.unit = b.unit ∧ b.buddy = b.unit + 2 ^ b.order) ∨
     (b.parent.unit = b.buddy ∧ b.unit = b.buddy + 2 ^ b.order)) := by
  have hpos := Nat.two_pow_pos b.order
  rcases buddy_eq h with ⟨hdvd, heq⟩ | ⟨hdvd, heq⟩
  · have hmin : min b.unit b.buddy = b.unit := by omega
    refine ⟨?_, Or.inl ⟨hmin, heq⟩⟩
    rw [parent, hmin]
    exact hdvd
  · have hmin : min b.unit b.buddy = b.buddy := by omega
    refine ⟨?_, Or.inr ⟨hmin, heq⟩⟩
    rw [parent, hmin]
    exact hdvd

/-- A block and its buddy make up the parent. -/
theorem parent_has (h : b.Aligned) : b.parent.seg.Has x ↔
    b.seg.Has x ∨ (⟨b.buddy, b.order⟩ : Block).seg.Has x := by
  have hpow : 2 ^ (b.order + 1) = 2 ^ b.order + 2 ^ b.order := by
    rw [Nat.pow_succ, Nat.mul_two]
  have hparent := (parent_eq h).2
  simp only [Seg.Has, seg]
  rw [show b.parent.order = b.order + 1 from rfl, hpow]
  omega

/-- **NESTED OR APART**: a block that shares a unit with one of at least its
    order lies inside it. -/
theorem nested (hb : b.Aligned) (hc : c.Aligned) (hle : b.order ≤ c.order)
    (hbx : b.seg.Has x) (hcx : c.seg.Has x) :
    c.unit ≤ b.unit ∧ b.unit + 2 ^ b.order ≤ c.unit + 2 ^ c.order := by
  have hpow : 2 ^ b.order ∣ 2 ^ c.order := pow_dvd_pow 2 hle
  have hcb : 2 ^ b.order ∣ c.unit := hpow.trans hc
  simp only [Seg.Has, seg] at hbx hcx
  constructor
  · -- both are multiples, so they differ by a whole block
    by_contra hlt
    have hdvd : 2 ^ b.order ∣ c.unit - b.unit := Nat.dvd_sub hcb hb
    have := Nat.le_of_dvd (by omega) hdvd
    omega
  · by_contra hlt
    have hdvd : 2 ^ b.order ∣ c.unit + 2 ^ c.order - b.unit :=
      Nat.dvd_sub (hcb.add hpow) hb
    have := Nat.le_of_dvd (by omega) hdvd
    omega

/-- Two blocks of one order that share a unit are the same. -/
theorem eq_of_has (hb : b.Aligned) (hc : c.Aligned) (ho : b.order = c.order)
    (hbx : b.seg.Has x) (hcx : c.seg.Has x) : b = c := by
  have h₁ := (nested hb hc (le_of_eq ho) hbx hcx).1
  have h₂ := (nested hc hb (le_of_eq ho.symm) hcx hbx).1
  ext
  · exact Nat.le_antisymm h₂ h₁
  · exact ho

end Block

/-- A set of blocks that are apart and cannot be merged. -/
structure Maximal (F : Block → Prop) : Prop where
  aligned : ∀ b, F b → b.Aligned
  apart : ∀ b c x, F b → F c → b.seg.Has x → c.seg.Has x → b = c
  lone : ∀ b, F b → ¬ F ⟨b.buddy, b.order⟩

/-- The unit is in a block of the set. -/
def Covers (F : Block → Prop) (x : Nat) : Prop := ∃ b, F b ∧ b.seg.Has x

/-- **MERGED COMPLETELY**: a block that a maximal set covers lies inside one
    of its members. -/
theorem exists_member_of_covered {F : Block → Prop} (hF : Maximal F)
    {t : Block} (ht : t.Aligned) (hcov : ∀ x, t.seg.Has x → Covers F x) :
    ∃ b, F b ∧ ∀ x, t.seg.Has x → b.seg.Has x := by
  classical
  -- a member of least order among those that meet the block
  have hmeet : ∃ k b x, F b ∧ b.order = k ∧ b.seg.Has x ∧ t.seg.Has x := by
    obtain ⟨b, hb, hx⟩ := hcov t.unit t.has_unit
    exact ⟨b.order, b, t.unit, hb, rfl, hx, t.has_unit⟩
  obtain ⟨b, x, hb, hk, hbx, htx⟩ := Nat.find_spec hmeet
  have hleast : ∀ c y, F c → c.seg.Has y → t.seg.Has y →
      b.order ≤ c.order := by
    intro c y hc hcy hty
    rw [hk]
    exact Nat.find_min' hmeet ⟨c, y, hc, rfl, hcy, hty⟩
  have hbal := hF.aligned b hb
  by_cases hle : t.order ≤ b.order
  · have hin := Block.nested ht hbal hle htx hbx
    refine ⟨b, hb, ?_⟩
    intro y hy
    simp only [Seg.Has, Block.seg] at hy ⊢
    omega
  -- otherwise its buddy is in the block too, and must be a member
  exfalso
  have hpal := (Block.parent_eq hbal).1
  have hpx : b.parent.seg.Has x := (Block.parent_has hbal).mpr (Or.inl hbx)
  have hpar := Block.nested hpal ht (show b.order + 1 ≤ t.order by omega)
    hpx htx
  have hbud : b.parent.seg.Has b.buddy :=
    (Block.parent_has hbal).mpr (Or.inr (Block.has_unit ⟨b.buddy, b.order⟩))
  have htb : t.seg.Has b.buddy := by
    simp only [Seg.Has, Block.seg] at hbud ⊢
    omega
  obtain ⟨c, hc, hcb⟩ := hcov _ htb
  have hcal := hF.aligned c hc
  have hge := hleast c _ hc hcb htb
  rcases Nat.eq_or_lt_of_le hge with heq | hlt
  · have : (⟨b.buddy, b.order⟩ : Block) = c :=
      Block.eq_of_has (Block.aligned_buddy hbal) hcal heq
        (Block.has_unit ⟨b.buddy, b.order⟩) hcb
    exact hF.lone b hb (this ▸ hc)
  · -- a larger member there would contain the smaller one
    have hin := Block.nested hpal hcal (show b.order + 1 ≤ c.order from hlt)
      hbud hcb
    have hcu : c.seg.Has x := by
      simp only [Seg.Has, Block.seg] at hpx ⊢
      omega
    have := hF.apart b c x hb hc hbx hcu
    rw [this] at hlt
    exact lt_irrefl _ hlt

/-- **UNIQUENESS**: what a maximal set covers determines it. -/
theorem maximal_unique {F G : Block → Prop} (hF : Maximal F) (hG : Maximal G)
    (hcov : ∀ x, Covers F x ↔ Covers G x) : ∀ b, F b → G b := by
  intro b hb
  obtain ⟨c, hc, hbc⟩ := exists_member_of_covered hG (hF.aligned b hb)
    fun x hx => (hcov x).mp ⟨b, hb, hx⟩
  obtain ⟨d, hd, hcd⟩ := exists_member_of_covered hF (hG.aligned c hc)
    fun x hx => (hcov x).mpr ⟨c, hc, hx⟩
  have hcu := hbc _ b.has_unit
  have hbd : b = d := hF.apart b d b.unit hb hd b.has_unit (hcd _ hcu)
  have hbc' : b = c := by
    subst hbd
    have h₁ := hbc _ (Seg.has_last b.seg_pos)
    have h₂ := hcd _ (Seg.has_last c.seg_pos)
    have h₃ := hcd _ c.has_unit
    have hlen : 2 ^ b.order = 2 ^ c.order := by
      have := b.seg_pos
      have := c.seg_pos
      simp only [Seg.Has, Block.seg] at *
      omega
    exact Block.eq_of_has (hF.aligned b hb) (hG.aligned c hc)
      (Nat.pow_right_injective (le_refl 2) hlen) b.has_unit hcu
  exact hbc' ▸ hc

end UbsIo.Lib
