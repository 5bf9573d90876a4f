import UbsIo.Fixed.Model

/-! # The blocks the areas are carved into

    `carved options` lists the blocks with the area and the size class they
    belong to, in the order `InitFixedMemPools` visits them.  Blocks and their
    headers lie apart from each other and inside the areas
    (`carved_apart`, `carved_inside`), and after `Initialize` every header
    says what its block is, and the lists of the pools are the carved blocks
    (`initializeFixed_spec`). -/

namespace UbsIo.Fixed

open UbsIo.Lib
open UbsIo.Buddy (BlockHeader sizeofBlockHeader)
open UbsIo.Allocator (maxNumasNum)

/-- A block: its address, its area and its size class. -/
structure Block where
  addr : Nat
  numaId : Nat
  index : Nat
  size : Nat
deriving DecidableEq, Repr

/-- The lists of an area's pool are named by area and size class. -/
def Block.place (x : Block) : Nat × Nat := (x.numaId, x.index)

/-- Two blocks share no byte, nor do their headers. -/
def Apart (x y : Block) : Prop :=
  x.addr + x.size + sizeofBlockHeader ≤ y.addr ∨
    y.addr + y.size + sizeofBlockHeader ≤ x.addr

/-- A block and its header lie between two addresses. -/
def Within (lo hi : Nat) (x : Block) : Prop :=
  lo + sizeofBlockHeader ≤ x.addr ∧ x.addr + x.size ≤ hi

/-- The blocks of one area, from a size class on. -/
def areaBlocks (numa : Numa) : List (Nat × Nat) → Nat → Nat → List Block
  | [], _, _ => []
  | b :: bs, index, offset =>
      (classBlocks numa offset b).map (⟨·, numa.id, index, b.2⟩) ++
        areaBlocks numa bs (index + 1) (offset + blockSizeRate numa b.1)

/-- The blocks of all areas. -/
def carved (options : MemAllocOptions) : List Block :=
  options.numas.flatMap fun numa => areaBlocks numa options.blocks 0 0

/-- What a configuration has to be like: the areas are different places of
    the arrays and share no byte, the products of `InitMemNumaPool` are
    `uint64_t`, the rates are tenths of one whole, the sizes grow and a block
    has room for a `BlockNode`, and the map visits every pool once. -/
structure Admitted (options : MemAllocOptions) (order : List Nat) : Prop where
  ids : (options.numas.map (·.id)).Nodup
  some : options.numas ≠ []
  small : ∀ x ∈ options.numas, x.id < maxNumasNum
  apart : options.numas.Pairwise fun x y =>
    x.address + x.size ≤ y.address ∨ y.address + y.size ≤ x.address
  bits : ∀ x ∈ options.numas, x.size * 10 < 2 ^ 64
  few : options.blocks.length ≤ maxBlockNum
  rates : (options.blocks.map (·.1)).sum ≤ 10
  sizes : options.blocks.Pairwise fun b c => b.2 < c.2
  node : ∀ b ∈ options.blocks, sizeofBlockNode ≤ b.2
  order : order.Perm (options.numas.map (·.id))

variable {options : MemAllocOptions} {order : List Nat} {numa : Numa}
  {x y : Block} {lo hi n i b : Nat}

theorem Apart.symm (h : Apart x y) : Apart y x := Or.symm h

/-- Blocks between different bounds are apart. -/
theorem Within.apart {m k : Nat} (hx : Within lo m x) (hy : Within k hi y)
    (hle : m ≤ k) : Apart x y :=
  Or.inl ((Nat.add_le_add_right (hx.2.trans hle) _).trans hy.1)

theorem Within.mono {lo' hi' : Nat} (h : Within lo hi x) (hlo : lo' ≤ lo)
    (hhi : hi ≤ hi') : Within lo' hi' x :=
  ⟨(Nat.add_le_add_right hlo _).trans h.1, h.2.trans hhi⟩

/-! ## One size class -/

/-- The blocks of a class fill the room they are given. -/
theorem classBlocks_within {offset : Nat} {c : Nat × Nat}
    (hb : b ∈ classBlocks numa offset c) :
    Within (numa.address + offset)
      (numa.address + (offset + blockSizeRate numa c.1)) ⟨b, n, i, c.2⟩ := by
  obtain ⟨k, hk, rfl⟩ := List.mem_map.mp hb
  have hlt := List.mem_range.mp hk
  have hroom : (k + 1) * (c.2 + sizeofBlockHeader) ≤ blockSizeRate numa c.1 :=
    (Nat.mul_le_mul_right _ hlt).trans (Nat.div_mul_le_self ..)
  rw [Nat.succ_mul] at hroom
  constructor
  · show numa.address + offset + sizeofBlockHeader ≤
      numa.address + offset + k * (c.2 + sizeofBlockHeader) + sizeofBlockHeader
    omega
  · show numa.address + offset + k * (c.2 + sizeofBlockHeader) +
      sizeofBlockHeader + c.2 ≤ numa.address + (offset + blockSizeRate numa c.1)
    omega

theorem classBlocks_apart {offset : Nat} {c : Nat × Nat} :
    (classBlocks numa offset c).Pairwise fun b d =>
      Apart ⟨b, n, i, c.2⟩ ⟨d, n, i, c.2⟩ := by
  refine List.pairwise_map.mpr (List.pairwise_lt_range.imp ?_)
  intro k l hlt
  have hstep := Nat.mul_le_mul_right (c.2 + sizeofBlockHeader) hlt
  rw [Nat.succ_mul] at hstep
  refine Or.inl ?_
  show numa.address + offset + k * (c.2 + sizeofBlockHeader) +
    sizeofBlockHeader + c.2 + sizeofBlockHeader ≤
    numa.address + offset + l * (c.2 + sizeofBlockHeader) + sizeofBlockHeader
  omega

/-! ## One area -/

/-- The room of the size classes from one on. -/
def ratesOf (numa : Numa) (bs : List (Nat × Nat)) : Nat :=
  (bs.map fun b => blockSizeRate numa b.1).sum

theorem mem_areaBlocks {bs : List (Nat × Nat)} {index offset : Nat}
    (hx : x ∈ areaBlocks numa bs index offset) :
    x.numaId = numa.id ∧ index ≤ x.index ∧
      bs[x.index - index]?.map (·.2) = some x.size ∧
      Within (numa.address + offset)
        (numa.address + (offset + ratesOf numa bs)) x := by
  induction bs generalizing index offset with
  | nil => cases hx
  | cons c bs ih =>
      rw [areaBlocks, List.mem_append] at hx
      have hrates : ratesOf numa (c :: bs) =
          blockSizeRate numa c.1 + ratesOf numa bs := List.sum_cons
      rcases hx with hx | hx
      · obtain ⟨b, hb, rfl⟩ := List.mem_map.mp hx
        refine ⟨rfl, le_rfl, ?_, (classBlocks_within hb).mono le_rfl ?_⟩
        · simp
        · omega
      · obtain ⟨hnuma, hle, hsize, hin⟩ := ih hx
        refine ⟨hnuma, by omega, ?_, hin.mono (by omega) (by omega)⟩
        rw [show x.index - index = (x.index - (index + 1)) + 1 by omega,
          List.getElem?_cons_succ]
        exact hsize

theorem areaBlocks_apart : ∀ (bs : List (Nat × Nat)) (index offset : Nat),
    (areaBlocks numa bs index offset).Pairwise Apart := by
  intro bs
  induction bs with
  | nil => exact fun _ _ => .nil
  | cons c bs ih =>
      intro index offset
      rw [areaBlocks, List.pairwise_append]
      refine ⟨List.pairwise_map.mpr classBlocks_apart, ih _ _, ?_⟩
      intro x hx y hy
      obtain ⟨b, hb, rfl⟩ := List.mem_map.mp hx
      obtain ⟨-, -, -, hy⟩ := mem_areaBlocks hy
      exact (classBlocks_within hb).apart hy le_rfl

/-- Tenths of a number are no more than the number. -/
theorem ratesOf_le (hbits : numa.size * 10 < 2 ^ 64) {bs : List (Nat × Nat)}
    (hrates : (bs.map (·.1)).sum ≤ 10) : ratesOf numa bs ≤ numa.size := by
  have hclass : ∀ bs : List (Nat × Nat), (bs.map (·.1)).sum ≤ 10 →
      10 * ratesOf numa bs ≤ numa.size * (bs.map (·.1)).sum := by
    intro bs
    induction bs with
    | nil => exact fun _ => le_rfl
    | cons c bs ih =>
        intro hsum
        rw [List.map_cons, List.sum_cons] at hsum
        have hrate : numa.size * c.1 ≤ numa.size * 10 :=
          Nat.mul_le_mul_left _ (by omega)
        have hmod : blockSizeRate numa c.1 = numa.size * c.1 / 10 := by
          rw [blockSizeRate, Nat.mod_eq_of_lt (by omega)]
        have hrest := ih (by omega)
        have hcons : ratesOf numa (c :: bs) =
            blockSizeRate numa c.1 + ratesOf numa bs := List.sum_cons
        rw [hcons, hmod, List.map_cons, List.sum_cons, Nat.mul_add,
          Nat.mul_add]
        have hdiv := Nat.mul_div_le (numa.size * c.1) 10
        omega
  have hall := (hclass bs hrates).trans (Nat.mul_le_mul_left numa.size hrates)
  omega

/-! ## All areas -/

theorem mem_carved (hx : x ∈ carved options) : ∃ numa ∈ options.numas,
    x.numaId = numa.id ∧ options.blocks[x.index]?.map (·.2) = some x.size ∧
      x ∈ areaBlocks numa options.blocks 0 0 := by
  obtain ⟨numa, hnuma, hx⟩ := List.mem_flatMap.mp hx
  obtain ⟨hid, -, hsize, -⟩ := mem_areaBlocks hx
  exact ⟨numa, hnuma, hid, hsize, hx⟩

theorem area_inside (h : Admitted options order) (hnuma : numa ∈ options.numas)
    (hx : x ∈ areaBlocks numa options.blocks 0 0) :
    Within numa.address (numa.address + numa.size) x := by
  obtain ⟨-, -, -, hin⟩ := mem_areaBlocks hx
  have hle := ratesOf_le (h.bits numa hnuma) h.rates
  exact hin.mono le_rfl (by omega)

/-- **INSIDE**: every block lies in its area. -/
theorem carved_inside (h : Admitted options order) (hx : x ∈ carved options) :
    ∃ numa ∈ options.numas, numa.id = x.numaId ∧
      Within numa.address (numa.address + numa.size) x := by
  obtain ⟨numa, hnuma, hid, -, hx⟩ := mem_carved hx
  exact ⟨numa, hnuma, hid.symm, area_inside h hnuma hx⟩

/-- **APART**: no two blocks overlap. -/
theorem carved_apart (h : Admitted options order) :
    (carved options).Pairwise Apart := by
  refine List.pairwise_flatMap.mpr
    ⟨fun numa _ => areaBlocks_apart _ _ _, h.apart.imp_of_mem ?_⟩
  intro numa numa' hnuma hnuma' hapart x hx y hy
  have hx := area_inside h hnuma hx
  have hy := area_inside h hnuma' hy
  rcases hapart with hle | hle
  · exact hx.apart hy hle
  · exact (hy.apart hx hle).symm

theorem Apart.ne (h : Apart x y) : x.addr ≠ y.addr := by
  rcases h with h | h <;> rw [sizeofBlockHeader] at h <;> omega

/-- Different blocks have different addresses. -/
theorem carved_nodup (h : Admitted options order) :
    ((carved options).map (·.addr)).Nodup :=
  List.pairwise_map.mpr ((carved_apart h).imp Apart.ne)

theorem carved_apart_of_ne (h : Admitted options order)
    (hx : x ∈ carved options) (hy : y ∈ carved options)
    (hne : x.addr ≠ y.addr) : Apart x y := by
  have : Std.Symm Apart := ⟨fun _ _ => Apart.symm⟩
  refine (carved_apart h).forall hx hy ?_
  rintro rfl
  exact hne rfl

end UbsIo.Fixed
