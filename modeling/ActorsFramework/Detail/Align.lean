import ActorsFramework.Lib.Rounding

/-!
# `detail::align`

The function has a branch for compilers that report a GCC version of 4.x, written by
hand; all other branches call `std::align`. Both take a buffer of `space` bytes at
`ptr` and advance `ptr` to the first multiple of `alignment`, if `size` bytes are
left there.

`std::align` compares what it needs with what there is. The other branch first
subtracts the padding from `space`, an unsigned number, and then compares: where
the padding is more than the space, the difference wraps around to a large
number, and the alignment succeeds behind the end of the buffer.
`align_eq_iff` says where the branches agree.
-/

namespace ActorsFramework.Detail

open Lib

/-- `std::size_t`. -/
abbrev Size := BitVec 64

/-- A pointer value; null is zero. -/
abbrev Pointer := BitVec 64

/-- What `align` returns, and the values it leaves in `ptr` and `space`. -/
structure Aligned where
  /-- The result. -/
  result : Pointer
  /-- `ptr`. -/
  ptr : Pointer
  /-- `space`. -/
  space : Size
  deriving DecidableEq

/-- `std::align`: the first possible address, if there is room for `size` bytes in the buffer;
otherwise nothing is changed. The alignment has to be a power of two; what is said of others here,
such as zero, is not what a library does. -/
def stdAlign (alignment size : Size) (ptr : Pointer) (space : Size) : Aligned :=
  let aligned := roundUp ptr.toNat alignment.toNat
  if aligned + size.toNat ≤ ptr.toNat + space.toNat then
    ⟨BitVec.ofNat 64 aligned, BitVec.ofNat 64 aligned,
      BitVec.ofNat 64 (space.toNat - (aligned - ptr.toNat))⟩
  else ⟨0#64, ptr, space⟩

/-- The branch of `align` for a GCC version of 4.x. -/
def alignGcc4 (alignment size : Size) (ptr : Pointer) (space : Size) : Aligned :=
  let pn := ptr
  let aligned := (pn + alignment - 1#64) &&& -alignment
  let newSpace := space - (aligned - pn)
  if newSpace < size then ⟨0#64, ptr, space⟩ else ⟨aligned, aligned, newSpace⟩

/-- The branches of `align`. -/
inductive Branch where
  /-- For a GCC version from 5.0 on, for other versions than 4.x and for other compilers. -/
  | std
  /-- For a GCC version of 4.x. -/
  | gcc4
  deriving DecidableEq

/-- `align`. -/
def align : Branch → Size → Size → Pointer → Size → Aligned
  | .std => stdAlign
  | .gcc4 => alignGcc4

/-- The bytes between a pointer and the next multiple of the alignment. -/
def padding (alignment : Size) (ptr : Pointer) : ℕ := roundUp ptr.toNat alignment.toNat - ptr.toNat

section

variable {alignment size space : Size} {ptr : Pointer}

theorem roundUp_eq (ha : alignment.toNat.isPowerOfTwo) :
    roundUp ptr.toNat alignment.toNat = ptr.toNat + padding alignment ptr :=
  (Nat.add_sub_cancel' (le_roundUp (Nat.pos_of_isPowerOfTwo ha))).symm

theorem padding_lt (ha : alignment.toNat.isPowerOfTwo) : padding alignment ptr < alignment.toNat := by
  have h := roundUp_lt (x := ptr.toNat) (Nat.pos_of_isPowerOfTwo ha)
  rw [roundUp_eq ha] at h
  omega

/-- The mask skips the padding. -/
theorem mask_sub (ha : alignment.toNat.isPowerOfTwo) :
    (ptr + alignment - 1#64) &&& -alignment = ptr + BitVec.ofNat 64 (padding alignment ptr) := by
  apply BitVec.eq_of_toNat_eq
  rw [toNat_roundUp ha, roundUp_eq ha, BitVec.toNat_add, BitVec.toNat_ofNat, Nat.add_mod_mod]

/-- What the branch for GCC 4.x does, by the padding. -/
theorem alignGcc4_eq (ha : alignment.toNat.isPowerOfTwo) :
    alignGcc4 alignment size ptr space =
      if space - BitVec.ofNat 64 (padding alignment ptr) < size then ⟨0#64, ptr, space⟩
      else ⟨ptr + BitVec.ofNat 64 (padding alignment ptr), ptr + BitVec.ofNat 64 (padding alignment ptr),
        space - BitVec.ofNat 64 (padding alignment ptr)⟩ := by
  have hsub : ∀ p : BitVec 64, ptr + p - ptr = p := fun p => by
    rw [BitVec.add_comm, BitVec.add_sub_cancel]
  rw [alignGcc4, mask_sub ha, hsub]

/-- What `std::align` does, by the padding. -/
theorem stdAlign_eq (ha : alignment.toNat.isPowerOfTwo) :
    stdAlign alignment size ptr space =
      if padding alignment ptr + size.toNat ≤ space.toNat then
        ⟨ptr + BitVec.ofNat 64 (padding alignment ptr), ptr + BitVec.ofNat 64 (padding alignment ptr),
          BitVec.ofNat 64 (space.toNat - padding alignment ptr)⟩
      else ⟨0#64, ptr, space⟩ := by
  have hp : BitVec.ofNat 64 (ptr.toNat + padding alignment ptr) =
      ptr + BitVec.ofNat 64 (padding alignment ptr) := by
    rw [BitVec.ofNat_add, BitVec.ofNat_toNat, BitVec.setWidth_eq]
  have hc : ptr.toNat + padding alignment ptr + size.toNat ≤ ptr.toNat + space.toNat ↔
      padding alignment ptr + size.toNat ≤ space.toNat := by omega
  rw [stdAlign, roundUp_eq ha, Nat.add_sub_cancel_left, hp]
  simp only [hc]

/-- Where the padding is no more than the space, both branches do the same. -/
theorem alignGcc4_of_le (ha : alignment.toNat.isPowerOfTwo) (h : padding alignment ptr ≤ space.toNat) :
    alignGcc4 alignment size ptr space = stdAlign alignment size ptr space := by
  have hlt := space.isLt
  have hsub : space - BitVec.ofNat 64 (padding alignment ptr) =
      BitVec.ofNat 64 (space.toNat - padding alignment ptr) := by
    apply BitVec.eq_of_toNat_eq
    rw [BitVec.toNat_sub, BitVec.toNat_ofNat, BitVec.toNat_ofNat]
    omega
  have hc : BitVec.ofNat 64 (space.toNat - padding alignment ptr) < size ↔
      ¬ padding alignment ptr + size.toNat ≤ space.toNat := by
    rw [BitVec.lt_def, BitVec.toNat_ofNat, Nat.mod_eq_of_lt (by omega)]
    omega
  rw [alignGcc4_eq ha, stdAlign_eq ha, hsub]
  by_cases hs : padding alignment ptr + size.toNat ≤ space.toNat
  · rw [if_neg (fun h => hc.mp h hs), if_pos hs]
  · rw [if_pos (hc.mpr hs), if_neg hs]

/-- Where the storage fits into the buffer behind the padding, `ptr` is moved past the padding. -/
theorem align_ptr (branch : Branch) (ha : alignment.toNat.isPowerOfTwo)
    (h : padding alignment ptr + size.toNat ≤ space.toNat) :
    (align branch alignment size ptr space).ptr = ptr + BitVec.ofNat 64 (padding alignment ptr) := by
  have hstd : (stdAlign alignment size ptr space).ptr = ptr + BitVec.ofNat 64 (padding alignment ptr) := by
    rw [stdAlign_eq ha, if_pos h]
  cases branch with
  | std => exact hstd
  | gcc4 => rw [align, alignGcc4_of_le ha (by omega), hstd]

/-- **`std::align` finds the first place for the storage in the buffer**, or does nothing where
there is none. -/
theorem stdAlign_spec (ha : alignment.toNat.isPowerOfTwo) :
    (∃ p, IsLeast {p | ptr.toNat ≤ p ∧ alignment.toNat ∣ p ∧ p + size.toNat ≤ ptr.toNat + space.toNat} p ∧
      stdAlign alignment size ptr space =
        ⟨BitVec.ofNat 64 p, BitVec.ofNat 64 p, BitVec.ofNat 64 (space.toNat - (p - ptr.toNat))⟩) ∨
    ({p | ptr.toNat ≤ p ∧ alignment.toNat ∣ p ∧ p + size.toNat ≤ ptr.toNat + space.toNat} = ∅ ∧
      stdAlign alignment size ptr space = ⟨0#64, ptr, space⟩) := by
  have hpos := Nat.pos_of_isPowerOfTwo ha
  by_cases h : roundUp ptr.toNat alignment.toNat + size.toNat ≤ ptr.toNat + space.toNat
  · left
    refine ⟨_, ⟨⟨le_roundUp hpos, dvd_roundUp _ _, h⟩, ?_⟩, by rw [stdAlign, if_pos h]⟩
    rintro p ⟨hp, hd, -⟩
    exact roundUp_le hpos hp hd
  · right
    refine ⟨Set.eq_empty_of_forall_notMem ?_, by rw [stdAlign, if_neg h]⟩
    rintro p ⟨hp, hd, hs⟩
    have hle := roundUp_le hpos hp hd
    omega

/-- Where the padding is more than the space, `std::align` fails. -/
theorem stdAlign_of_lt (ha : alignment.toNat.isPowerOfTwo) (h : space.toNat < padding alignment ptr) :
    stdAlign alignment size ptr space = ⟨0#64, ptr, space⟩ := by
  rw [stdAlign_eq ha, if_neg (by omega)]

/-- There the other branch sees a space that has wrapped around. -/
theorem alignGcc4_of_lt (ha : alignment.toNat.isPowerOfTwo) (h : space.toNat < padding alignment ptr) :
    alignGcc4 alignment size ptr space = ⟨0#64, ptr, space⟩ ↔
      2 ^ 64 + space.toNat < padding alignment ptr + size.toNat := by
  have hpad := lt_trans (@padding_lt alignment ptr ha) alignment.isLt
  have hsub : (space - BitVec.ofNat 64 (padding alignment ptr)).toNat =
      2 ^ 64 + space.toNat - padding alignment ptr := by
    rw [BitVec.toNat_sub, BitVec.toNat_ofNat]
    omega
  rw [alignGcc4_eq ha]
  constructor
  · intro hg
    by_contra hn
    rw [if_neg (by rw [BitVec.lt_def, hsub]; omega)] at hg
    have hspace := congrArg BitVec.toNat (Aligned.mk.inj hg).2.2
    rw [hsub] at hspace
    omega
  · intro hlt
    rw [if_pos (by rw [BitVec.lt_def, hsub]; omega)]

/-- **The branches of `align` agree exactly where the padding is no more than the space**, or the
size so large that even the wrapped space is less. -/
theorem align_eq_iff (ha : alignment.toNat.isPowerOfTwo) :
    align .gcc4 alignment size ptr space = align .std alignment size ptr space ↔
      padding alignment ptr ≤ space.toNat ∨
        2 ^ 64 + space.toNat < padding alignment ptr + size.toNat := by
  by_cases h : padding alignment ptr ≤ space.toNat
  · exact iff_of_true (alignGcc4_of_le ha h) (.inl h)
  · have hlt := Nat.lt_of_not_le h
    rw [or_iff_right h, align, align, stdAlign_of_lt ha hlt]
    exact alignGcc4_of_lt ha hlt

end

/-- Fifteen bytes of padding in a buffer of sixty-four. -/
theorem align_eq_iff_fits :
    align .gcc4 16#64 8#64 0x1001#64 64#64 = align .std 16#64 8#64 0x1001#64 64#64 ↔
      padding 16#64 0x1001#64 ≤ 64 ∨ 2 ^ 64 + 64 < padding 16#64 0x1001#64 + 8 :=
  @align_eq_iff 16#64 8#64 64#64 0x1001#64 ⟨4, rfl⟩

/-- Fifteen bytes of padding in a buffer of four: one branch fails, the other returns an address
behind the buffer and leaves a space of almost all addresses. -/
theorem align_past_end :
    (16#64).toNat.isPowerOfTwo ∧ (0x1001#64).toNat + (4#64).toNat < 2 ^ 64 ∧
      align .std 16#64 8#64 0x1001#64 4#64 = ⟨0#64, 0x1001#64, 4#64⟩ ∧
      align .gcc4 16#64 8#64 0x1001#64 4#64 = ⟨0x1010#64, 0x1010#64, 0xfffffffffffffff5#64⟩ ∧
      align .gcc4 16#64 8#64 0x1001#64 4#64 ≠ align .std 16#64 8#64 0x1001#64 4#64 :=
  ⟨⟨4, rfl⟩, by decide, by decide, by decide, by decide⟩

end ActorsFramework.Detail
