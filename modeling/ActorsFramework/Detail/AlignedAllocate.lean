import Mathlib.Data.List.Pairwise
import ActorsFramework.Lib.Bytes
import ActorsFramework.Lib.Transition
import ActorsFramework.Detail.Align

/-!
# Aligned allocation

`aligned_allocate` asks a base allocator for more than was asked of it, aligns the
pointer that it gets inside, and keeps in the eight bytes before the block how far it
has moved. `aligned_deallocate` reads them and gives the base allocator its own
pointer back.

`round_trip`: over any sequence of allocations and deallocations, and of writes to
the blocks, every block lies with these eight bytes in the region obtained for it, and
its deallocation passes the pointer to that region, with either branch of `align`.

The size that is asked for is a sum of three words. `requested_iff`: it is what is
needed exactly where the sum is in range, and `new_delete_resource` does not test for
that.
-/

namespace ActorsFramework.Detail

open Lib

/-- `DEFAULT_ALIGNMENT`: `alignof(max_align_t)` as it is on x86-64 under Linux. -/
def defaultAlignment : Size := 16#64

/-- `is_pow2`. -/
def isPow2 (n : Size) : Bool := 0#64 = n &&& (n - 1#64)

/-- `is_supported_alignment`. -/
def isSupportedAlignment (alignment : Size) : Bool := isPow2 alignment

/-- `sizeof(ptrdiff_t)`. -/
def sizeofPtrdiff : ℕ := 8

/-- `aligned_allocate` up to the call of the base allocator, and what it does with the pointer
that it gets. -/
structure AllocateCall where
  /-- The size that the base allocator is asked for. -/
  requested : Size
  /-- The memory afterwards, and the address that is returned. -/
  resume : Pointer → Memory 64 → Memory 64 × Pointer

section Allocate

variable (R : Representation (BitVec 64) sizeofPtrdiff) (branch : Branch)

/-- `aligned_allocate`. It stops at the assertion; what `align` returns is not looked at. -/
def alignedAllocate (bytes alignment : Size) : Option AllocateCall :=
  if isPow2 alignment then
    let paddedAllocationSize := bytes + alignment + BitVec.ofNat 64 sizeofPtrdiff
    some {
      requested := paddedAllocationSize
      resume := fun original m =>
        let aligned := original + BitVec.ofNat 64 sizeofPtrdiff
        let aligned := (align branch alignment bytes aligned paddedAllocationSize).ptr
        let offset := aligned - original
        (R.store m (aligned - BitVec.ofNat 64 sizeofPtrdiff) offset, aligned) }
  else none

/-- `aligned_deallocate`: the pointer that the base deallocator is given. -/
def alignedDeallocate (p : Pointer) (m : Memory 64) : Pointer :=
  let offset := R.load m (p - BitVec.ofNat 64 sizeofPtrdiff)
  p - offset

/-- `new_delete_resource::do_allocate`. -/
def doAllocate (bytes alignment : Size) : Option AllocateCall :=
  let alignment := if isSupportedAlignment alignment then alignment else defaultAlignment
  alignedAllocate R branch bytes alignment

end Allocate

/-- The alignment that `do_allocate` works with. -/
def effectiveAlignment (alignment : Size) : Size :=
  if isSupportedAlignment alignment then alignment else defaultAlignment

/-! ### The size that is asked for -/

section Size

variable (R : Representation (BitVec 64) sizeofPtrdiff) (branch : Branch)

theorem isPow2_iff (n : Size) : isPow2 n = true ↔ n = 0#64 ∨ n.toNat.isPowerOfTwo := by
  rw [← and_sub_one_eq_zero_iff, isPow2, decide_eq_true_iff]
  exact eq_comm

/-- `do_allocate` passes the assertion of `aligned_allocate`. -/
theorem isPow2_effectiveAlignment (alignment : Size) : isPow2 (effectiveAlignment alignment) = true := by
  rw [effectiveAlignment]
  split_ifs with h
  · exact h
  · rfl

/-- What `do_allocate` asks for. -/
theorem requested_eq (bytes alignment : Size) :
    ∃ call, doAllocate R branch bytes alignment = some call ∧
      call.requested = bytes + effectiveAlignment alignment + BitVec.ofNat 64 sizeofPtrdiff := by
  refine ⟨_, if_pos (isPow2_effectiveAlignment alignment), rfl⟩

/-- **The size that is asked for is enough exactly where the sum is in range.** -/
theorem requested_iff (bytes alignment : Size) :
    ∃ call, doAllocate R branch bytes alignment = some call ∧
      (bytes.toNat + sizeofPtrdiff + (effectiveAlignment alignment).toNat ≤ call.requested.toNat ↔
        bytes.toNat + sizeofPtrdiff + (effectiveAlignment alignment).toNat < 2 ^ 64) := by
  obtain ⟨call, hcall, hreq⟩ := requested_eq R branch bytes alignment
  refine ⟨call, hcall, ?_⟩
  have hlt := call.requested.isLt
  rw [hreq] at hlt ⊢
  constructor
  · intro h
    exact lt_of_le_of_lt h hlt
  · intro h
    rw [BitVec.toNat_add, BitVec.toNat_add, BitVec.toNat_ofNat, sizeofPtrdiff] at *
    omega

/-- Nine bytes less than there are addresses: the base allocator is asked for no byte at all. -/
theorem requested_wraps : ∃ call,
    doAllocate littleEndian .std 0xfffffffffffffff7#64 1#64 = some call ∧ call.requested = 0#64 ∧
      ¬ (0xfffffffffffffff7#64).toNat + sizeofPtrdiff + (effectiveAlignment 1#64).toNat ≤
        call.requested.toNat :=
  ⟨_, rfl, by decide, by decide⟩

end Size

/-! ### One allocation -/

section Block

variable (R : Representation (BitVec 64) sizeofPtrdiff) (branch : Branch)

/-- A sum that is in range. -/
theorem toNat_padded {bytes alignment : Size}
    (hb : bytes.toNat + alignment.toNat + sizeofPtrdiff < 2 ^ 64) :
    (bytes + alignment + BitVec.ofNat 64 sizeofPtrdiff).toNat =
      bytes.toNat + alignment.toNat + sizeofPtrdiff := by
  rw [BitVec.toNat_add, BitVec.toNat_add, BitVec.toNat_ofNat]
  rw [sizeofPtrdiff] at hb ⊢
  omega

/-- **One allocation**: the block and the bytes before it lie inside the region, aligned, and
these bytes hold the way back. -/
theorem alignedAllocate_spec {bytes alignment : Size} (ha : alignment.toNat.isPowerOfTwo)
    (hb : bytes.toNat + alignment.toNat + sizeofPtrdiff < 2 ^ 64) :
    ∃ call, alignedAllocate R branch bytes alignment = some call ∧
      call.requested.toNat = bytes.toNat + alignment.toNat + sizeofPtrdiff ∧
      ∀ original : Pointer, original.toNat + call.requested.toNat ≤ 2 ^ 64 → ∀ m, ∃ p : Pointer,
        call.resume original m =
          (R.store m (p - BitVec.ofNat 64 sizeofPtrdiff) (p - original), p) ∧
        alignment.toNat ∣ p.toNat ∧ original.toNat + sizeofPtrdiff ≤ p.toNat ∧
        p.toNat + bytes.toNat ≤ original.toNat + call.requested.toNat := by
  have hpow : isPow2 alignment = true := (isPow2_iff _).mpr (.inr ha)
  have hpadded := toNat_padded hb
  refine ⟨_, if_pos hpow, hpadded, fun original hfit m => ?_⟩
  dsimp only at hfit ⊢
  rw [hpadded] at hfit ⊢
  -- the header is skipped, and then the padding, for which there is room
  have hlt := @padding_lt alignment (original + BitVec.ofNat 64 sizeofPtrdiff) ha
  have hstart : (original + BitVec.ofNat 64 sizeofPtrdiff).toNat = original.toNat + sizeofPtrdiff := by
    rw [BitVec.toNat_add, BitVec.toNat_ofNat]
    rw [sizeofPtrdiff] at *
    omega
  have hroom : padding alignment (original + BitVec.ofNat 64 sizeofPtrdiff) + bytes.toNat ≤
      (bytes + alignment + BitVec.ofNat 64 sizeofPtrdiff).toNat := by omega
  have hp : (original + BitVec.ofNat 64 sizeofPtrdiff +
      BitVec.ofNat 64 (padding alignment (original + BitVec.ofNat 64 sizeofPtrdiff))).toNat =
      roundUp (original + BitVec.ofNat 64 sizeofPtrdiff).toNat alignment.toNat := by
    rw [roundUp_eq ha, BitVec.toNat_add, BitVec.toNat_ofNat, hstart]
    omega
  rw [align_ptr branch ha hroom]
  refine ⟨_, rfl, ?_, ?_, ?_⟩
  · rw [hp]
    exact dvd_roundUp _ _
  · rw [hp, roundUp_eq ha, hstart]
    omega
  · rw [hp, roundUp_eq ha, hstart]
    omega

end Block

/-! ### Allocations, deallocations and writes -/

/-- Where the header of a block is. -/
theorem toNat_header {p : Pointer} (hp : sizeofPtrdiff ≤ p.toNat) :
    (p - BitVec.ofNat 64 sizeofPtrdiff).toNat = p.toNat - sizeofPtrdiff := by
  rw [BitVec.toNat_sub, BitVec.toNat_ofNat]
  rw [sizeofPtrdiff] at *
  omega

theorem header_fits {p : Pointer} (hp : sizeofPtrdiff ≤ p.toNat) :
    (p - BitVec.ofNat 64 sizeofPtrdiff).toNat + sizeofPtrdiff ≤ 2 ^ 64 := by
  rw [toNat_header hp, Nat.sub_add_cancel hp]
  exact p.isLt.le

/-- A region that the base allocator has given out. -/
structure Region where
  /-- Its first address. -/
  start : Pointer
  /-- Its size. -/
  size : Size
  deriving DecidableEq

namespace Region

/-- The region does not wrap around the address space. -/
def Fits (r : Region) : Prop := r.start.toNat + r.size.toNat ≤ 2 ^ 64

/-- The addresses of a region. -/
def Contains (r : Region) (a : Pointer) : Prop := InRange r.start r.size.toNat a

/-- One region ends before the other begins. -/
def Apart (r s : Region) : Prop :=
  r.start.toNat + r.size.toNat ≤ s.start.toNat ∨ s.start.toNat + s.size.toNat ≤ r.start.toNat

instance (r : Region) : Decidable r.Fits := inferInstanceAs (Decidable (_ ≤ _))

instance (r : Region) (a : Pointer) : Decidable (r.Contains a) :=
  inferInstanceAs (Decidable (InRange _ _ _))

instance (r s : Region) : Decidable (r.Apart s) := inferInstanceAs (Decidable (_ ∨ _))

theorem Apart.symm {r s : Region} (h : r.Apart s) : s.Apart r := Or.symm h

/-- Regions that are not empty and are apart begin at different addresses. -/
theorem Apart.start_ne {r s : Region} (h : r.Apart s) (hr : 0 < r.size.toNat)
    (hs : 0 < s.size.toNat) : r.start ≠ s.start := by
  intro heq
  rw [Apart, heq] at h
  omega

theorem Apart.not_contains {r s : Region} (h : r.Apart s) {a : Pointer} (ha : r.Contains a) :
    ¬ s.Contains a := by
  rintro ⟨h₁, h₂⟩
  obtain ⟨h₃, h₄⟩ := ha
  rcases h with h | h
  · omega
  · omega

end Region

/-- A block that `aligned_allocate` has returned. -/
structure Block where
  /-- The address that was returned. -/
  p : Pointer
  /-- The size that was asked for. -/
  bytes : Size
  /-- The alignment that was asked for. -/
  alignment : Size
  /-- The region that was obtained for it; neither function keeps it. -/
  region : Region
  deriving DecidableEq

/-- The user's part of a block. -/
def Block.Contains (b : Block) (a : Pointer) : Prop := InRange b.p b.bytes.toNat a

instance (b : Block) (a : Pointer) : Decidable (b.Contains a) :=
  inferInstanceAs (Decidable (InRange _ _ _))

/-- The memory, what the base allocator has given out and not got back, and the blocks. -/
structure Heap where
  /-- The memory. -/
  mem : Memory 64
  /-- The live regions. -/
  regions : List Region
  /-- The live blocks. -/
  blocks : List Block

/-- What can happen to a heap. -/
inductive HeapAction where
  /-- `aligned_allocate(bytes, alignment, alloc)`, where `alloc` returns `original`. -/
  | allocate (bytes alignment : Size) (original : Pointer)
  /-- `aligned_deallocate` of a live block. -/
  | deallocate (b : Block)
  /-- The user writes a byte of a live block. -/
  | write (a : Pointer) (v : BitVec 8)
  /-- Whatever else the memory is used for, outside the live regions. -/
  | other (a : Pointer) (v : BitVec 8)

section System

variable (R : Representation (BitVec 64) sizeofPtrdiff) (branch : Branch)

/-- `aligned_allocate` with a base allocator that returns `original`: the region must not wrap
around and be apart from the live ones. -/
def Heap.allocate (h : Heap) (bytes alignment : Size) (original : Pointer) : Option Heap :=
  (alignedAllocate R branch bytes alignment).bind fun call =>
    let region : Region := ⟨original, call.requested⟩
    if region.Fits ∧ ∀ r ∈ h.regions, region.Apart r then
      let result := call.resume original h.mem
      some ⟨result.1, region :: h.regions, ⟨result.2, bytes, alignment, region⟩ :: h.blocks⟩
    else none

/-- `aligned_deallocate`: the base deallocator takes the region back that starts where it is told
to. -/
def Heap.deallocate (h : Heap) (b : Block) : Heap :=
  let original := alignedDeallocate R b.p h.mem
  { h with
    regions := h.regions.filter fun r => r.start ≠ original
    blocks := h.blocks.erase b }

/-- The memory after a byte is written. -/
def Heap.set (h : Heap) (a : Pointer) (v : BitVec 8) : Heap :=
  { h with mem := Function.update h.mem a v }

/-- The effect of an action, where it may happen. -/
def Heap.step (h : Heap) : HeapAction → Option Heap
  | .allocate bytes alignment original =>
    if bytes.toNat + alignment.toNat + sizeofPtrdiff < 2 ^ 64 ∧
        alignment ≠ 0#64 ∧ isPow2 alignment then
      h.allocate R branch bytes alignment original
    else none
  | .deallocate b => if b ∈ h.blocks then some (h.deallocate R b) else none
  | .write a v => if ∃ b ∈ h.blocks, b.Contains a then some (h.set a v) else none
  | .other a v => if ∀ r ∈ h.regions, ¬ r.Contains a then some (h.set a v) else none

/-- A heap from the time when nothing is allocated. -/
def heapSystem : System Heap HeapAction where
  Init h := h.regions = [] ∧ h.blocks = []
  step := Heap.step R branch

/-- A block as `aligned_allocate` leaves it: in its region with the header before it, aligned, and
the header says how far the block is from the start of the region. -/
structure Placed (m : Memory 64) (b : Block) : Prop where
  /-- The region does not wrap around. -/
  fits : b.region.Fits
  /-- The block is aligned. -/
  aligned : b.alignment.toNat ∣ b.p.toNat
  /-- The header is in the region. -/
  header : b.region.start.toNat + sizeofPtrdiff ≤ b.p.toNat
  /-- The block is in the region. -/
  inside : b.p.toNat + b.bytes.toNat ≤ b.region.start.toNat + b.region.size.toNat
  /-- What the header says. -/
  offset : R.load m (b.p - BitVec.ofNat 64 sizeofPtrdiff) = b.p - b.region.start

namespace Placed

variable {R} {m m' : Memory 64} {b c : Block}

theorem sizeof_le (h : Placed R m b) : sizeofPtrdiff ≤ b.p.toNat :=
  le_trans (Nat.le_add_left _ _) h.header

/-- The header lies in the region, before the block. -/
theorem of_header (h : Placed R m b) {a : Pointer}
    (ha : InRange (b.p - BitVec.ofNat 64 sizeofPtrdiff) sizeofPtrdiff a) :
    b.region.Contains a ∧ ¬ b.Contains a := by
  obtain ⟨h₁, h₂⟩ := ha
  have hh := h.header
  have hi := h.inside
  rw [toNat_header h.sizeof_le] at h₁ h₂
  refine ⟨⟨by omega, by omega⟩, ?_⟩
  rintro ⟨h₃, -⟩
  omega

theorem contains (h : Placed R m b) {a : Pointer} (ha : b.Contains a) : b.region.Contains a := by
  obtain ⟨h₁, h₂⟩ := ha
  have hh := h.header
  have hi := h.inside
  exact ⟨by omega, by omega⟩

/-- Only the header matters. -/
theorem congr (h : Placed R m b)
    (hm : ∀ a, InRange (b.p - BitVec.ofNat 64 sizeofPtrdiff) sizeofPtrdiff a → m' a = m a) :
    Placed R m' b :=
  ⟨h.fits, h.aligned, h.header, h.inside, (R.load_congr (header_fits h.sizeof_le) hm).trans h.offset⟩

/-- `aligned_deallocate` finds the way back. -/
theorem deallocate (h : Placed R m b) : alignedDeallocate R b.p m = b.region.start := by
  rw [alignedDeallocate, h.offset, sub_sub_cancel]

end Placed

/-- The live regions are those of the live blocks, which are apart and in their places. -/
structure Heap.Inv (h : Heap) : Prop where
  /-- Each block is in its place. -/
  placed : ∀ b ∈ h.blocks, Placed R h.mem b
  /-- The regions are apart from one another. -/
  apart : h.blocks.Pairwise fun b c => b.region.Apart c.region
  /-- The base allocator knows the same regions. -/
  regions : h.regions = h.blocks.map Block.region

namespace Heap

variable {R branch} {h h' : Heap}

/-- A block whose header is left alone stays in its place. -/
theorem Inv.of_mem (hI : h.Inv R) {m : Memory 64}
    (hm : ∀ b ∈ h.blocks, ∀ a, InRange (b.p - BitVec.ofNat 64 sizeofPtrdiff) sizeofPtrdiff a →
      m a = h.mem a) :
    Heap.Inv R { h with mem := m } :=
  ⟨fun b hb => (hI.placed b hb).congr (hm b hb), hI.apart, hI.regions⟩

theorem Inv.region_mem (hI : h.Inv R) {b : Block} (hb : b ∈ h.blocks) : b.region ∈ h.regions := by
  rw [hI.regions]
  exact List.mem_map_of_mem hb

/-- Different blocks have regions that are apart. -/
theorem Inv.apart_of_ne (hI : h.Inv R) {b c : Block} (hb : b ∈ h.blocks) (hc : c ∈ h.blocks)
    (hne : b ≠ c) : b.region.Apart c.region :=
  have : Std.Symm fun b c : Block => b.region.Apart c.region := ⟨fun _ _ => Region.Apart.symm⟩
  hI.apart.forall hb hc hne

/-- No region is empty. -/
theorem Inv.size_pos (hI : h.Inv R) {b : Block} (hb : b ∈ h.blocks) : 0 < b.region.size.toNat := by
  have hh := (hI.placed b hb).header
  have hi := (hI.placed b hb).inside
  rw [sizeofPtrdiff] at hh
  omega

theorem Inv.start_ne (hI : h.Inv R) {b c : Block} (hb : b ∈ h.blocks) (hc : c ∈ h.blocks)
    (hne : b ≠ c) : b.region.start ≠ c.region.start :=
  (hI.apart_of_ne hb hc hne).start_ne (hI.size_pos hb) (hI.size_pos hc)

theorem Inv.nodup (hI : h.Inv R) : h.blocks.Nodup := by
  refine hI.apart.imp_of_mem fun hb hc hA hbc => ?_
  exact hA.start_ne (hI.size_pos hb) (hI.size_pos hc) (hbc ▸ rfl)

/-- The user's writes leave every header alone. -/
theorem Inv.write (hI : h.Inv R) {a : Pointer} {v : BitVec 8} (ha : ∃ b ∈ h.blocks, b.Contains a) :
    (h.set a v).Inv R := by
  obtain ⟨b, hb, ha⟩ := ha
  refine hI.of_mem fun c hc x hx => Function.update_of_ne ?_ _ _
  rintro rfl
  obtain ⟨hxc, hnx⟩ := (hI.placed c hc).of_header hx
  have hne : b ≠ c := by
    rintro rfl
    exact hnx ha
  exact (hI.apart_of_ne hb hc hne).not_contains ((hI.placed b hb).contains ha) hxc

/-- So does what happens outside the live regions. -/
theorem Inv.other (hI : h.Inv R) {a : Pointer} {v : BitVec 8} (ha : ∀ r ∈ h.regions, ¬ r.Contains a) :
    (h.set a v).Inv R := by
  refine hI.of_mem fun c hc x hx => Function.update_of_ne ?_ _ _
  rintro rfl
  exact ha _ (hI.region_mem hc) ((hI.placed c hc).of_header hx).1

/-- The base allocator takes back the region of the block that is deallocated, and no other. -/
theorem Inv.deallocate (hI : h.Inv R) {b : Block} (hb : b ∈ h.blocks) : (h.deallocate R b).Inv R := by
  have hsub : ∀ c ∈ h.blocks.erase b, c ∈ h.blocks := fun _ => List.mem_of_mem_erase
  refine ⟨fun c hc => hI.placed c (hsub c hc), hI.apart.sublist List.erase_sublist, ?_⟩
  show h.regions.filter _ = (h.blocks.erase b).map _
  rw [(hI.placed b hb).deallocate, hI.nodup.erase_eq_filter, hI.regions, List.filter_map]
  congr 1
  refine List.filter_congr fun c hc => ?_
  rw [Function.comp_apply, Bool.eq_iff_iff, decide_eq_true_iff, bne_iff_ne]
  exact ⟨fun hs hcb => hs (hcb ▸ rfl), hI.start_ne hc hb⟩

/-- The new block gets its place, and the others keep theirs. -/
theorem Inv.allocate (hI : h.Inv R) {bytes alignment : Size} {original : Pointer}
    (ha : alignment.toNat.isPowerOfTwo)
    (hb : bytes.toNat + alignment.toNat + sizeofPtrdiff < 2 ^ 64)
    (hs : h.allocate R branch bytes alignment original = some h') : h'.Inv R := by
  obtain ⟨call, hcall, hreq, hspec⟩ := alignedAllocate_spec R branch ha hb
  rw [Heap.allocate, hcall, Option.bind_some] at hs
  dsimp only at hs
  split_ifs at hs with hguard
  obtain ⟨hfits, hapart⟩ := hguard
  obtain ⟨p, hres, hdvd, hheader, hinside⟩ := hspec original hfits h.mem
  rw [hres] at hs
  cases hs
  have hnew : Placed R (R.store h.mem (p - BitVec.ofNat 64 sizeofPtrdiff) (p - original))
      ⟨p, bytes, alignment, original, call.requested⟩ := by
    refine ⟨hfits, hdvd, hheader, hinside, R.load_store (header_fits ?_) _⟩
    exact le_trans (Nat.le_add_left _ _) hheader
  have hapart' : ∀ c ∈ h.blocks, (⟨original, call.requested⟩ : Region).Apart c.region :=
    fun c hc => hapart _ (hI.region_mem hc)
  refine ⟨List.forall_mem_cons.mpr ⟨hnew, fun c hc => (hI.placed c hc).congr fun a ha => ?_⟩,
    List.pairwise_cons.mpr ⟨hapart', hI.apart⟩, congrArg _ hI.regions⟩
  refine R.store_of_not_inRange fun hin => ?_
  exact (hapart' c hc).not_contains (hnew.of_header hin).1 ((hI.placed c hc).of_header ha).1

/-- **One step**: every action leaves the blocks where they are. -/
theorem Inv.step {a : HeapAction} (hI : h.Inv R) (hs : h.step R branch a = some h') : h'.Inv R := by
  cases a with
  | allocate bytes alignment original =>
    rw [Heap.step] at hs
    split_ifs at hs with hguard
    obtain ⟨hb, hne, hpow⟩ := hguard
    exact hI.allocate (((isPow2_iff _).mp hpow).resolve_left hne) hb hs
  | deallocate b =>
    rw [Heap.step] at hs
    split_ifs at hs with hb
    exact Option.some.inj hs ▸ hI.deallocate hb
  | write a v =>
    rw [Heap.step] at hs
    split_ifs at hs with ha
    exact Option.some.inj hs ▸ hI.write ha
  | other a v =>
    rw [Heap.step] at hs
    split_ifs at hs with ha
    exact Option.some.inj hs ▸ hI.other ha

/-- **Every reachable heap** has its blocks in their places. -/
theorem inv_of_reachable (hr : (heapSystem R branch).Reachable h) : h.Inv R := by
  refine hr.invariant (fun h h₀ => ?_) fun h a h' hI hs => @Inv.step R branch h h' a hI hs
  obtain ⟨hregions, hblocks⟩ := h₀
  refine ⟨?_, ?_, ?_⟩
  · rw [hblocks]
    exact List.forall_mem_nil _
  · rw [hblocks]
    exact List.Pairwise.nil
  · rw [hregions, hblocks, List.map_nil]

end Heap

/-- **There and back**: whatever was allocated, deallocated and written, with either branch of
`align`, every block is aligned and lies with the header before it in its region, and its
deallocation passes the pointer to this region. -/
theorem round_trip {h : Heap} (hr : (heapSystem R branch).Reachable h) {b : Block}
    (hb : b ∈ h.blocks) :
    b.alignment.toNat ∣ b.p.toNat ∧
      b.region.start.toNat + sizeofPtrdiff ≤ b.p.toNat ∧
      b.p.toNat + b.bytes.toNat ≤ b.region.start.toNat + b.region.size.toNat ∧
      b.region ∈ h.regions ∧ alignedDeallocate R b.p h.mem = b.region.start := by
  have hI := Heap.inv_of_reachable hr
  have hplaced := hI.placed b hb
  exact ⟨hplaced.aligned, hplaced.header, hplaced.inside, hI.region_mem hb, hplaced.deallocate⟩

end System

/-- Two blocks are allocated, both are written to, and the first is deallocated. -/
theorem round_trip_second : ∃ h, (heapSystem littleEndian .gcc4).Reachable h ∧
    ∃ b ∈ h.blocks, b.p = 0x2040#64 ∧
      b.alignment.toNat ∣ b.p.toNat ∧
      b.region.start.toNat + sizeofPtrdiff ≤ b.p.toNat ∧
      b.p.toNat + b.bytes.toNat ≤ b.region.start.toNat + b.region.size.toNat ∧
      b.region ∈ h.regions ∧ alignedDeallocate littleEndian b.p h.mem = b.region.start := by
  have hr := System.Reachable.of_actions (T := heapSystem littleEndian .gcc4)
    (s := ⟨fun _ => 0#8, [], []⟩) ⟨rfl, rfl⟩
    [.allocate 100#64 16#64 0x1000#64, .allocate 10#64 64#64 0x2001#64, .write 0x1010#64 7#8,
      .write 0x2049#64 9#8, .other 0x2000#64 1#8,
      .deallocate ⟨0x1010#64, 100#64, 16#64, ⟨0x1000#64, 124#64⟩⟩] rfl
  have hb := List.mem_singleton_self (⟨0x2040#64, 10#64, 64#64, ⟨0x2001#64, 82#64⟩⟩ : Block)
  exact ⟨_, hr, _, hb, rfl, round_trip littleEndian .gcc4 hr hb⟩

end ActorsFramework.Detail
