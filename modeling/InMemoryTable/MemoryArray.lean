import InMemoryTable.Constructors
import Mathlib.Data.Nat.ModEq

/-! The buckets of the index block as a slice: `MemoryArray`, the bytes that its
slice covers and the bounds check of an element access. -/
namespace InMemoryTable

/-- `size_of::<T>()` and `align_of::<T>()`. -/
structure ElementType where
  size : Nat
  alignment : Nat

/-- `Bucket`: one offset. -/
def Bucket.element : ElementType := ⟨bucketSize, 8⟩

/-- A slice of elements; `length` counts elements. -/
structure MemorySlice (T : ElementType) where
  start : Nat
  length : Nat

namespace MemorySlice
variable {T : ElementType} (self : MemorySlice T)

/-- The bytes that the slice covers. -/
def Covers (address : Nat) : Prop :=
  self.start ≤ address ∧ address < self.start + self.length * T.size

/-- The address of an element; `none` means that the bounds check panics. -/
def getElement (index : Nat) : Option Nat :=
  if index < self.length then some (self.start + index * T.size) else none

end MemorySlice

structure MemoryArray (T : ElementType) where
  ptr : Nat
  length : Nat
  deriving DecidableEq

namespace MemoryArray
variable {T : ElementType}

def new (ptr size : Nat) : Except InMemoryTableError (MemoryArray T) := do
  checkAligned ptr T.alignment
  pure { ptr, length := size }

/-- `as_slice` and `as_mut_slice`, which `Deref` and `DerefMut` pass on. -/
def asMutSlice (self : MemoryArray T) : MemorySlice T :=
  { start := self.ptr, length := self.length }

theorem new_ok {ptr size : Nat} {array : MemoryArray T} (made : new ptr size = .ok array) :
    array = { ptr, length := size } := by
  simp only [new, checkAligned] at made
  split at made
  · exact (Except.ok.inj made).symm
  · cases made

end MemoryArray

/-- `buckets` in `Index::new` and `Index::open`. -/
def Index.buckets (ptr size : Nat) : Except InMemoryTableError (MemoryArray Bucket.element) :=
  MemoryArray.new ptr (Index.totalBucketsSize size)

/-- The check that `new` and `open` make of the start of the block is this one. -/
theorem Index.buckets_ok {ptr : Nat} (size : Nat)
    (aligned : checkAligned ptr headerAlignment = .ok ()) :
    Index.buckets ptr size = .ok ⟨ptr, Index.totalBucketsSize size⟩ := by
  have aligned : checkAligned ptr Bucket.element.alignment = .ok () := aligned
  rw [Index.buckets, MemoryArray.new, aligned]
  rfl

/-- A new index has its buckets at the start of its block. -/
theorem SharedIndex.handle_buckets {K B : Type} (platform : Platform B) (layout : NodeLayout K B)
    (hasher : K → Nat) (name : String) (size object semId : Nat) :
    Index.buckets (handle platform layout hasher name size object semId).block.ptr size =
      .ok ⟨pageSize * platform.page object, Index.totalBucketsSize size⟩ :=
  Index.buckets_ok size (checkAligned_page _)

/-- The slice of the buckets is the array at the start of the block at `ptr`. -/
structure BucketsExact (slice : MemorySlice Bucket.element) (ptr size nodeSize : Nat) : Prop where
  covers : ∀ address, slice.Covers address ↔
    ptr ≤ address ∧ address < ptr + totalBuckets size * bucketSize
  disjoint : ∀ address, slice.Covers address →
    ¬ Slots.Addresses (ptr + Index.totalBucketsSize size) size nodeSize address
  inside : ∀ address, slice.Covers address → address < ptr + Index.totalSize size nodeSize
  rejects : ∀ bucketIdx, totalBuckets size ≤ bucketIdx → slice.getElement bucketIdx = none

/-- The number of buckets of any capacity fits in a `usize`. -/
theorem totalBuckets_lt {size : Nat} (bound : size < usizeModulus) :
    totalBuckets size < usizeModulus := by
  have modulus : usizeModulus = 18446744073709551616 := by decide
  have converted : roundToEven 53 size ≤ size + 2 ^ 11 :=
    roundToEven_le (by decide) (Nat.lt_of_lt_of_le bound (by decide))
  have product : roundToEven 53 (3 * roundToEven 53 size) ≤ 3 * roundToEven 53 size + 2 ^ 13 :=
    roundToEven_le (by decide) (by omega)
  unfold totalBuckets
  omega

/-- Eight times the number of buckets, even with wrap-around, is never the
number of buckets. -/
theorem totalBucketsSize_ne {size : Nat} (positive : 1 ≤ size) (bound : size < usizeModulus) :
    Index.totalBucketsSize size ≠ totalBuckets size := by
  have some_bucket := totalBuckets_pos positive
  have small := totalBuckets_lt bound
  intro same
  rw [Index.totalBucketsSize, wrappingMul, bucketSize] at same
  generalize totalBuckets size = buckets at *
  have residue : buckets + 7 * buckets ≡ buckets [MOD usizeModulus] := by
    have eight : buckets + 7 * buckets = 8 * buckets := by omega
    rw [eight, Nat.ModEq, same, Nat.mod_eq_of_lt small]
  have seven : usizeModulus ∣ 7 * buckets := Nat.add_modEq_left_iff.mp residue
  have coprime : Nat.Coprime usizeModulus 7 := by decide
  exact absurd (Nat.le_of_dvd some_bucket (coprime.dvd_of_dvd_mul_left seven)) (by omega)

section Buckets
variable {ptr size : Nat} {array : MemoryArray Bucket.element}

/-- `MemoryArray::new` takes the size in bytes for a number of elements: the
slice of the buckets never ends where the buckets end. -/
theorem buckets_never_exact (nodeSize : Nat) (positive : 1 ≤ size) (bound : size < usizeModulus)
    (made : Index.buckets ptr size = .ok array) :
    ¬ BucketsExact array.asMutSlice ptr size nodeSize := by
  obtain rfl := MemoryArray.new_ok made
  intro exact_slice
  have some_bucket := totalBuckets_pos positive
  have differ := totalBucketsSize_ne positive bound
  -- the last byte of the longer one of the two ranges
  have last := exact_slice.covers
    (ptr + max (Index.totalBucketsSize size) (totalBuckets size) * bucketSize - 1)
  simp only [MemorySlice.Covers, MemoryArray.asMutSlice, Bucket.element, bucketSize] at last
  omega

/-- Where no size wraps around, the slice covers the header of the slots behind
the buckets and accepts eight times as many indices as there are buckets. -/
theorem buckets_overlap (nodeSize : Nat) (positive : 1 ≤ size)
    (noWrap : totalBuckets size * bucketSize < usizeModulus)
    (made : Index.buckets ptr size = .ok array) :
    (∃ address, array.asMutSlice.Covers address ∧
      Slots.Addresses (ptr + Index.totalBucketsSize size) size nodeSize address) ∧
    ∀ bucketIdx, array.asMutSlice.getElement bucketIdx ≠ none ↔
      bucketIdx < 8 * totalBuckets size := by
  obtain rfl := MemoryArray.new_ok made
  have some_bucket := totalBuckets_pos positive
  have size_exact : Index.totalBucketsSize size = 8 * totalBuckets size := by
    rw [Index.totalBucketsSize, wrappingMul, bucketSize, Nat.mod_eq_of_lt (by
      rw [Nat.mul_comm]; exact noWrap)]
  refine ⟨⟨ptr + Index.totalBucketsSize size, ?_, .header (Nat.le_refl _) ?_⟩, fun bucketIdx => ?_⟩
  · simp only [MemorySlice.Covers, MemoryArray.asMutSlice, Bucket.element, bucketSize]
    omega
  · simp only [Header.data, slotsHeaderSize]
    omega
  · simp [MemorySlice.getElement, MemoryArray.asMutSlice, size_exact]

/-- The buckets that the index itself asks for exist. -/
theorem buckets_hash {K B : Type} (layout : NodeLayout K B) (hasher : K → Nat) (key : K)
    (positive : 1 ≤ size) (noWrap : totalBuckets size * bucketSize < usizeModulus)
    (made : Index.buckets ptr size = .ok array) :
    array.asMutSlice.getElement ((Index.handle layout hasher size).hash key) =
      some (ptr + (Index.handle layout hasher size).hash key * bucketSize) := by
  have inside : (Index.handle layout hasher size).hash key < totalBuckets size :=
    Nat.mod_lt _ (totalBuckets_pos positive)
  have accepted := ((buckets_overlap 0 positive noWrap made).2
    ((Index.handle layout hasher size).hash key)).mpr (by omega)
  obtain rfl := MemoryArray.new_ok made
  rw [MemorySlice.getElement] at accepted ⊢
  split
  · rfl
  · rename_i outside
    exact absurd (if_neg outside) accepted

end Buckets

theorem buckets_never_exact_ten :
    ¬ BucketsExact (MemoryArray.asMutSlice ⟨4096, 64⟩) 4096 10 24 :=
  buckets_never_exact 24 (by decide) (by decide) (show Index.buckets 4096 10 = .ok ⟨4096, 64⟩ by
    decide)

/-- Eight buckets for ten records: the slice has 64 elements in 512 bytes, its
element 8 is the header of the slots, and the block has 464 bytes. -/
theorem buckets_ten_overlap :
    Index.buckets 4096 10 = .ok ⟨4096, 64⟩ ∧ totalBuckets 10 = 8 ∧
    (MemoryArray.asMutSlice ⟨4096, 64⟩ : MemorySlice Bucket.element).getElement 8 =
      some (4096 + Index.totalBucketsSize 10) ∧
    Index.totalSize 10 24 = 464 ∧
    ¬ BucketsExact (MemoryArray.asMutSlice ⟨4096, 64⟩) 4096 10 24 := by
  refine ⟨by decide, by decide, by decide, by decide, fun exact_slice => ?_⟩
  exact absurd (exact_slice.rejects 8 (by decide)) (by decide)

end InMemoryTable
