import OsKernel.PmmMaps

/-! # When `pmm_init` stays in the bitmap

The clamp of `pmm_init` is applied to the two rounded ends of an entry one by one, and
not to their order.  An entry that holds no page boundary to page boundary stretch, or
that wraps, has its rounded ends in the wrong order: the page count is then a wrapped
difference, and the loop writes past the bitmap.  An entry in the last page of the
address space has its base rounded up to 0, and pages are cleared that it does not hold.
-/
namespace OsKernel

/-- **`pmm_init` never leaves the bitmap**, and clears no page outside the `MMAP_FREE`
entries. -/
def InitSafe (mmap : MemoryMap) : Prop :=
  ∃ pmm, pmmInit mmap = some pmm ∧
    ∀ p, p < pmmMaxPages → bitmapTest pmm.bitmap p = false → mmap.HasPage p

variable {mmap : MemoryMap} {e : MmapEntry} {p : Nat}

/-- The order of the rounded ends, in the words of the source. -/
theorem MmapEntry.inBitmap_iff (hfree : e.type = .free) :
    e.InBitmap ↔ physMemSize ≤ alignUp e.base pageSize ∨
      alignUp e.base pageSize ≤ alignDown (e.base + e.length) pageSize := by
  have hin : e.InBitmap ↔ pmmMaxPages ≤ e.firstPage ∨ e.firstPage ≤ e.stopPage :=
    ⟨fun h => h hfree, fun h _ => h⟩
  rw [hin, UInt64.le_iff_toNat_le, UInt64.le_iff_toNat_le, e.toNat_base, e.toNat_end,
    toNat_physMemSize, pmmMaxPages_eq]
  omega

/-- Where the base can be rounded up, only pages inside the entry are cleared. -/
theorem MmapEntry.hasPage_of_mem_cleared (hbase : e.base.toNat ≤ 2 ^ 64 - 4096)
    (hp : p ∈ e.cleared) : e.HasPage p := by
  rw [MmapEntry.cleared] at hp
  split at hp
  case isTrue hfree =>
    rw [Finset.mem_Ico, MmapEntry.firstPage, MmapEntry.stopPage,
      Nat.mod_eq_of_lt (show e.base.toNat + 4095 < 2 ^ 64 by omega)] at hp
    have hmod := Nat.mod_le (e.base.toNat + e.length.toNat) (2 ^ 64)
    exact ⟨hfree, by omega, by omega⟩
  case isFalse => exact absurd hp (Finset.notMem_empty p)

/-- Where the base is rounded up to 0, the pages below the wrapped end are cleared. -/
theorem MmapEntry.mem_cleared_of_wrap (hfree : e.type = .free)
    (hbase : 2 ^ 64 - 4096 < e.base.toNat) :
    p ∈ e.cleared ↔ p < pmmMaxPages ∧ p * 4096 + 4096 ≤ (e.base + e.length).toNat := by
  have hlt := e.base.toNat_lt
  have hfirst : e.firstPage = 0 := by
    rw [MmapEntry.firstPage]
    omega
  rw [MmapEntry.cleared, if_pos hfree, Finset.mem_Ico, hfirst, MmapEntry.stopPage,
    UInt64.toNat_add]
  omega

/-- `pmm_init` is safe exactly when every entry is: it stays in the bitmap, and what is
cleared for it lies inside the map. -/
theorem initSafe_iff (mmap : MemoryMap) :
    InitSafe mmap ↔ ∀ e ∈ mmap.entries, e.InBitmap ∧ ∀ p ∈ e.cleared, mmap.HasPage p := by
  constructor
  · rintro ⟨pmm, heq, hclear⟩
    have hin : ∀ e ∈ mmap.entries, e.InBitmap := by
      intro e he
      by_contra hout
      rw [pmmInit_none he hout] at heq
      cases heq
    obtain ⟨pmm', heq', hset, -⟩ := pmmInit_inBitmap hin
    obtain rfl := Option.some.inj (heq.symm.trans heq')
    refine fun e he => ⟨hin e he, fun p hp => ?_⟩
    have hmem : p ∈ freeSet pmm.bitmap := by
      rw [hset, Finset.mem_biUnion]
      exact ⟨e, List.mem_toFinset.mpr he, hp⟩
    exact hclear p (freeSet_lt hmem) (mem_freeSet.mp hmem).2
  · intro h
    obtain ⟨pmm, heq, hset, -⟩ := pmmInit_inBitmap fun e he => (h e he).1
    refine ⟨pmm, heq, fun p hp hclear => ?_⟩
    have hmem : p ∈ freeSet pmm.bitmap := mem_freeSet.mpr ⟨hp, hclear⟩
    rw [hset, Finset.mem_biUnion] at hmem
    obtain ⟨e, he, hpage⟩ := hmem
    exact (h e (List.mem_toFinset.mp he)).2 p hpage

/-- What is cleared for an entry of the map lies inside the map, unless its base wraps. -/
theorem cleared_inside_iff (he : e ∈ mmap.entries) (hfree : e.type = .free) :
    (∀ p ∈ e.cleared, mmap.HasPage p) ↔
      (2 ^ 64 - 4096 < e.base.toNat → ∀ p, p < pmmMaxPages →
        p * 4096 + 4096 ≤ (e.base + e.length).toNat → mmap.HasPage p) := by
  by_cases hbase : e.base.toNat ≤ 2 ^ 64 - 4096
  · refine ⟨fun _ hwrap => absurd hwrap (Nat.not_lt.mpr hbase), fun _ p hp => ?_⟩
    exact ⟨e, he, MmapEntry.hasPage_of_mem_cleared hbase hp⟩
  · have hmem := @MmapEntry.mem_cleared_of_wrap e
    constructor
    · exact fun h hwrap p hp hend => h p ((hmem hfree hwrap).mpr ⟨hp, hend⟩)
    · intro h p hp
      obtain ⟨hlt, hend⟩ := (hmem hfree (Nat.not_le.mp hbase)).mp hp
      exact h (Nat.not_le.mp hbase) p hlt hend

/-- **When `pmm_init` is safe.**  Exactly when, for every `MMAP_FREE` entry, the rounded
base is beyond the memory or not above the rounded end, and, should rounding up the base
wrap to 0, every page below the wrapped end lies inside an `MMAP_FREE` entry anyway. -/
theorem pmm_init_safe_iff (mmap : MemoryMap) :
    InitSafe mmap ↔ ∀ e ∈ mmap.entries, e.type = .free →
      (physMemSize ≤ alignUp e.base pageSize ∨
        alignUp e.base pageSize ≤ alignDown (e.base + e.length) pageSize) ∧
      (2 ^ 64 - 4096 < e.base.toNat → ∀ p, p < pmmMaxPages →
        p * 4096 + 4096 ≤ (e.base + e.length).toNat → mmap.HasPage p) := by
  rw [initSafe_iff]
  apply forall₂_congr
  intro e he
  by_cases hfree : e.type = .free
  · rw [MmapEntry.inBitmap_iff hfree, cleared_inside_iff he hfree]
    exact ⟨fun h _ => h, fun h => h hfree⟩
  · have hnone : e.cleared = ∅ := if_neg hfree
    refine ⟨fun _ h => absurd h hfree, fun _ => ⟨fun h => absurd h hfree, fun p hp => ?_⟩⟩
    rw [hnone] at hp
    exact absurd hp (Finset.notMem_empty p)

/-- A free region of 256 bytes inside a page: its base is rounded up past its end. -/
theorem pmm_init_leaves_bitmap : ¬ InitSafe (mmapBuild [⟨0x100, 0x100, .free⟩]) := by
  rintro ⟨pmm, heq, -⟩
  have hout : ¬ (⟨0x100, 0x100, .free⟩ : MmapEntry).InBitmap := by
    rw [MmapEntry.inBitmap_iff rfl]
    decide
  rw [pmmInit_none (e := ⟨0x100, 0x100, .free⟩) (by decide) hout] at heq
  cases heq

end OsKernel
