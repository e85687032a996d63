import Mathlib.Algebra.BigOperators.Ring.List
import OsKernel.PmmReserved

/-! # `pmm_init` and the memory map

The map counts its free bytes when an entry is added, and `pmm_init` counts pages when
it clears them.  On a map whose `MMAP_FREE` entries round inwards without wrapping,
`pmm_init` clears exactly the pages inside them.  Its counters are right exactly when no
page lies inside two of them, and entries of the other types play no part: a page that
both kinds claim is clear.
-/
namespace OsKernel

/-- The map `mmap_add_entry` builds from the entries, one after the other. -/
def mmapBuild (adds : List MmapEntry) : MemoryMap :=
  adds.foldl (fun mmap e => mmapAddEntry mmap e.base e.length e.type) mmapInit

/-- The entry does not wrap, and its rounded ends are in order. -/
structure MmapEntry.RoundsInward (e : MmapEntry) : Prop where
  noWrap : e.base.toNat + e.length.toNat ≤ 2 ^ 64 - 4096
  ordered : alignUp e.base pageSize ≤ alignDown (e.base + e.length) pageSize

instance (e : MmapEntry) : Decidable e.RoundsInward :=
  decidable_of_iff
    (e.base.toNat + e.length.toNat ≤ 2 ^ 64 - 4096 ∧
      alignUp e.base pageSize ≤ alignDown (e.base + e.length) pageSize)
    ⟨fun h => ⟨h.1, h.2⟩, fun h => ⟨h.noWrap, h.ordered⟩⟩

/-- All `MMAP_FREE` entries of the map do. -/
def MemoryMap.RoundsInward (mmap : MemoryMap) : Prop :=
  ∀ e ∈ mmap.entries, e.type = .free → e.RoundsInward

instance (mmap : MemoryMap) : Decidable mmap.RoundsInward :=
  inferInstanceAs (Decidable (∀ e ∈ mmap.entries, e.type = .free → e.RoundsInward))

/-- The `MMAP_FREE` entries have no byte in common. -/
def MemoryMap.FreeDisjoint (mmap : MemoryMap) : Prop :=
  mmap.entries.Pairwise fun e e' =>
    e.type = .free → e'.type = .free → ∀ x, e.Contains x → ¬ e'.Contains x

/-- The `MMAP_FREE` entries are whole pages of the simulated memory. -/
def MemoryMap.FreePageAligned (mmap : MemoryMap) : Prop :=
  ∀ e ∈ mmap.entries, e.type = .free → e.base.toNat % 4096 = 0 ∧ e.length.toNat % 4096 = 0 ∧
    e.base.toNat + e.length.toNat ≤ physMemSize.toNat

/-- A map of page-aligned, non-wrapping entries, with any overlaps. -/
structure MemoryMap.PageAligned (mmap : MemoryMap) : Prop where
  aligned : ∀ e ∈ mmap.entries, e.base.toNat % 4096 = 0 ∧ e.length.toNat % 4096 = 0
  noWrap : ∀ e ∈ mmap.entries, e.base.toNat + e.length.toNat < 2 ^ 64

/-- Page `p` and the entry have a byte in common. -/
def MmapEntry.Meets (e : MmapEntry) (p : Nat) : Prop :=
  ∃ x, p * 4096 ≤ x ∧ x < p * 4096 + 4096 ∧ e.Contains x

/-- No `MMAP_FREE` entry overlaps an entry of another type. -/
def MemoryMap.FreeApart (mmap : MemoryMap) : Prop :=
  ∀ e ∈ mmap.entries, ∀ e' ∈ mmap.entries, e.type = .free → e'.type ≠ .free →
    ∀ x, e.Contains x → ¬ e'.Contains x

/-- The bytes of the `MMAP_FREE` entries. -/
def freeBytes (entries : List MmapEntry) : Nat :=
  (entries.map fun e => if e.type = .free then e.length.toNat else 0).sum

variable {mmap : MemoryMap} {e : MmapEntry} {pmm : Pmm}

/-! ## The map's own count -/

theorem mmapAddEntry_totalFree (h : mmap.totalFree = UInt64.ofNat (freeBytes mmap.entries))
    (e : MmapEntry) :
    (mmapAddEntry mmap e.base e.length e.type).totalFree =
      UInt64.ofNat (freeBytes (mmapAddEntry mmap e.base e.length e.type).entries) := by
  unfold mmapAddEntry
  split
  · exact h
  · simp only [freeBytes, List.map_append, List.sum_append, List.map_cons, List.map_nil,
      List.sum_cons, List.sum_nil, Nat.add_zero] at h ⊢
    split
    · rw [h, UInt64.ofNat_add, UInt64.ofNat_toNat]
    · rw [h, Nat.add_zero]

/-- **`total_free`** is the number of bytes of the `MMAP_FREE` entries, modulo `2 ^ 64`. -/
theorem mmapBuild_totalFree (adds : List MmapEntry) :
    (mmapBuild adds).totalFree = UInt64.ofNat (freeBytes (mmapBuild adds).entries) := by
  unfold mmapBuild
  generalize hinit : mmapInit = mmap
  have h : mmap.totalFree = UInt64.ofNat (freeBytes mmap.entries) := by
    rw [← hinit]
    rfl
  clear hinit
  induction adds generalizing mmap with
  | nil => exact h
  | cons e adds ih => exact ih _ (mmapAddEntry_totalFree h e)

/-! ## The pages that are cleared -/

theorem MmapEntry.RoundsInward.regular (h : e.RoundsInward) : e.Regular := by
  have hwrap := h.noWrap
  have hordered := UInt64.le_iff_toNat_le.mp h.ordered
  rw [toNat_alignUp_page (by omega), toNat_alignDown_page, UInt64.toNat_add] at hordered
  exact ⟨hwrap, by omega⟩

theorem MemoryMap.RoundsInward.pmmInit (h : mmap.RoundsInward) :
    ∃ pmm, OsKernel.pmmInit mmap = some pmm ∧ freeSet pmm.bitmap = pagesIn mmap.entries ∧
      pmm.freePages.toNat = (mmap.entries.map (·.pages.card)).sum ∧
      pmm.totalPages = pmm.freePages ∧ pmm.usedPages = 0 :=
  pmmInit_spec fun e he hfree => (h e he hfree).regular

theorem bitmapTest_pagesIn (hset : freeSet pmm.bitmap = pagesIn mmap.entries) {p : Nat}
    (hp : p < pmmMaxPages) : bitmapTest pmm.bitmap p = false ↔ mmap.HasPage p := by
  have hmem : p ∈ freeSet pmm.bitmap ↔ p ∈ pagesIn mmap.entries := by rw [hset]
  rw [mem_freeSet, pagesIn, Finset.mem_filter, Finset.mem_range] at hmem
  simp only [hp, true_and] at hmem
  exact hmem

/-- Whole pages have as many bytes as `mmap_add_entry` counted. -/
theorem sum_card_pages_bytes (h : mmap.FreePageAligned) :
    (mmap.entries.map (·.pages.card)).sum * 4096 = freeBytes mmap.entries := by
  have hone : ∀ e ∈ mmap.entries,
      e.pages.card * 4096 = if e.type = .free then e.length.toNat else 0 := by
    intro e he
    split
    case isTrue hfree =>
      obtain ⟨hbase, hlength, hend⟩ := h e he hfree
      rw [toNat_physMemSize] at hend
      rw [MmapEntry.pages_eq_Ico hfree, Nat.card_Ico]
      omega
    case isFalse hfree =>
      have hempty : e.pages = ∅ := Finset.filter_false_of_mem fun p _ hp => hfree hp.1
      rw [hempty, Finset.card_empty, Nat.zero_mul]
  rw [freeBytes, ← List.map_congr_left hone, List.sum_map_mul_right]

/-- Every entry of `mmap_parse` rounds inwards. -/
theorem mmapParse_roundsInward : ∀ e ∈ mmapParse.entries, e.RoundsInward := by decide

/-- **`pmm_init` is exact.**  On every map that `mmap_add_entry` builds and whose `MMAP_FREE`
entries round inwards, as those of `mmap_parse` do, a page is clear exactly when it lies
inside one of them.  When they are disjoint the counters agree with the bitmap, and when
they are also whole pages of the memory, `total_pages` is the map's own count. -/
theorem pmm_init_exact (adds : List MmapEntry) (h : (mmapBuild adds).RoundsInward) :
    (∀ e ∈ mmapParse.entries, e.RoundsInward) ∧ ∃ pmm, pmmInit (mmapBuild adds) = some pmm ∧
      (∀ p, p < pmmMaxPages → (bitmapTest pmm.bitmap p = false ↔ (mmapBuild adds).HasPage p)) ∧
      ((mmapBuild adds).FreeDisjoint →
        pmm.totalPages = pmm.freePages ∧ pmm.freePages.toNat = (freeSet pmm.bitmap).card ∧
        pmm.usedPages = 0 ∧
        ((mmapBuild adds).FreePageAligned →
          pmm.totalPages.toNat * 4096 = (mmapBuild adds).totalFree.toNat)) := by
  obtain ⟨pmm, heq, hset, hfree, htotal, hused⟩ := h.pmmInit
  refine ⟨mmapParse_roundsInward, pmm, heq, fun p hp => bitmapTest_pagesIn hset hp,
    fun hdisjoint => ?_⟩
  have hcount : pmm.freePages.toNat = (freeSet pmm.bitmap).card := by
    rw [hfree, sum_card_pages hdisjoint, hset]
  refine ⟨htotal, hcount, hused, fun haligned => ?_⟩
  have hbytes := sum_card_pages_bytes haligned
  have hle := card_freeSet_le pmm.bitmap
  rw [← hcount, hfree, pmmMaxPages_eq] at hle
  rw [htotal, hfree, mmapBuild_totalFree, UInt64.toNat_ofNat_of_lt' (show _ < 2 ^ 64 by omega),
    hbytes]

/-- The map of `mmap_parse`. -/
theorem pmm_init_exact_parse :
    ∃ pmm, pmmInit mmapParse = some pmm ∧
      (∀ p, p < pmmMaxPages → (bitmapTest pmm.bitmap p = false ↔ mmapParse.HasPage p)) ∧
      pmm.freePages.toNat = (freeSet pmm.bitmap).card ∧
      pmm.totalPages.toNat * 4096 = mmapParse.totalFree.toNat := by
  have hbuild : mmapBuild mmapParse.entries = mmapParse := rfl
  have hround : (mmapBuild mmapParse.entries).RoundsInward :=
    fun e he _ => mmapParse_roundsInward e he
  have hdisjoint : (mmapBuild mmapParse.entries).FreeDisjoint :=
    mmapParse_wellFormed.disjoint.imp fun hdisj _ _ => hdisj
  have haligned : (mmapBuild mmapParse.entries).FreePageAligned := by
    rw [MemoryMap.FreePageAligned, hbuild]
    decide
  obtain ⟨-, pmm, heq, hclear, hcounts⟩ := pmm_init_exact mmapParse.entries hround
  obtain ⟨-, hfree, -, hbytes⟩ := hcounts hdisjoint
  exact ⟨pmm, heq, hclear, hfree, hbytes haligned⟩

/-! ## Overlapping entries -/

/-- **The counters match the bitmap** after `pmm_init`. -/
def CountersMatch (mmap : MemoryMap) : Prop :=
  ∃ pmm, pmmInit mmap = some pmm ∧ pmm.freePages.toNat = (freeSet pmm.bitmap).card ∧
    pmm.totalPages = pmm.freePages ∧ pmm.freePages.toNat ≤ pmmMaxPages

theorem countersMatch_iff_sum (h : mmap.RoundsInward) :
    CountersMatch mmap ↔
      (mmap.entries.map (·.pages.card)).sum = (pagesIn mmap.entries).card := by
  obtain ⟨pmm, heq, hset, hfree, htotal, -⟩ := h.pmmInit
  constructor
  · rintro ⟨pmm', heq', hcount, -⟩
    obtain rfl := Option.some.inj (heq.symm.trans heq')
    rw [← hfree, hcount, hset]
  · intro hsum
    have hcount : pmm.freePages.toNat = (freeSet pmm.bitmap).card := by rw [hfree, hsum, hset]
    exact ⟨pmm, heq, hcount, htotal, hcount ▸ card_freeSet_le pmm.bitmap⟩

theorem disjoint_pages_iff (e e' : MmapEntry) :
    Disjoint e.pages e'.pages ↔ ∀ p, p < pmmMaxPages → ¬ (e.HasPage p ∧ e'.HasPage p) := by
  simp only [Finset.disjoint_left, MmapEntry.pages, Finset.mem_filter, Finset.mem_range]
  constructor
  · exact fun hdisj p hp hboth => hdisj ⟨hp, hboth.1⟩ ⟨hp, hboth.2⟩
  · exact fun hnot p hp hp' => hnot p hp.1 ⟨hp.2, hp'.2⟩

/-- **When the counters match.**  `pmm_init` counts a page once for every `MMAP_FREE` entry
it lies in, so its counters match the bitmap exactly when no page lies in two of them. -/
theorem pmm_init_counters_iff (mmap : MemoryMap) (h : mmap.RoundsInward) :
    CountersMatch mmap ↔ mmap.entries.Pairwise fun e e' =>
      ∀ p, p < pmmMaxPages → ¬ (e.HasPage p ∧ e'.HasPage p) := by
  rw [countersMatch_iff_sum h, sum_card_pages_iff]
  simp only [disjoint_pages_iff]

theorem pmm_init_counters_iff_parse : CountersMatch mmapParse := by
  have hround : mmapParse.RoundsInward := fun e he _ => mmapParse_roundsInward e he
  apply (pmm_init_counters_iff mmapParse hround).mpr
  apply mmapParse_wellFormed.disjoint.imp
  intro e e' hdisj p _ hboth
  obtain ⟨⟨-, h1, h2⟩, -, h1', h2'⟩ := hboth
  exact hdisj (p * 4096) ⟨h1, by omega⟩ ⟨h1', by omega⟩

/-- One page, reported twice: both counters are 2, and one bit is clear. -/
theorem pmm_init_counts_twice :
    (mmapBuild [⟨0, 4096, .free⟩, ⟨0, 4096, .free⟩]).RoundsInward ∧
      ¬ CountersMatch (mmapBuild [⟨0, 4096, .free⟩, ⟨0, 4096, .free⟩]) := by
  have hround : (mmapBuild [⟨0, 4096, .free⟩, ⟨0, 4096, .free⟩]).RoundsInward := by decide
  refine ⟨hround, fun hmatch => ?_⟩
  have hpairs := (sum_card_pages_iff _).mp ((countersMatch_iff_sum hround).mp hmatch)
  have hfirst := (List.pairwise_cons.mp hpairs).1 ⟨0, 4096, .free⟩ (List.mem_singleton_self _)
  exact (disjoint_pages_iff _ _).mp hfirst 0 (by decide) ⟨by decide, by decide⟩

/-! ## Entries of the other types -/

/-- A page inside an `MMAP_FREE` entry meets no other entry, where the two kinds are apart. -/
theorem MemoryMap.FreeApart.not_hasPage (h : mmap.FreeApart) (he : e ∈ mmap.entries)
    (htype : e.type ≠ .free) {p : Nat} (hmeets : e.Meets p) : ¬ mmap.HasPage p := by
  rintro ⟨e', he', hfree, h1, h2⟩
  obtain ⟨x, hx1, hx2, hx⟩ := hmeets
  exact h e' he' e he hfree htype x ⟨by omega, by omega⟩ hx

/-- **Usable regions decide.**  On every map of page-aligned entries that do not wrap, in
any order and with any overlaps, a page is clear after `pmm_init` exactly when it lies
inside an `MMAP_FREE` entry, whatever other entries it meets.  So where no `MMAP_FREE`
entry overlaps an entry of another type, no page that meets such an entry is clear, and
`pmm_alloc` does not return one. -/
theorem pmm_init_usable_regions (mmap : MemoryMap) (h : mmap.PageAligned) :
    ∃ pmm, pmmInit mmap = some pmm ∧
      (∀ p, p < pmmMaxPages → (bitmapTest pmm.bitmap p = false ↔ mmap.HasPage p)) ∧
      (mmap.FreeApart → ∀ e ∈ mmap.entries, e.type ≠ .free → ∀ p, e.Meets p →
        (p < pmmMaxPages → bitmapTest pmm.bitmap p = true) ∧
        ∀ mem addr s', pmmAlloc ⟨pmm, mem⟩ = (.page addr, s') → addr.toNat / 4096 ≠ p) := by
  obtain ⟨pmm, heq, hset, -⟩ := @pmmInit_spec mmap fun e he _ =>
    MmapEntry.regular_of_aligned (h.aligned e he) (h.noWrap e he)
  refine ⟨pmm, heq, fun p hp => bitmapTest_pagesIn hset hp, ?_⟩
  intro hapart e he htype p hmeets
  have hnot := hapart.not_hasPage he htype hmeets
  constructor
  · intro hp
    rw [← Bool.not_eq_false, bitmapTest_pagesIn hset hp]
    exact hnot
  · rintro mem addr s' halloc rfl
    obtain ⟨p, rfl, htaken⟩ := pmmAlloc_page halloc
    rw [toNat_pageAddr htaken.page_lt.le, mul_page_div] at hnot
    have hclear : bitmapTest pmm.bitmap p = false := (mem_freeSet.mp htaken.mem_free).2
    exact hnot ((bitmapTest_pagesIn hset htaken.page_lt).mp hclear)

theorem mmapParse_freeApart : mmapParse.FreeApart := by
  have hends : ∀ e ∈ mmapParse.entries, ∀ e' ∈ mmapParse.entries,
      e.type = .free → e'.type ≠ .free →
      e.base.toNat + e.length.toNat ≤ e'.base.toNat ∨
        e'.base.toNat + e'.length.toNat ≤ e.base.toNat := by decide
  intro e he e' he' hfree htype x hx hx'
  obtain ⟨h1, h2⟩ := hx
  obtain ⟨h1', h2'⟩ := hx'
  rcases hends e he e' he' hfree htype with hle | hle
  · omega
  · omega

/-- On the map of `mmap_parse`, VGA memory is not clear and not handed out. -/
theorem pmm_init_usable_regions_parse :
    ∃ pmm, pmmInit mmapParse = some pmm ∧ bitmapTest pmm.bitmap 160 = true ∧
      ∀ mem addr s', pmmAlloc ⟨pmm, mem⟩ = (.page addr, s') → addr.toNat / 4096 ≠ 160 := by
  have haligned : mmapParse.PageAligned :=
    ⟨mmapParse_wellFormed.aligned, mmapParse_wellFormed.noWrap⟩
  obtain ⟨pmm, heq, -, hother⟩ := pmm_init_usable_regions mmapParse haligned
  obtain ⟨hused, halloc⟩ := hother mmapParse_freeApart ⟨0x000A0000, 0x00020000, .reserved⟩
    (by decide) (by decide) 160 ⟨655360, by decide, by decide, by decide, by decide⟩
  exact ⟨pmm, heq, hused (by decide), halloc⟩

/-- A page of usable memory that is reported as reserved too is clear. -/
theorem pmm_init_reserved_page_clear :
    (mmapBuild [⟨0, 8192, .free⟩, ⟨4096, 4096, .reserved⟩]).PageAligned ∧
      ∃ pmm, pmmInit (mmapBuild [⟨0, 8192, .free⟩, ⟨4096, 4096, .reserved⟩]) = some pmm ∧
        (⟨4096, 4096, .reserved⟩ : MmapEntry) ∈
          (mmapBuild [⟨0, 8192, .free⟩, ⟨4096, 4096, .reserved⟩]).entries ∧
        (⟨4096, 4096, .reserved⟩ : MmapEntry).Meets 1 ∧ bitmapTest pmm.bitmap 1 = false := by
  have haligned : (mmapBuild [⟨0, 8192, .free⟩, ⟨4096, 4096, .reserved⟩]).PageAligned :=
    ⟨by decide, by decide⟩
  obtain ⟨pmm, heq, hset, -⟩ := pmmInit_spec fun e he _ =>
    MmapEntry.regular_of_aligned (haligned.aligned e he) (haligned.noWrap e he)
  refine ⟨haligned, pmm, heq, by decide, ⟨4096, by decide, by decide, by decide, by decide⟩, ?_⟩
  rw [bitmapTest_pagesIn hset (by decide)]
  decide

end OsKernel
