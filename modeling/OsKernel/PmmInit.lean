import Mathlib.Algebra.Order.BigOperators.Group.List
import OsKernel.PmmAccounting

/-! # What `pmm_init` leaves behind

An entry is rounded inwards to pages, with additions that may wrap.  Where its rounded
ends are in order, the loops of `pmm_init` clear and count the pages between them
(`pmmInitEntry_spec`); where they are not, the page count is a wrapped difference and
the loop runs out of the bitmap (`pmmInitEntry_none`).  On an entry that does not wrap
the pages are those inside it, and on a map of disjoint page-aligned entries the
counters then agree with the bitmap.
-/
namespace OsKernel

/-- Page `p` lies inside the entry, and the entry is usable RAM. -/
def MmapEntry.HasPage (e : MmapEntry) (p : Nat) : Prop :=
  e.type = .free ∧ e.base.toNat ≤ p * 4096 ∧ p * 4096 + 4096 ≤ e.base.toNat + e.length.toNat

instance (e : MmapEntry) (p : Nat) : Decidable (e.HasPage p) :=
  inferInstanceAs (Decidable (_ ∧ _ ∧ _))

/-- Page `p` lies inside an `MMAP_FREE` entry of the map. -/
def MemoryMap.HasPage (mmap : MemoryMap) (p : Nat) : Prop := ∃ e ∈ mmap.entries, e.HasPage p

instance (mmap : MemoryMap) (p : Nat) : Decidable (mmap.HasPage p) :=
  inferInstanceAs (Decidable (∃ e ∈ mmap.entries, e.HasPage p))

/-- The entry neither wraps nor vanishes when it is rounded to pages. -/
structure MmapEntry.Regular (e : MmapEntry) : Prop where
  noWrap : e.base.toNat + e.length.toNat ≤ 2 ^ 64 - 4096
  spans : (e.base.toNat + 4095) / 4096 ≤ (e.base.toNat + e.length.toNat) / 4096

/-- The pages of the simulated memory that lie inside the entry. -/
def MmapEntry.pages (e : MmapEntry) : Finset Nat :=
  (Finset.range pmmMaxPages).filter e.HasPage

variable {pmm pmm' pmm'' : Pmm} {e : MmapEntry}

/-- From `pmm` to `pmm'`, the pages `P` were cleared and `k` pages counted. -/
structure Cleared (P : Finset Nat) (k : Nat) (pmm pmm' : Pmm) : Prop where
  freeSet : freeSet pmm'.bitmap = freeSet pmm.bitmap ∪ P
  freePages : pmm'.freePages = pmm.freePages + UInt64.ofNat k
  totalPages : pmm'.totalPages = pmm.totalPages + UInt64.ofNat k

theorem Cleared.refl (pmm : Pmm) : Cleared ∅ 0 pmm pmm := ⟨by simp, by simp, by simp⟩

theorem Cleared.trans {P P' : Finset Nat} {k k' : Nat} (h : Cleared P k pmm pmm')
    (h' : Cleared P' k' pmm' pmm'') : Cleared (P ∪ P') (k + k') pmm pmm'' where
  freeSet := by rw [h'.freeSet, h.freeSet, Finset.union_assoc]
  freePages := by rw [h'.freePages, h.freePages, UInt64.ofNat_add, UInt64.add_assoc]
  totalPages := by rw [h'.totalPages, h.totalPages, UInt64.ofNat_add, UInt64.add_assoc]

/-! ## One entry -/

/-- The body of the inner loop clears and counts one page. -/
theorem pmmInitPage_spec (pmm : Pmm) {page : UInt64} (hpage : page.toNat < pmmMaxPages) :
    ∃ pmm', pmmInitPage pmm page = some pmm' ∧ Cleared {page.toNat} 1 pmm pmm' := by
  refine ⟨_, if_pos hpage, ?_, rfl, rfl⟩
  rw [freeSet_bitmapClear hpage, Finset.insert_eq, Finset.union_comm]

/-- Clearing a stretch of pages, one after the other. -/
theorem foldlM_pmmInitPage (pmm : Pmm) (first : UInt64) (k : Nat)
    (hk : first.toNat + k ≤ pmmMaxPages) :
    ∃ pmm', (List.range k).foldlM (fun pmm p => pmmInitPage pmm (first + UInt64.ofNat p)) pmm =
        some pmm' ∧
      Cleared (Finset.Ico first.toNat (first.toNat + k)) k pmm pmm' := by
  induction k with
  | zero => exact ⟨pmm, rfl, by simpa using Cleared.refl pmm⟩
  | succ k ih =>
    obtain ⟨q, hq, hcleared⟩ := ih (by omega)
    have hpage : (first + UInt64.ofNat k).toNat = first.toNat + k := by
      rw [pmmMaxPages_eq] at hk
      rw [UInt64.toNat_add, UInt64.toNat_ofNat']
      omega
    obtain ⟨r, hr, hone⟩ := @pmmInitPage_spec q (first + UInt64.ofNat k) (by omega)
    refine ⟨r, ?_, ?_⟩
    · rw [List.range_succ, List.foldlM_append, hq]
      simpa using hr
    · have hboth := hcleared.trans hone
      rw [hpage, Finset.union_comm, ← Finset.insert_eq,
        ← Nat.Ico_succ_right_eq_insert_Ico (Nat.le_add_right _ _)] at hboth
      exact hboth

/-- A loop that runs past the last page leaves the bitmap. -/
theorem foldlM_pmmInitPage_none (pmm : Pmm) {first : UInt64} {k : Nat}
    (hfirst : first.toNat ≤ pmmMaxPages) (hk : pmmMaxPages < first.toNat + k) :
    (List.range k).foldlM (fun pmm p => pmmInitPage pmm (first + UInt64.ofNat p)) pmm = none := by
  obtain ⟨q, hq, -⟩ := foldlM_pmmInitPage pmm first (pmmMaxPages - first.toNat) (by omega)
  have hturn : ¬ (first + UInt64.ofNat (pmmMaxPages - first.toNat)).toNat < pmmMaxPages := by
    rw [pmmMaxPages_eq] at *
    rw [UInt64.toNat_add, UInt64.toNat_ofNat']
    omega
  -- the turns before page `PMM_MAX_PAGES`, this page, and the rest
  have hsplit : List.range k = List.range (pmmMaxPages - first.toNat) ++
      (pmmMaxPages - first.toNat) ::
        (List.range (k - (pmmMaxPages - first.toNat) - 1)).map
          (fun j => pmmMaxPages - first.toNat + (j + 1)) := by
    obtain ⟨j, hj⟩ : ∃ j, k = (pmmMaxPages - first.toNat) + (j + 1) :=
      ⟨k - (pmmMaxPages - first.toNat) - 1, by omega⟩
    rw [hj, List.range_add, List.range_succ_eq_map, Nat.add_sub_cancel_left, Nat.add_sub_cancel]
    simp [Function.comp_def]
  rw [hsplit, List.foldlM_append, hq]
  simp only [Option.bind_eq_bind, Option.bind_some, List.foldlM_cons]
  rw [pmmInitPage, if_neg hturn]
  rfl

/-- The first page `pmm_init` clears for an entry: its base is rounded up, modulo
`2 ^ 64`. -/
def MmapEntry.firstPage (e : MmapEntry) : Nat := (e.base.toNat + 4095) % 2 ^ 64 / 4096

/-- The page before which it stops: the end is rounded down, modulo `2 ^ 64`. -/
def MmapEntry.stopPage (e : MmapEntry) : Nat := (e.base.toNat + e.length.toNat) % 2 ^ 64 / 4096

/-- The pages `pmm_init` clears for an entry. -/
def MmapEntry.cleared (e : MmapEntry) : Finset Nat :=
  if e.type = .free then Finset.Ico e.firstPage (min pmmMaxPages e.stopPage) else ∅

/-- The page count of the entry is not the wrapped difference of its rounded ends. -/
def MmapEntry.InBitmap (e : MmapEntry) : Prop :=
  e.type = .free → pmmMaxPages ≤ e.firstPage ∨ e.firstPage ≤ e.stopPage

theorem MmapEntry.toNat_base (e : MmapEntry) :
    (alignUp e.base pageSize).toNat = e.firstPage * 4096 := toNat_alignUp_page_mod e.base

theorem MmapEntry.toNat_end (e : MmapEntry) :
    (alignDown (e.base + e.length) pageSize).toNat = e.stopPage * 4096 := by
  rw [toNat_alignDown_page, UInt64.toNat_add]
  rfl

/-- The end, clamped to the simulated memory. -/
theorem MmapEntry.toNat_top (e : MmapEntry) :
    (if physMemSize < alignDown (e.base + e.length) pageSize then physMemSize
      else alignDown (e.base + e.length) pageSize).toNat =
      min pmmMaxPages e.stopPage * 4096 := by
  have hend := e.toNat_end
  rw [pmmMaxPages_eq]
  split
  case isTrue h =>
    rw [UInt64.lt_iff_toNat_lt, hend, toNat_physMemSize] at h
    rw [toNat_physMemSize]
    omega
  case isFalse h =>
    rw [UInt64.lt_iff_toNat_lt, hend, toNat_physMemSize] at h
    rw [hend]
    omega

theorem MmapEntry.firstPage_lt {e : MmapEntry} (h : ¬ physMemSize ≤ alignUp e.base pageSize) :
    e.firstPage < pmmMaxPages := by
  rw [UInt64.le_iff_toNat_le, e.toNat_base, toNat_physMemSize] at h
  rw [pmmMaxPages_eq]
  omega

/-- The inner loop of `pmm_init`, on an entry it does not skip. -/
theorem pmmInitEntry_loop (pmm : Pmm) (hfree : e.type = .free)
    (hlt : ¬ physMemSize ≤ alignUp e.base pageSize) :
    ∃ first : UInt64, first.toNat = e.firstPage ∧ pmmInitEntry pmm e =
      (List.range ((min pmmMaxPages e.stopPage * 4096 + 2 ^ 64 - e.firstPage * 4096) %
        2 ^ 64 / 4096)).foldlM
          (fun pmm p => pmmInitPage pmm (first + UInt64.ofNat p)) pmm := by
  refine ⟨alignUp e.base pageSize / pageSize, ?_, ?_⟩
  · rw [toNat_page, e.toNat_base, mul_page_div]
  · have hfirst := e.firstPage_lt hlt
    have hpages : (((if physMemSize < alignDown (e.base + e.length) pageSize then physMemSize
        else alignDown (e.base + e.length) pageSize) - alignUp e.base pageSize) / pageSize).toNat =
        (min pmmMaxPages e.stopPage * 4096 + 2 ^ 64 - e.firstPage * 4096) % 2 ^ 64 / 4096 := by
      rw [pmmMaxPages_eq] at hfirst
      rw [toNat_page, UInt64.toNat_sub, e.toNat_top, e.toNat_base, pmmMaxPages_eq]
      omega
    rw [← hpages, pmmInitEntry, if_neg (not_not.mpr hfree)]
    simp only [if_neg hlt]

/-- The pages of an entry of usable RAM are those between the two. -/
theorem MmapEntry.pages_eq_Ico (hfree : e.type = .free) :
    e.pages = Finset.Ico ((e.base.toNat + 4095) / 4096)
      (min 16384 ((e.base.toNat + e.length.toNat) / 4096)) := by
  ext p
  rw [Finset.mem_Ico, MmapEntry.pages, Finset.mem_filter, Finset.mem_range, pmmMaxPages_eq]
  constructor
  · rintro ⟨h1, -, h2, h3⟩
    omega
  · intro h
    exact ⟨by omega, hfree, by omega, by omega⟩

/-- **One entry.**  It has exactly the pages from its first to its last one cleared and
counted. -/
theorem pmmInitEntry_spec (pmm : Pmm) (he : e.InBitmap) :
    ∃ pmm', pmmInitEntry pmm e = some pmm' ∧ Cleared e.cleared e.cleared.card pmm pmm' := by
  by_cases hfree : e.type = .free
  case neg =>
    rw [MmapEntry.cleared, if_neg hfree, pmmInitEntry, if_pos hfree]
    exact ⟨pmm, rfl, .refl pmm⟩
  rw [MmapEntry.cleared, if_pos hfree, Nat.card_Ico]
  by_cases hout : physMemSize ≤ alignUp e.base pageSize
  · have hbase := UInt64.le_iff_toNat_le.mp hout
    rw [e.toNat_base, toNat_physMemSize] at hbase
    have hskip : pmmInitEntry pmm e = some pmm := by
      rw [pmmInitEntry, if_neg (not_not.mpr hfree)]
      exact if_pos hout
    have hstop : min pmmMaxPages e.stopPage ≤ e.firstPage := by
      rw [pmmMaxPages_eq]
      omega
    rw [Finset.Ico_eq_empty_of_le hstop, Nat.sub_eq_zero_of_le hstop]
    exact ⟨pmm, hskip, .refl pmm⟩
  · have hlt := e.firstPage_lt hout
    have hle : e.firstPage ≤ min pmmMaxPages e.stopPage := by
      rcases he hfree with hbeyond | hle
      · omega
      · omega
    obtain ⟨first, hfirst, hloop⟩ := pmmInitEntry_loop pmm hfree hout
    have hcount : (min pmmMaxPages e.stopPage * 4096 + 2 ^ 64 - e.firstPage * 4096) % 2 ^ 64 /
        4096 = min pmmMaxPages e.stopPage - e.firstPage := by
      rw [pmmMaxPages_eq] at *
      omega
    rw [hcount] at hloop
    obtain ⟨pmm', heq, hcleared⟩ := foldlM_pmmInitPage pmm first
      (min pmmMaxPages e.stopPage - e.firstPage) (by omega)
    rw [hfirst, Nat.add_sub_cancel' hle] at hcleared
    exact ⟨pmm', hloop.trans heq, hcleared⟩

/-- An entry whose rounded ends are in the wrong order makes `pmm_init` leave the bitmap. -/
theorem pmmInitEntry_none (pmm : Pmm) (he : ¬ e.InBitmap) : pmmInitEntry pmm e = none := by
  rw [MmapEntry.InBitmap, Classical.not_imp, not_or, Nat.not_le, Nat.not_le] at he
  obtain ⟨hfree, hlt, hstop⟩ := he
  have hout : ¬ physMemSize ≤ alignUp e.base pageSize := by
    rw [pmmMaxPages_eq] at hlt
    rw [UInt64.le_iff_toNat_le, e.toNat_base, toNat_physMemSize]
    omega
  obtain ⟨first, hfirst, hloop⟩ := pmmInitEntry_loop pmm hfree hout
  rw [hloop]
  rw [pmmMaxPages_eq] at hlt
  apply foldlM_pmmInitPage_none
  · rw [hfirst, pmmMaxPages_eq]
    exact hlt.le
  · rw [hfirst, pmmMaxPages_eq]
    omega

/-- The pages of a regular entry are those inside it. -/
theorem MmapEntry.cleared_eq_pages (he : e.type = .free → e.Regular) : e.cleared = e.pages := by
  by_cases hfree : e.type = .free
  · have hwrap := (he hfree).noWrap
    rw [MmapEntry.cleared, if_pos hfree, MmapEntry.pages_eq_Ico hfree, pmmMaxPages_eq,
      MmapEntry.firstPage, MmapEntry.stopPage, Nat.mod_eq_of_lt (show _ < 2 ^ 64 by omega),
      Nat.mod_eq_of_lt (show e.base.toNat + e.length.toNat < 2 ^ 64 by omega)]
  · rw [MmapEntry.cleared, if_neg hfree]
    exact (Finset.filter_false_of_mem fun p _ h => hfree h.1).symm

/-- A page-aligned entry that does not wrap is regular. -/
theorem MmapEntry.regular_of_aligned
    (haligned : e.base.toNat % 4096 = 0 ∧ e.length.toNat % 4096 = 0)
    (hwrap : e.base.toNat + e.length.toNat < 2 ^ 64) : e.Regular := ⟨by omega, by omega⟩

theorem MmapEntry.Regular.inBitmap (he : e.Regular) : e.InBitmap := by
  have hwrap := he.noWrap
  have hspan := he.spans
  intro _
  right
  rw [MmapEntry.firstPage, MmapEntry.stopPage, Nat.mod_eq_of_lt (show _ < 2 ^ 64 by omega),
    Nat.mod_eq_of_lt (show e.base.toNat + e.length.toNat < 2 ^ 64 by omega)]
  exact hspan

/-! ## The whole map -/

/-- **The outer loop.**  It ends when it stays in the bitmap, with the pages of every entry
cleared, and counted once for every entry they are cleared for. -/
theorem foldlM_pmmInitEntry {entries : List MmapEntry} (hin : ∀ e ∈ entries, e.InBitmap)
    (pmm : Pmm) :
    ∃ pmm', entries.foldlM pmmInitEntry pmm = some pmm' ∧
      Cleared (entries.toFinset.biUnion MmapEntry.cleared) (entries.map (·.cleared.card)).sum
        pmm pmm' := by
  induction entries generalizing pmm with
  | nil => exact ⟨pmm, rfl, .refl pmm⟩
  | cons e entries ih =>
    obtain ⟨q, hq, hcleared⟩ := pmmInitEntry_spec pmm (hin e List.mem_cons_self)
    obtain ⟨r, hr, hcleared'⟩ := ih (fun e' he' => hin e' (List.mem_cons_of_mem e he')) q
    refine ⟨r, by rw [List.foldlM_cons, hq]; exact hr, ?_⟩
    rw [List.toFinset_cons, Finset.biUnion_insert, List.map_cons, List.sum_cons]
    exact hcleared.trans hcleared'

/-- One entry that leaves the bitmap is enough. -/
theorem foldlM_pmmInitEntry_none {entries : List MmapEntry} (he : e ∈ entries)
    (hout : ¬ e.InBitmap) (pmm : Pmm) : entries.foldlM pmmInitEntry pmm = none := by
  induction entries generalizing pmm with
  | nil => exact absurd he List.not_mem_nil
  | cons e' entries ih =>
    rw [List.foldlM_cons]
    by_cases hin : e'.InBitmap
    · obtain ⟨q, hq, -⟩ := pmmInitEntry_spec pmm hin
      rw [hq]
      rcases List.mem_cons.mp he with rfl | he
      · exact absurd hin hout
      · exact ih he q
    · rw [pmmInitEntry_none pmm hin]
      rfl

/-- **What `pmm_init` leaves behind** when it stays in the bitmap. -/
theorem pmmInit_inBitmap {mmap : MemoryMap} (hin : ∀ e ∈ mmap.entries, e.InBitmap) :
    ∃ pmm, pmmInit mmap = some pmm ∧
      freeSet pmm.bitmap = mmap.entries.toFinset.biUnion MmapEntry.cleared ∧
      pmm.freePages = UInt64.ofNat (mmap.entries.map (·.cleared.card)).sum ∧
      pmm.totalPages = pmm.freePages ∧ pmm.usedPages = 0 := by
  obtain ⟨q, hq, ⟨hset, hfree, htotal⟩⟩ := foldlM_pmmInitEntry hin
    { bitmap := Vector.replicate _ 0xFF, totalPages := 0, freePages := 0, usedPages := 0 }
  simp only [freeSet_all_used, Finset.empty_union, UInt64.zero_add] at hset hfree htotal
  exact ⟨{ q with usedPages := 0 }, by rw [pmmInit, hq]; rfl, hset, hfree,
    htotal.trans hfree.symm, rfl⟩

theorem pmmInit_none {mmap : MemoryMap} (he : e ∈ mmap.entries) (hout : ¬ e.InBitmap) :
    pmmInit mmap = none := by
  rw [pmmInit, foldlM_pmmInitEntry_none he hout]
  rfl

/-- The pages of the simulated memory that lie inside one of the entries. -/
def pagesIn (entries : List MmapEntry) : Finset Nat :=
  (Finset.range pmmMaxPages).filter (fun p => ∃ e ∈ entries, e.HasPage p)

theorem pagesIn_cons (e : MmapEntry) (entries : List MmapEntry) :
    pagesIn (e :: entries) = e.pages ∪ pagesIn entries := by
  ext p
  simp only [pagesIn, MmapEntry.pages, List.exists_mem_cons_iff, Finset.mem_filter,
    Finset.mem_union, and_or_left]

theorem pagesIn_eq_biUnion (entries : List MmapEntry) :
    pagesIn entries = entries.toFinset.biUnion MmapEntry.pages := by
  ext p
  simp only [pagesIn, MmapEntry.pages, Finset.mem_biUnion, List.mem_toFinset, Finset.mem_filter]
  exact ⟨fun ⟨hp, e, he, hpage⟩ => ⟨e, he, hp, hpage⟩, fun ⟨e, he, hp, hpage⟩ => ⟨hp, e, he, hpage⟩⟩

/-- The table is short enough for the counters not to wrap. -/
theorem MemoryMap.sum_card_pages_lt (mmap : MemoryMap) :
    (mmap.entries.map (·.pages.card)).sum < 2 ^ 64 := by
  have hsum : (mmap.entries.map (·.pages.card)).sum ≤
      (mmap.entries.map (·.pages.card)).length * pmmMaxPages := by
    apply List.sum_le_card_nsmul _ pmmMaxPages
    intro k hk
    obtain ⟨e, -, rfl⟩ := List.mem_map.mp hk
    exact (Finset.card_filter_le _ _).trans (Finset.card_range _).le
  have hlen := mmap.bounded
  rw [List.length_map, pmmMaxPages_eq] at hsum
  rw [mmapMaxEntries] at hlen
  omega

/-- **What `pmm_init` leaves behind** on regular entries: the pages inside an entry are
clear, and counted once for every entry they lie in. -/
theorem pmmInit_spec {mmap : MemoryMap}
    (hreg : ∀ e ∈ mmap.entries, e.type = .free → e.Regular) :
    ∃ pmm, pmmInit mmap = some pmm ∧ freeSet pmm.bitmap = pagesIn mmap.entries ∧
      pmm.freePages.toNat = (mmap.entries.map (·.pages.card)).sum ∧
      pmm.totalPages = pmm.freePages ∧ pmm.usedPages = 0 := by
  have hpages : ∀ e ∈ mmap.entries, e.cleared = e.pages :=
    fun e he => MmapEntry.cleared_eq_pages (hreg e he)
  obtain ⟨pmm, heq, hset, hfree, htotal, hused⟩ := @pmmInit_inBitmap mmap
    fun e he hfree => (hreg e he hfree).inBitmap hfree
  refine ⟨pmm, heq, ?_, ?_, htotal, hused⟩
  · rw [hset, pagesIn_eq_biUnion]
    exact Finset.biUnion_congr rfl fun e he => hpages e (List.mem_toFinset.mp he)
  · have hcards : mmap.entries.map (·.cleared.card) = mmap.entries.map (·.pages.card) :=
      List.map_congr_left fun e he => congrArg Finset.card (hpages e he)
    rw [hfree, hcards]
    exact UInt64.toNat_ofNat_of_lt' mmap.sum_card_pages_lt

/-- Byte `x` belongs to the entry. -/
def MmapEntry.Contains (e : MmapEntry) (x : Nat) : Prop :=
  e.base.toNat ≤ x ∧ x < e.base.toNat + e.length.toNat

/-- A map of page-aligned, non-wrapping, pairwise disjoint entries. -/
structure MemoryMap.WellFormed (mmap : MemoryMap) : Prop where
  aligned : ∀ e ∈ mmap.entries, e.base.toNat % 4096 = 0 ∧ e.length.toNat % 4096 = 0
  noWrap : ∀ e ∈ mmap.entries, e.base.toNat + e.length.toNat < 2 ^ 64
  disjoint : mmap.entries.Pairwise fun e e' => ∀ x, e.Contains x → ¬ e'.Contains x

theorem card_pagesIn_le (entries : List MmapEntry) :
    (pagesIn entries).card ≤ (entries.map (·.pages.card)).sum := by
  induction entries with
  | nil => simp [pagesIn]
  | cons e entries ih =>
    rw [pagesIn_cons, List.map_cons, List.sum_cons]
    exact (Finset.card_union_le _ _).trans (Nat.add_le_add_left ih _)

theorem disjoint_pagesIn_iff (e : MmapEntry) (entries : List MmapEntry) :
    Disjoint e.pages (pagesIn entries) ↔ ∀ e' ∈ entries, Disjoint e.pages e'.pages := by
  induction entries with
  | nil => simp [pagesIn]
  | cons e' entries ih => rw [pagesIn_cons, Finset.disjoint_union_right, ih, List.forall_mem_cons]

/-- Every page is counted once exactly when no two entries share a page. -/
theorem sum_card_pages_iff (entries : List MmapEntry) :
    (entries.map (·.pages.card)).sum = (pagesIn entries).card ↔
      entries.Pairwise fun e e' => Disjoint e.pages e'.pages := by
  induction entries with
  | nil => simp [pagesIn]
  | cons e entries ih =>
    rw [List.map_cons, List.sum_cons, pagesIn_cons, List.pairwise_cons, ← ih,
      ← disjoint_pagesIn_iff, ← Finset.card_union_eq_card_add_card]
    have hle := card_pagesIn_le entries
    have hunion := Finset.card_union_le e.pages (pagesIn entries)
    omega

/-- Disjoint entries share no page, so every page is counted once. -/
theorem sum_card_pages {entries : List MmapEntry} (h : entries.Pairwise fun e e' =>
      e.type = .free → e'.type = .free → ∀ x, e.Contains x → ¬ e'.Contains x) :
    (entries.map (·.pages.card)).sum = (pagesIn entries).card := by
  rw [sum_card_pages_iff]
  apply h.imp
  intro e e' hdisj
  rw [Finset.disjoint_left]
  intro p hp hp'
  obtain ⟨-, hfree, h1, h2⟩ := Finset.mem_filter.mp hp
  obtain ⟨-, hfree', h1', h2'⟩ := Finset.mem_filter.mp hp'
  exact hdisj hfree hfree' (p * 4096) ⟨h1, by omega⟩ ⟨h1', by omega⟩

/-- **`pmm_init` on a well-formed map** clears exactly the pages of its `MMAP_FREE`
entries, and its counters agree. -/
theorem pmmInit_wellFormed {mmap : MemoryMap} (h : mmap.WellFormed) :
    ∃ pmm, pmmInit mmap = some pmm ∧ freeSet pmm.bitmap = pagesIn mmap.entries ∧
      Accounted pmm ∧ pmm.totalPages = pmm.freePages := by
  have hreg : ∀ e ∈ mmap.entries, e.type = .free → e.Regular :=
    fun e he _ => MmapEntry.regular_of_aligned (h.aligned e he) (h.noWrap e he)
  obtain ⟨pmm, heq, hset, hfree, htotal, hused⟩ := pmmInit_spec hreg
  rw [sum_card_pages (h.disjoint.imp fun hdisj _ _ => hdisj), ← hset] at hfree
  exact ⟨pmm, heq, hset, ⟨hfree, by rw [hused, htotal, UInt64.add_zero]⟩, htotal⟩

end OsKernel
