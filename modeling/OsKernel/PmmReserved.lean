import OsKernel.PmmInit

/-! # Reserved memory

The bitmap has one value for "allocated" and for "not RAM", and `pmm_free` does not
know which of the two a set bit means: it rejects addresses that are misaligned,
out of range or already free, and nothing else.  So reserved memory stays reserved
exactly as long as no call frees a page outside the `MMAP_FREE` entries of the map.
-/
namespace OsKernel

/-- The call frees no page of the simulated memory outside the `MMAP_FREE` entries. -/
def FreesOnlyRam (mmap : MemoryMap) : PmmOp → Prop
  | .alloc => True
  | .allocN _ => True
  | .free addr => ∀ p, p < pmmMaxPages → addr = pageAddr p → mmap.HasPage p
  | .freeN addr n => ∀ i, i < n.toNat → ∀ p, p < pmmMaxPages →
      addr + UInt64.ofNat i * pageSize = pageAddr p → mmap.HasPage p

/-- What the map's reserved memory promises in a state: no page outside the
`MMAP_FREE` entries is reported free or about to be returned by an allocator, and
neither counter exceeds `total_pages`. -/
structure ReservedOk (mmap : MemoryMap) (s : PhysState) : Prop where
  isFree : ∀ addr, pmmIsFree s.pmm addr = true → mmap.HasPage (addr.toNat / 4096)
  alloc : ∀ addr s', pmmAlloc s = (.page addr, s') → mmap.HasPage (addr.toNat / 4096)
  allocN : ∀ n addr s', pmmAllocN s n = (.page addr, s') →
    ∀ i, i < n.toNat → mmap.HasPage (addr.toNat / 4096 + i)
  used_le : s.pmm.usedPages ≤ s.pmm.totalPages
  free_le : s.pmm.freePages ≤ s.pmm.totalPages

/-- The invariant behind it: only pages of the map are free, and `total_pages` is
their number. -/
structure RamOnly (mmap : MemoryMap) (pmm : Pmm) : Prop where
  free_sub : freeSet pmm.bitmap ⊆ pagesIn mmap.entries
  accounted : Accounted pmm
  total : pmm.totalPages.toNat = (pagesIn mmap.entries).card

variable {mmap : MemoryMap} {s : PhysState} {pmm : Pmm}

theorem RamOnly.hasPage (h : RamOnly mmap pmm) {p : Nat} (hp : p ∈ freeSet pmm.bitmap) :
    mmap.HasPage p :=
  (Finset.mem_filter.mp (h.free_sub hp)).2

theorem RamOnly.reservedOk (h : RamOnly mmap s.pmm) : ReservedOk mmap s := by
  have hle : s.pmm.freePages.toNat ≤ s.pmm.totalPages.toNat := by
    rw [h.accounted.free, h.total]
    exact Finset.card_le_card h.free_sub
  constructor
  · exact fun addr haddr => h.hasPage ((pmmIsFree_iff _ _).mp haddr)
  · intro addr s' heq
    obtain ⟨p, rfl, htaken⟩ := pmmAlloc_page heq
    rw [toNat_pageAddr htaken.page_lt.le, mul_page_div]
    exact h.hasPage htaken.mem_free
  · intro n addr s' heq i hi
    obtain ⟨p, rfl, hp, htaken⟩ := pmmAllocN_page heq
    rw [toNat_pageAddr (by omega), mul_page_div]
    exact h.hasPage (htaken.free (Finset.mem_Ico.mpr (by omega)))
  · -- `used_pages` is what is missing from `total_pages`
    have hused : s.pmm.usedPages = s.pmm.totalPages - s.pmm.freePages := by
      rw [← h.accounted.total]
      grind
    rw [hused, UInt64.le_iff_toNat_le, UInt64.toNat_sub_of_le _ _ (UInt64.le_iff_toNat_le.mpr hle)]
    omega
  · exact UInt64.le_iff_toNat_le.mpr hle

/-! ## What a call preserves, and what breaks the promise -/

theorem RamOnly.free (h : RamOnly mmap pmm) {addr : Paddr}
    (hram : ∀ p, p < pmmMaxPages → addr = pageAddr p → mmap.HasPage p) :
    RamOnly mmap (pmmFree pmm addr) := by
  rcases pmmFree_cases pmm addr with ⟨heq, -⟩ | ⟨p, hp, hrel⟩
  · rw [heq]
    exact h
  · refine ⟨?_, hrel.accounted h.accounted, by rw [hrel.totalPages_eq, h.total]⟩
    rw [hrel.freeSet_eq]
    refine Finset.insert_subset ?_ h.free_sub
    exact Finset.mem_filter.mpr ⟨Finset.mem_range.mpr hrel.lt, hram p hrel.lt hp⟩

theorem RamOnly.take {s' : PhysState} {P : Finset Nat} (h : RamOnly mmap s.pmm)
    (ht : Taken s P s') : RamOnly mmap s'.pmm where
  free_sub := by
    rw [ht.freeSet_eq]
    exact Finset.sdiff_subset.trans h.free_sub
  accounted := ht.accounted h.accounted
  total := by rw [ht.totalPages_eq, h.total]

/-- A call that frees only RAM keeps the invariant. -/
theorem RamOnly.step (h : RamOnly mmap s.pmm) {op : PmmOp} (hop : FreesOnlyRam mmap op) :
    RamOnly mmap (pmmStep s op).pmm := by
  cases op with
  | alloc =>
    rcases pmmAlloc_outcome s with ⟨why, heq⟩ | ⟨p, s', heq, -, htaken⟩
    · rw [pmmStep, heq]; exact h
    · rw [pmmStep, heq]; exact h.take htaken
  | allocN n =>
    rcases pmmAllocN_outcome s n with ⟨why, heq⟩ | ⟨p, s', heq, -, htaken⟩
    · rw [pmmStep, heq]; exact h
    · rw [pmmStep, heq]; exact h.take htaken
  | free addr => exact h.free hop
  | freeN addr n =>
    exact pmmFreeN_induction (RamOnly mmap) h addr n fun _ i hi hq => hq.free (hop i hi)

/-- A call that frees a page outside the map's RAM breaks the promise. -/
theorem not_reservedOk_of_not_freesOnlyRam (s : PhysState) {op : PmmOp}
    (hop : ¬ FreesOnlyRam mmap op) : ¬ ReservedOk mmap (pmmStep s op) := by
  -- it is enough that some page outside the map's RAM is clear after the call
  have hbad : ∀ {t : PhysState} {p : Nat}, p ∈ freeSet t.pmm.bitmap → ¬ mmap.HasPage p →
      ¬ ReservedOk mmap t := by
    intro t p hp hnot hok
    have hdiv : (pageAddr p).toNat / 4096 = p := by
      rw [toNat_pageAddr (freeSet_lt hp).le, mul_page_div]
    have hfree := hok.isFree (pageAddr p) ((pmmIsFree_iff _ _).mpr (by rw [hdiv]; exact hp))
    rw [hdiv] at hfree
    exact hnot hfree
  cases op with
  | alloc => exact absurd trivial hop
  | allocN n => exact absurd trivial hop
  | free addr =>
    simp only [FreesOnlyRam, not_forall] at hop
    obtain ⟨p, hp, rfl, hnot⟩ := hop
    exact hbad ((mem_freeSet_pmmFree s.pmm _).mpr (Or.inr ⟨hp, rfl⟩)) hnot
  | freeN addr n =>
    simp only [FreesOnlyRam, not_forall] at hop
    obtain ⟨i, hi, p, hp, haddr, hnot⟩ := hop
    have hclear : p ∈ freeSet (pmmFreeN s.pmm addr n).bitmap := by
      rw [pmmFreeN_eq_foldl, mem_freeSet_foldl_pmmFree]
      exact Or.inr ⟨hp, List.mem_map.mpr ⟨i, List.mem_range.mpr hi, haddr⟩⟩
    exact hbad (t := pmmStep s (.freeN addr n)) hclear hnot

/-- Over a whole run: the promise holds in every state reached exactly when every
call frees only RAM. -/
theorem RamOnly.run (h : RamOnly mmap s.pmm) (ops : List PmmOp) :
    (∀ calls, calls <+: ops → ReservedOk mmap (calls.foldl pmmStep s)) ↔
      ∀ op ∈ ops, FreesOnlyRam mmap op := by
  induction ops generalizing s with
  | nil =>
    refine ⟨fun _ op hop => absurd hop List.not_mem_nil, fun _ calls hcalls => ?_⟩
    rw [List.prefix_nil.mp hcalls]
    exact h.reservedOk
  | cons op ops ih =>
    constructor
    · intro hall
      have hop : FreesOnlyRam mmap op := by
        by_contra hnot
        exact not_reservedOk_of_not_freesOnlyRam s hnot (hall [op] (by simp))
      have hrest := (ih (h.step hop)).mp fun calls hcalls =>
        hall (op :: calls) (List.cons_prefix_cons.mpr ⟨rfl, hcalls⟩)
      intro op' hop'
      rcases List.mem_cons.mp hop' with rfl | hop'
      · exact hop
      · exact hrest op' hop'
    · intro hram calls hcalls
      cases calls with
      | nil => exact h.reservedOk
      | cons op' calls =>
        obtain ⟨rfl, hrest⟩ := List.cons_prefix_cons.mp hcalls
        refine (ih (h.step (hram op' List.mem_cons_self))).mpr ?_ calls hrest
        exact fun op hop => hram op (List.mem_cons_of_mem op' hop)

theorem pmmInit_ramOnly (h : mmap.WellFormed) :
    ∃ pmm, pmmInit mmap = some pmm ∧ RamOnly mmap pmm := by
  obtain ⟨pmm, heq, hset, hacc, htotal⟩ := pmmInit_wellFormed h
  exact ⟨pmm, heq, by rw [hset], hacc, by rw [htotal, hacc.free, hset]⟩

/-- **When reserved memory stays reserved.**  On every well-formed map `pmm_init`
succeeds, and after it, whatever the memory holds, a run of calls keeps the
promise in every state it reaches if and only if none of its calls frees a page
outside the `MMAP_FREE` entries. -/
theorem reserved_kept_iff (h : mmap.WellFormed) :
    ∃ pmm, pmmInit mmap = some pmm ∧ ∀ (mem : Memory) (ops : List PmmOp),
      (∀ calls, calls <+: ops → ReservedOk mmap (calls.foldl pmmStep ⟨pmm, mem⟩)) ↔
        ∀ op ∈ ops, FreesOnlyRam mmap op := by
  obtain ⟨pmm, heq, hram⟩ := pmmInit_ramOnly h
  exact ⟨pmm, heq, fun mem ops => RamOnly.run (s := ⟨pmm, mem⟩) hram ops⟩

theorem mmapParse_wellFormed : mmapParse.WellFormed where
  aligned := by decide
  noWrap := by decide
  disjoint := by
    have hsorted : mmapParse.entries.Pairwise fun e e' =>
        e.base.toNat + e.length.toNat ≤ e'.base.toNat := by decide
    apply hsorted.imp
    intro e e' h x hx hx'
    exact absurd (hx.2.trans_le h) (Nat.not_lt_of_le hx'.1)

theorem reserved_kept_iff_parse :
    ∃ pmm, pmmInit mmapParse = some pmm ∧ ∀ (mem : Memory) (ops : List PmmOp),
      (∀ calls, calls <+: ops → ReservedOk mmapParse (calls.foldl pmmStep ⟨pmm, mem⟩)) ↔
        ∀ op ∈ ops, FreesOnlyRam mmapParse op :=
  reserved_kept_iff mmapParse_wellFormed

/-- On the map of `mmap_parse`, freeing the first page of VGA memory right after
`pmm_init` breaks the promise. -/
theorem reserved_freed_parse :
    mmapParse.WellFormed ∧ ∃ pmm, pmmInit mmapParse = some pmm ∧
      ¬ ReservedOk mmapParse (pmmStep ⟨pmm, fun _ => 0⟩ (.free 0xA0000)) := by
  obtain ⟨pmm, heq, -⟩ := pmmInit_ramOnly mmapParse_wellFormed
  refine ⟨mmapParse_wellFormed, pmm, heq, not_reservedOk_of_not_freesOnlyRam _ fun hram => ?_⟩
  have hpage : mmapParse.HasPage 160 := hram 160 (by decide) (by decide)
  exact absurd hpage (by decide)

end OsKernel
