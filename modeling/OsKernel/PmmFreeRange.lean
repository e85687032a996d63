import OsKernel.PmmSearch

/-! # `pmm_free_n` undoes `pmm_alloc_n`, and frees its range

A manager is its set of free pages and three counters (`bitmap_ext`), and any sequence
of frees moves the counters by the number of pages that became free (`Freed`).  So what
frees leave behind depends only on which pages they free: neither on their order nor on
repetitions.  `pmm_free_n` computes its addresses modulo `2 ^ 64`, and this is where it
can free a page outside its range.
-/
namespace OsKernel

/-- `pmm'` is `pmm` after frees: the pages that became free are counted. -/
structure Freed (pmm pmm' : Pmm) : Prop where
  grows : freeSet pmm.bitmap ⊆ freeSet pmm'.bitmap
  freePages_eq : pmm'.freePages =
    pmm.freePages + UInt64.ofNat (freeSet pmm'.bitmap \ freeSet pmm.bitmap).card
  usedPages_eq : pmm'.usedPages =
    pmm.usedPages - UInt64.ofNat (freeSet pmm'.bitmap \ freeSet pmm.bitmap).card
  totalPages_eq : pmm'.totalPages = pmm.totalPages

variable {s s' : PhysState} {pmm pmm' pmm'' : Pmm} {P : Finset Nat} {addr : Paddr} {n : UInt64}

/-! ## A manager is its free pages and its counters -/

/-- The bits of the bitmap are the pages of the memory. -/
theorem bitmap_ext {bitmap bitmap' : Bitmap} (h : freeSet bitmap = freeSet bitmap') :
    bitmap = bitmap' := by
  apply Vector.ext
  intro i hi
  rw [← UInt8.toBitVec_inj]
  apply BitVec.eq_of_getLsbD_eq
  intro k hk
  have hpage : 8 * i + k < pmmMaxPages := by
    rw [pmmBitmapBytes_eq] at hi
    rw [pmmMaxPages_eq]
    omega
  have htest : bitmapTest bitmap (8 * i + k) = bitmapTest bitmap' (8 * i + k) := by
    rw [bitmapTest_eq_decide _ hpage, bitmapTest_eq_decide _ hpage, h]
  rw [bitmapTest_eq, bitmapTest_eq, show (8 * i + k) / 8 = i by omega,
    show (8 * i + k) % 8 = k by omega, getElem!_pos bitmap i hi, getElem!_pos bitmap' i hi] at htest
  exact htest

theorem Freed.refl (pmm : Pmm) : Freed pmm pmm := ⟨subset_rfl, by simp, by simp, rfl⟩

theorem Freed.trans (h : Freed pmm pmm') (h' : Freed pmm' pmm'') : Freed pmm pmm'' := by
  have hcard : (freeSet pmm''.bitmap \ freeSet pmm.bitmap).card =
      (freeSet pmm'.bitmap \ freeSet pmm.bitmap).card +
        (freeSet pmm''.bitmap \ freeSet pmm'.bitmap).card := by
    have h1 := Finset.card_le_card h.grows
    have h2 := Finset.card_le_card h'.grows
    rw [Finset.card_sdiff_of_subset h.grows, Finset.card_sdiff_of_subset h'.grows,
      Finset.card_sdiff_of_subset (h.grows.trans h'.grows)]
    omega
  refine ⟨h.grows.trans h'.grows, ?_, ?_, h'.totalPages_eq.trans h.totalPages_eq⟩
  · rw [h'.freePages_eq, h.freePages_eq, hcard, UInt64.ofNat_add, UInt64.add_assoc]
  · rw [h'.usedPages_eq, h.usedPages_eq, hcard, UInt64.ofNat_add]
    grind

/-- **One free.** -/
theorem pmmFree_freed (pmm : Pmm) (addr : Paddr) : Freed pmm (pmmFree pmm addr) := by
  rcases pmmFree_cases pmm addr with ⟨heq, -⟩ | ⟨p, -, hrel⟩
  · rw [heq]
    exact .refl pmm
  · have hdiff : freeSet (pmmFree pmm addr).bitmap \ freeSet pmm.bitmap = {p} := by
      rw [hrel.freeSet_eq, Finset.insert_sdiff_cancel hrel.used]
    refine ⟨freeSet_subset_pmmFree pmm addr, ?_, ?_, hrel.totalPages_eq⟩
    · rw [hdiff, hrel.freePages_eq]
      rfl
    · rw [hdiff, hrel.usedPages_eq]
      rfl

/-- **Any frees, one after the other.** -/
theorem foldl_pmmFree_freed (addrs : List Paddr) (pmm : Pmm) :
    Freed pmm (addrs.foldl pmmFree pmm) := by
  induction addrs generalizing pmm with
  | nil => exact .refl pmm
  | cons addr addrs ih => exact (pmmFree_freed pmm addr).trans (ih _)

/-- Frees that make no page free change nothing. -/
theorem Freed.eq_of_freeSet_eq (h : Freed pmm pmm')
    (hset : freeSet pmm'.bitmap = freeSet pmm.bitmap) : pmm' = pmm := by
  obtain ⟨-, hfree, hused, htotal⟩ := h
  have hbitmap := bitmap_ext hset
  simp only [hset, Finset.sdiff_self, Finset.card_empty] at hfree hused
  cases pmm
  cases pmm'
  simp_all

/-- Frees that give back what was taken restore the manager. -/
theorem Taken.eq_of_freed (h : Taken s P s') (hfreed : Freed s'.pmm pmm')
    (hset : freeSet pmm'.bitmap = freeSet s.pmm.bitmap) : pmm' = s.pmm := by
  have hback : freeSet pmm'.bitmap \ freeSet s'.pmm.bitmap = P := by
    rw [hset, h.freeSet_eq, Finset.sdiff_sdiff_eq_self h.free]
  have hfree : pmm'.freePages = s.pmm.freePages := by
    rw [hfreed.freePages_eq, hback, h.freePages_eq]
    grind
  have hused : pmm'.usedPages = s.pmm.usedPages := by
    rw [hfreed.usedPages_eq, hback, h.usedPages_eq]
    grind
  have htotal := hfreed.totalPages_eq.trans h.totalPages_eq
  have hbitmap := bitmap_ext hset
  obtain ⟨⟨bitmap, total, free, used⟩, mem⟩ := s
  cases pmm'
  simp_all

/-! ## Freeing what was allocated -/

/-- The addresses `pmm_free_n` computes for the pages from `p` on. -/
theorem pageAddr_mem_freeAddrs {p k q : Nat} (hle : p + k ≤ pmmMaxPages) (hq : q < pmmMaxPages) :
    pageAddr q ∈ freeAddrs (pageAddr p) k ↔ q ∈ Finset.Ico p (p + k) := by
  rw [freeAddrs, List.mem_map, Finset.mem_Ico]
  constructor
  · rintro ⟨i, hi, haddr⟩
    rw [List.mem_range] at hi
    rw [pageAddr_add] at haddr
    have heq := pageAddr_inj (by omega) hq haddr
    omega
  · rintro ⟨h1, h2⟩
    refine ⟨q - p, List.mem_range.mpr (by omega), ?_⟩
    rw [pageAddr_add, Nat.add_sub_cancel' h1]

/-- Freeing the pages of an allocation, in any order and with repetitions. -/
theorem Taken.foldl_pmmFree {p k : Nat} (h : Taken s (Finset.Ico p (p + k)) s')
    (hle : p + k ≤ pmmMaxPages) {addrs : List Paddr}
    (haddrs : ∀ a, a ∈ addrs ↔ a ∈ freeAddrs (pageAddr p) k) :
    addrs.foldl pmmFree s'.pmm = s.pmm := by
  apply h.eq_of_freed (foldl_pmmFree_freed addrs s'.pmm)
  ext q
  rw [mem_freeSet_foldl_pmmFree, haddrs, h.freeSet_eq, Finset.mem_sdiff]
  constructor
  · rintro (⟨hq, -⟩ | ⟨hq, hmem⟩)
    · exact hq
    · exact h.free ((pageAddr_mem_freeAddrs hle hq).mp hmem)
  · intro hq
    by_cases hmem : q ∈ Finset.Ico p (p + k)
    · exact Or.inr ⟨freeSet_lt hq, (pageAddr_mem_freeAddrs hle (freeSet_lt hq)).mpr hmem⟩
    · exact Or.inl ⟨hq, hmem⟩

/-- **The error value has no page**: freeing it changes nothing, for any number of pages. -/
theorem pmmFreeN_noAddr (pmm : Pmm) (n : UInt64) : pmmFreeN pmm noAddr n = pmm := by
  rw [pmmFreeN_eq_foldl]
  apply (foldl_pmmFree_freed _ pmm).eq_of_freeSet_eq
  ext q
  rw [mem_freeSet_foldl_pmmFree]
  refine ⟨?_, Or.inl⟩
  rintro (hq | ⟨hq, hmem⟩)
  · exact hq
  · obtain ⟨i, -, haddr⟩ := List.mem_map.mp hmem
    have hnat := congrArg UInt64.toNat haddr
    rw [toNat_pageAddr hq.le, UInt64.toNat_add, UInt64.toNat_mul, toNat_pageSize,
      show noAddr.toNat = 18446744073709551615 from rfl] at hnat
    omega

/-- **Free undoes allocate.**  `pmm_free_n` of what `pmm_alloc_n` returned restores the
manager, also when the allocation failed; the error value is never freed; and the pages
of a successful allocation can be freed one by one in any order. -/
theorem pmm_free_n_undoes_alloc_n (s : PhysState) (n : UInt64) :
    pmmFreeN (pmmAllocN s n).2.pmm (pmmAllocN s n).1.value n = s.pmm ∧
    (∀ (pmm : Pmm) (k : UInt64), pmmFreeN pmm noAddr k = pmm) ∧
    ((pmmAllocN s n).1.value ≠ noAddr → ∀ addrs : List Paddr,
      addrs.Perm ((List.range n.toNat).map fun i =>
        (pmmAllocN s n).1.value + UInt64.ofNat i * pageSize) →
      addrs.foldl pmmFree (pmmAllocN s n).2.pmm = s.pmm) := by
  rcases pmmAllocN_outcome s n with ⟨why, heq⟩ | ⟨p, s', heq, hle, htaken⟩
  · rw [heq]
    exact ⟨pmmFreeN_noAddr s.pmm n, pmmFreeN_noAddr, fun hne => absurd rfl hne⟩
  · rw [heq]
    refine ⟨?_, pmmFreeN_noAddr, fun _ addrs hperm => ?_⟩
    · rw [pmmFreeN_eq_foldl]
      exact htaken.foldl_pmmFree hle fun _ => Iff.rfl
    · exact htaken.foldl_pmmFree hle fun _ => hperm.mem_iff

/-- Three pages of a free memory, given back from the last to the first. -/
theorem pmm_free_n_undoes_alloc_n_reversed :
    (pmmAllocN ⟨freshPmm, fun _ => 0⟩ 3).1.value ≠ noAddr ∧
      (freeAddrs (pmmAllocN ⟨freshPmm, fun _ => 0⟩ 3).1.value 3).reverse.foldl pmmFree
        (pmmAllocN ⟨freshPmm, fun _ => 0⟩ 3).2.pmm = freshPmm := by
  have hne : (pmmAllocN ⟨freshPmm, fun _ => 0⟩ 3).1.value ≠ noAddr := by
    rcases pmmAllocN_search ⟨freshPmm, fun _ => 0⟩ 3 freshPmm_accounted.free with
      ⟨hzero | hnone, -⟩ | ⟨p, -, hlowest, hvalue, -⟩
    · exact absurd hzero (by decide)
    · exact absurd (clearRun_freshPmm (by decide)) (hnone 0)
    · have hle : p + 3 ≤ pmmMaxPages := hlowest.le
      rw [hvalue]
      exact pageAddr_ne_noAddr (by omega)
  exact ⟨hne, (pmm_free_n_undoes_alloc_n ⟨freshPmm, fun _ => 0⟩ 3).2.2 hne _ (List.reverse_perm _)⟩

/-! ## The range of `pmm_free_n` -/

/-- **`pmm_free_n` frees its range and nothing else**: a page is clear afterwards exactly
when it was clear or its address is one of the integers `addr + i * 4096`, and
`free_pages` grows by the number of pages that became clear. -/
structure FreesRange (pmm : Pmm) (addr : Paddr) (n : UInt64) : Prop where
  clear : ∀ p, p < pmmMaxPages → (bitmapTest (pmmFreeN pmm addr n).bitmap p = false ↔
    bitmapTest pmm.bitmap p = false ∨ ∃ i, i < n.toNat ∧ p * 4096 = addr.toNat + i * 4096)
  freePages : (pmmFreeN pmm addr n).freePages = pmm.freePages +
    UInt64.ofNat (freeSet (pmmFreeN pmm addr n).bitmap \ freeSet pmm.bitmap).card

/-- The pages that the loop of `pmm_free_n` comes to: those of its range, and those below
`addr` that it comes to after wrapping around. -/
theorem pageAddr_mem_freeAddrs_iff (addr : Paddr) (n : UInt64) {q : Nat} (hq : q < pmmMaxPages) :
    pageAddr q ∈ freeAddrs addr n.toNat ↔
      (∃ i, i < n.toNat ∧ q * 4096 = addr.toNat + i * 4096) ∨
      addr.toNat % 4096 = 0 ∧ q * 4096 < addr.toNat ∧
        q * 4096 + 2 ^ 64 < addr.toNat + n.toNat * 4096 := by
  have hn := n.toNat_lt
  have haddr := addr.toNat_lt
  -- the address of turn `i`, as a number
  have hturn : ∀ i, i < n.toNat → (addr + UInt64.ofNat i * pageSize = pageAddr q ↔
      (addr.toNat + i * 4096) % 2 ^ 64 = q * 4096) := by
    intro i hi
    rw [← UInt64.toNat_inj, toNat_pageAddr hq.le, UInt64.toNat_add, UInt64.toNat_mul,
      toNat_pageSize, UInt64.toNat_ofNat_of_lt' (show i < 2 ^ 64 by omega), Nat.add_mod_mod]
  rw [pmmMaxPages_eq] at hq
  rw [freeAddrs, List.mem_map]
  constructor
  · rintro ⟨i, hi, heq⟩
    rw [List.mem_range] at hi
    rw [hturn i hi] at heq
    by_cases hbelow : q * 4096 < addr.toNat
    · have hpast : q * 4096 + 2 ^ 64 ≤ addr.toNat + i * 4096 := by omega
      have hmore : i * 4096 < n.toNat * 4096 := Nat.mul_lt_mul_of_pos_right hi (by decide)
      exact Or.inr ⟨by omega, hbelow, hpast.trans_lt (Nat.add_lt_add_left hmore _)⟩
    · exact Or.inl ⟨(q * 4096 - addr.toNat) / 4096, by omega, by omega⟩
  · rintro (⟨i, hi, heq⟩ | ⟨halign, hbelow, hwrap⟩)
    · exact ⟨i, List.mem_range.mpr hi, (hturn i hi).mpr (by omega)⟩
    · have hlt : (q * 4096 + 2 ^ 64 - addr.toNat) / 4096 < n.toNat := by omega
      exact ⟨_, List.mem_range.mpr hlt, (hturn _ hlt).mpr (by omega)⟩

/-- **When `pmm_free_n` frees only its range.**  Exactly when the address is not
page-aligned, or every page below it that the loop comes to after wrapping around was
already clear. -/
theorem pmm_free_n_range_iff (pmm : Pmm) (addr : Paddr) (n : UInt64) :
    FreesRange pmm addr n ↔
      (addr.toNat % 4096 = 0 → ∀ p, p < pmmMaxPages → p * 4096 < addr.toNat →
        p * 4096 + 2 ^ 64 < addr.toNat + n.toNat * 4096 → bitmapTest pmm.bitmap p = false) := by
  have hafter : ∀ p, p < pmmMaxPages → (bitmapTest (pmmFreeN pmm addr n).bitmap p = false ↔
      bitmapTest pmm.bitmap p = false ∨
        (∃ i, i < n.toNat ∧ p * 4096 = addr.toNat + i * 4096) ∨
        addr.toNat % 4096 = 0 ∧ p * 4096 < addr.toNat ∧
          p * 4096 + 2 ^ 64 < addr.toNat + n.toNat * 4096) := by
    intro p hp
    have hmem := @mem_freeSet_foldl_pmmFree (freeAddrs addr n.toNat) pmm p
    rw [← pmmFreeN_eq_foldl, pageAddr_mem_freeAddrs_iff addr n hp, mem_freeSet, mem_freeSet]
      at hmem
    simpa only [hp, true_and] using hmem
  constructor
  · intro h halign p hp hbelow hwrap
    have hclear := (hafter p hp).mpr (Or.inr (Or.inr ⟨halign, hbelow, hwrap⟩))
    rcases (h.clear p hp).mp hclear with hold | ⟨i, -, heq⟩
    · exact hold
    · omega
  · intro hwrapped
    refine ⟨fun p hp => ?_, ?_⟩
    · rw [hafter p hp]
      constructor
      · rintro (hold | hrange | ⟨halign, hbelow, hwrap⟩)
        · exact Or.inl hold
        · exact Or.inr hrange
        · exact Or.inl (hwrapped halign p hp hbelow hwrap)
      · rintro (hold | hrange)
        · exact Or.inl hold
        · exact Or.inr (Or.inl hrange)
    · rw [pmmFreeN_eq_foldl]
      exact (foldl_pmmFree_freed _ pmm).freePages_eq

/-- From the last page of the address space on, the second page is page 0. -/
theorem pmm_free_n_wraps :
    ¬ FreesRange ⟨Vector.replicate _ 0xFF, 16384, 0, 16384⟩ 0xFFFFFFFFFFFFF000 2 := by
  intro h
  have hused : 0 ∉ freeSet (Vector.replicate _ 0xFF) := by
    rw [freeSet_all_used]
    exact Finset.notMem_empty 0
  have hclear : 0 ∈ freeSet
      (pmmFreeN ⟨Vector.replicate _ 0xFF, 16384, 0, 16384⟩ 0xFFFFFFFFFFFFF000 2).bitmap := by
    rw [pmmFreeN_eq_foldl, mem_freeSet_foldl_pmmFree]
    exact Or.inr ⟨by decide, by decide⟩
  rcases (h.clear 0 (by decide)).mp (mem_freeSet.mp hclear).2 with hold | ⟨i, -, heq⟩
  · exact hused (mem_freeSet.mpr ⟨by decide, hold⟩)
  · exact absurd heq (by change 0 * 4096 ≠ 18446744073709547520 + i * 4096; omega)

end OsKernel
