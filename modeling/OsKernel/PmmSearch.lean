import OsKernel.PmmAccounting

/-! # The search of `pmm_alloc_n` is complete

`pmm_alloc_n` looks at each page once and counts the free pages in a row.  While
`free_pages` is the number of clear bits it finds the lowest stretch there is, and its
early rejection turns away no request that could be met.  For a single page it does what
`pmm_alloc` does, whatever the counters hold.
-/
namespace OsKernel

/-- The `n` pages from `p` on are pages of the memory, and free. -/
structure ClearRun (bitmap : Bitmap) (n p : Nat) : Prop where
  le : p + n ≤ pmmMaxPages
  clear : ∀ j, p ≤ j → j < p + n → bitmapTest bitmap j = false

/-- The lowest such pages. -/
structure LowestClearRun (bitmap : Bitmap) (n p : Nat) : Prop extends ClearRun bitmap n p where
  lowest : ∀ q, q < p → ¬ ClearRun bitmap n q

/-- `s'` is `s` after a successful `pmm_alloc_n` of the `n` pages from `p` on: their bits
are set, `n` moves from `free_pages` to `used_pages`, their bytes are zero, and neither
`n * PAGE_SIZE` nor `start + n` wraps. -/
structure RunTaken (s : PhysState) (n : UInt64) (p : Nat) (s' : PhysState) : Prop where
  bits : ∀ j, j < pmmMaxPages → bitmapTest s'.pmm.bitmap j =
    (bitmapTest s.pmm.bitmap j || decide (p ≤ j ∧ j < p + n.toNat))
  freePages : s'.pmm.freePages.toNat + n.toNat = s.pmm.freePages.toNat
  usedPages : s'.pmm.usedPages = s.pmm.usedPages + n
  totalPages : s'.pmm.totalPages = s.pmm.totalPages
  mem : ∀ x, s'.mem x = if p ≤ x / 4096 ∧ x / 4096 < p + n.toNat then 0 else s.mem x
  bytes : (n * pageSize).toNat = n.toNat * 4096
  stop : (UInt64.ofNat p + n).toNat = p + n.toNat

variable {s s' : PhysState} {bitmap : Bitmap} {n : UInt64} {k p q : Nat}

/-! ## Stretches of clear bits -/

theorem ClearRun.subset (h : ClearRun bitmap k p) : Finset.Ico p (p + k) ⊆ freeSet bitmap := by
  intro j hj
  rw [Finset.mem_Ico] at hj
  have hle := h.le
  exact mem_freeSet.mpr ⟨by omega, h.clear j hj.1 hj.2⟩

theorem clearRun_iff_subset (hk : 0 < k) :
    ClearRun bitmap k p ↔ Finset.Ico p (p + k) ⊆ freeSet bitmap := by
  refine ⟨ClearRun.subset, fun hsub => ⟨?_, fun j h1 h2 => ?_⟩⟩
  · have hlast := freeSet_lt (hsub (Finset.mem_Ico.mpr
      ⟨show p ≤ p + k - 1 by omega, by omega⟩))
    omega
  · exact (mem_freeSet.mp (hsub (Finset.mem_Ico.mpr ⟨h1, h2⟩))).2

/-- A stretch has no more pages than are free. -/
theorem ClearRun.le_card (h : ClearRun bitmap k p) : k ≤ (freeSet bitmap).card := by
  have hcard := Finset.card_le_card h.subset
  rw [card_stretch] at hcard
  exact hcard

/-! ## The contiguous search -/

/-- **What `pmm_alloc_n` does when the counter is right**: it fails and changes nothing
when there is nothing to take, or takes the lowest stretch. -/
theorem pmmAllocN_search (s : PhysState) (n : UInt64)
    (hfree : s.pmm.freePages.toNat = (freeSet s.pmm.bitmap).card) :
    ((n = 0 ∨ ∀ p, ¬ ClearRun s.pmm.bitmap n.toNat p) ∧
      (pmmAllocN s n).1.value = noAddr ∧ (pmmAllocN s n).2 = s) ∨
    ∃ p, n ≠ 0 ∧ LowestClearRun s.pmm.bitmap n.toNat p ∧
      (pmmAllocN s n).1.value = pageAddr p ∧
      Taken s (Finset.Ico p (p + n.toNat)) (pmmAllocN s n).2 := by
  have hpos : n ≠ 0 → 0 < n.toNat := fun hn => UInt64.pos_iff_ne_zero.mpr hn
  rcases pmmAllocN_cases s n with
    ⟨heq, hguard⟩ | ⟨heq, hn, -, hnone⟩ | ⟨p, s', heq, hn, -, hle, hlow, htaken⟩
  · refine Or.inl ⟨?_, by rw [heq]; rfl, by rw [heq]⟩
    -- the early rejection: a stretch of `n` pages would be counted in `free_pages`
    rcases hguard with hzero | hless
    · exact Or.inl hzero
    · right
      intro p hrun
      have hcard := hrun.le_card
      rw [← hfree] at hcard
      exact absurd hcard (Nat.not_le.mpr (UInt64.lt_iff_toNat_lt.mp hless))
  · refine Or.inl ⟨Or.inr fun p hrun => ?_, by rw [heq]; rfl, by rw [heq]⟩
    exact hnone p hrun.subset
  · refine Or.inr ⟨p, hn, ⟨(clearRun_iff_subset (hpos hn)).mpr htaken.free, ?_⟩, ?_, ?_⟩
    · exact fun q hq hrun => hlow q hq hrun.subset
    · rw [heq]
      rfl
    · rw [heq]
      exact htaken

/-- Taking a stretch sets exactly its bits. -/
theorem Taken.bits {P : Finset Nat} (h : Taken s P s') {j : Nat} (hj : j < pmmMaxPages) :
    bitmapTest s'.pmm.bitmap j = (bitmapTest s.pmm.bitmap j || decide (j ∈ P)) := by
  rw [bitmapTest_eq_decide _ hj, bitmapTest_eq_decide _ hj, h.freeSet_eq,
    ← Bool.decide_or, decide_eq_decide, Finset.mem_sdiff, not_and_or, not_not]

/-- A stretch that was taken, in the terms of the source. -/
theorem Taken.runTaken (h : Taken s (Finset.Ico p (p + n.toNat)) s')
    (hfree : s.pmm.freePages.toNat = (freeSet s.pmm.bitmap).card)
    (hle : p + n.toNat ≤ pmmMaxPages) : RunTaken s n p s' := by
  rw [pmmMaxPages_eq] at hle
  refine ⟨fun j hj => ?_, ?_, ?_, h.totalPages_eq, fun x => ?_, ?_, ?_⟩
  · rw [h.bits hj, decide_eq_decide.mpr Finset.mem_Ico]
  · have hsum := h.freePages_add hfree
    rw [card_stretch] at hsum
    exact hsum
  · rw [h.usedPages_eq, card_stretch, UInt64.ofNat_toNat]
  · split_ifs with hx
    · exact h.zeroed x (Finset.mem_Ico.mpr hx)
    · exact h.frame x (fun hmem => hx (Finset.mem_Ico.mp hmem))
  · rw [UInt64.toNat_mul, toNat_pageSize]
    omega
  · rw [UInt64.toNat_add, UInt64.toNat_ofNat']
    omega

/-- **`pmm_alloc_n` is a complete lowest-first search.**  With `free_pages` the number of
clear bits, it returns `(paddr_t)-1` exactly when `n` is zero or there are no `n` clear
bits in a row, and then nothing has changed.  Otherwise it returns the address of the
lowest such pages and takes exactly these. -/
theorem pmm_alloc_n_lowest_first (s : PhysState) (n : UInt64)
    (hfree : s.pmm.freePages.toNat = (freeSet s.pmm.bitmap).card) :
    ((pmmAllocN s n).1.value = noAddr ↔ n = 0 ∨ ∀ p, ¬ ClearRun s.pmm.bitmap n.toNat p) ∧
    ((pmmAllocN s n).1.value = noAddr → (pmmAllocN s n).2 = s) ∧
    ((pmmAllocN s n).1.value ≠ noAddr →
      ∃ p, LowestClearRun s.pmm.bitmap n.toNat p ∧ (pmmAllocN s n).1.value.toNat = 4096 * p ∧
        RunTaken s n p (pmmAllocN s n).2) := by
  rcases pmmAllocN_search s n hfree with
    ⟨hnone, hvalue, hstate⟩ | ⟨p, hn, hlowest, hvalue, htaken⟩
  · exact ⟨⟨fun _ => hnone, fun _ => hvalue⟩, fun _ => hstate, fun hne => absurd hvalue hne⟩
  · have hpos : 0 < n.toNat := UInt64.pos_iff_ne_zero.mpr hn
    have hp : p < pmmMaxPages := by
      have hle := hlowest.le
      omega
    have hne : (pmmAllocN s n).1.value ≠ noAddr := hvalue ▸ pageAddr_ne_noAddr hp
    refine ⟨⟨fun h => absurd h hne, ?_⟩, fun h => absurd h hne, fun _ => ⟨p, hlowest, ?_, ?_⟩⟩
    · rintro (hzero | hnone)
      · exact absurd hzero hn
      · exact absurd hlowest.toClearRun (hnone p)
    · rw [hvalue, toNat_pageAddr hp.le, Nat.mul_comm]
    · exact htaken.runTaken hfree hlowest.le

theorem clearRun_freshPmm (hk : k ≤ pmmMaxPages) : ClearRun freshPmm.bitmap k 0 := by
  refine ⟨by omega, fun j _ hj => ?_⟩
  have hmem : j ∈ freeSet freshPmm.bitmap := by
    rw [freeSet_freshPmm, Finset.mem_range]
    omega
  exact (mem_freeSet.mp hmem).2

/-- The whole of a free memory. -/
theorem pmm_alloc_n_lowest_first_whole :
    ∃ p, LowestClearRun freshPmm.bitmap 16384 p ∧
      RunTaken ⟨freshPmm, fun _ => 1⟩ 16384 p (pmmAllocN ⟨freshPmm, fun _ => 1⟩ 16384).2 := by
  obtain ⟨hvalue, -, htaken⟩ :=
    pmm_alloc_n_lowest_first ⟨freshPmm, fun _ => 1⟩ 16384 freshPmm_accounted.free
  have hne : (pmmAllocN ⟨freshPmm, fun _ => 1⟩ 16384).1.value ≠ noAddr := by
    intro h
    rcases hvalue.mp h with hzero | hnone
    · exact absurd hzero (by decide)
    · exact hnone 0 (clearRun_freshPmm pmmMaxPages_eq.ge)
  obtain ⟨p, hlowest, -, htaken⟩ := htaken hne
  exact ⟨p, hlowest, htaken⟩

/-! ## One page -/

/-- The two scans stop at the same page: with `n = 1` the run counter never passes a turn. -/
theorem pmmAllocNFrom_one (s : PhysState) (k i start : Nat) :
    (pmmAllocNFrom s 1 k i 0 start).1.value = (pmmAllocFrom s k i).1.value ∧
      (pmmAllocNFrom s 1 k i 0 start).2 = (pmmAllocFrom s k i).2 := by
  induction k generalizing i with
  | zero => exact ⟨rfl, rfl⟩
  | succ k ih =>
    unfold pmmAllocNFrom pmmAllocFrom
    cases bitmapTest s.pmm.bitmap i with
    | false => exact ⟨rfl, rfl⟩
    | true => exact ih (i + 1)

/-- **The single-page path agrees with the contiguous path**, in every state: the same
address, and the same bitmap, counters and memory. -/
theorem pmm_alloc_eq_alloc_n_one (s : PhysState) :
    (pmmAlloc s).1.value = (pmmAllocN s 1).1.value ∧ (pmmAlloc s).2 = (pmmAllocN s 1).2 := by
  have hguard : ((1 : UInt64) = 0 ∨ s.pmm.freePages < 1) ↔ s.pmm.freePages = 0 := by
    rw [UInt64.lt_iff_toNat_lt, ← UInt64.toNat_inj, ← UInt64.toNat_inj, UInt64.toNat_one,
      UInt64.toNat_zero]
    omega
  unfold pmmAlloc pmmAllocN
  by_cases hzero : s.pmm.freePages = 0
  · rw [if_pos hzero, if_pos (hguard.mpr hzero)]
    exact ⟨rfl, rfl⟩
  · rw [if_neg hzero, if_neg (fun h => hzero (hguard.mp h))]
    obtain ⟨hvalue, hstate⟩ := pmmAllocNFrom_one s pmmMaxPages 0 0
    exact ⟨hvalue.symm, hstate.symm⟩

end OsKernel
