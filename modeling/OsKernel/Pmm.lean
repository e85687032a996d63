import OsKernel.ByteMemory
import OsKernel.MemoryMap
import OsKernel.PmmBitmap
import Mathlib.Order.Interval.Finset.Nat

/-! # The physical memory manager (`pmm/pmm.c`)

The manager is a page bitmap with three counters, over a simulated physical
memory.  The functions below are the source's, with their loops; `Taken` and
`Released` say once what an allocation and a free do to the set of free pages,
to the counters and to the memory, and every later result about the manager is
derived from these two.
-/
namespace OsKernel

/-- `pmm_t` -/
structure Pmm where
  bitmap : Bitmap
  totalPages : UInt64
  freePages : UInt64
  usedPages : UInt64

/-- A manager together with the memory it hands out (`phys_mem`). -/
structure PhysState where
  pmm : Pmm
  mem : Memory

/-- `phys_to_virt`: an offset into `phys_mem`, or `none` for `NULL`. -/
def physToVirt (addr : Paddr) : Option Nat :=
  if physMemSize ≤ addr then none else some addr.toNat

/-! ## Initialisation -/

/-- One turn of the inner loop of `pmm_init`.  A page index outside the bitmap
writes past the array: undefined behaviour, `none`. -/
def pmmInitPage (pmm : Pmm) (page : UInt64) : Option Pmm :=
  if page.toNat < pmmMaxPages then
    some { pmm with
      bitmap := bitmapClear pmm.bitmap page.toNat
      freePages := pmm.freePages + 1
      totalPages := pmm.totalPages + 1 }
  else none

/-- One turn of the outer loop of `pmm_init`. -/
def pmmInitEntry (pmm : Pmm) (entry : MmapEntry) : Option Pmm :=
  if entry.type ≠ .free then some pmm
  else
    let base := alignUp entry.base pageSize
    let top := alignDown (entry.base + entry.length) pageSize
    -- clamp to the simulated memory
    if physMemSize ≤ base then some pmm
    else
      let top := if physMemSize < top then physMemSize else top
      let pages := (top - base) / pageSize
      let first := base / pageSize
      (List.range pages.toNat).foldlM (fun pmm p => pmmInitPage pmm (first + UInt64.ofNat p)) pmm

/-- `pmm_init` -/
def pmmInit (mmap : MemoryMap) : Option Pmm := do
  let pmm ← mmap.entries.foldlM pmmInitEntry
    { bitmap := Vector.replicate _ 0xFF, totalPages := 0, freePages := 0, usedPages := 0 }
  return { pmm with usedPages := 0 }

/-! ## Allocation -/

/-- The `return (paddr_t)-1` statements of the two allocators. -/
inductive AllocFailure
  | outOfMemory
  | noFreePage
  | notEnoughFreePages
  | noContiguousBlock
  deriving DecidableEq, Repr

/-- Which `return` statement of an allocator was executed. -/
inductive AllocReturn
  | page (addr : Paddr)
  | failed (why : AllocFailure)
  deriving DecidableEq, Repr

/-- The `paddr_t` the caller sees. -/
def AllocReturn.value : AllocReturn → Paddr
  | .page addr => addr
  | .failed _ => noAddr

/-- The bookkeeping both allocators do for a page they take. -/
def markUsed (pmm : Pmm) (page : Nat) : Pmm :=
  { pmm with
    bitmap := bitmapSet pmm.bitmap page
    freePages := pmm.freePages - 1
    usedPages := pmm.usedPages + 1 }

/-- `memset(phys_to_virt(addr), 0, n)` -/
def zeroPhys (mem : Memory) (addr : Paddr) (n : UInt64) : Memory :=
  match physToVirt addr with
  | some a => mem.fill a n.toNat 0
  | none => mem

/-- The address of a page. -/
def pageAddr (page : Nat) : Paddr := UInt64.ofNat page * pageSize

/-- The scan of `pmm_alloc` from page `i` on, with `n` pages left to look at. -/
def pmmAllocFrom (s : PhysState) : Nat → Nat → AllocReturn × PhysState
  | 0, _ => (.failed .noFreePage, s)
  | n + 1, i =>
    if !bitmapTest s.pmm.bitmap i then
      (.page (pageAddr i),
        { pmm := markUsed s.pmm i, mem := zeroPhys s.mem (pageAddr i) pageSize })
    else pmmAllocFrom s n (i + 1)

/-- `pmm_alloc` -/
def pmmAlloc (s : PhysState) : AllocReturn × PhysState :=
  if s.pmm.freePages = 0 then (.failed .outOfMemory, s)
  else pmmAllocFrom s pmmMaxPages 0

/-- The scan of `pmm_alloc_n` from page `i` on, with `k` pages left to look at:
the last `run` pages, from `start` on, were free. -/
def pmmAllocNFrom (s : PhysState) (n : UInt64) :
    Nat → Nat → Nat → Nat → AllocReturn × PhysState
  | 0, _, _, _ => (.failed .noContiguousBlock, s)
  | k + 1, i, run, start =>
    if !bitmapTest s.pmm.bitmap i then
      let start := if run = 0 then i else start
      let run := run + 1
      if run = n.toNat then
        (.page (pageAddr start),
          { pmm := (List.range' start n.toNat).foldl markUsed s.pmm
            mem := zeroPhys s.mem (pageAddr start) (n * pageSize) })
      else pmmAllocNFrom s n k (i + 1) run start
    else pmmAllocNFrom s n k (i + 1) 0 start

/-- `pmm_alloc_n` -/
def pmmAllocN (s : PhysState) (n : UInt64) : AllocReturn × PhysState :=
  if n = 0 ∨ s.pmm.freePages < n then (.failed .notEnoughFreePages, s)
  else pmmAllocNFrom s n pmmMaxPages 0 0 0

/-! ## Freeing and queries -/

/-- `pmm_free` -/
def pmmFree (pmm : Pmm) (addr : Paddr) : Pmm :=
  if addr % pageSize ≠ 0 then pmm
  else if physMemSize ≤ addr then pmm
  else
    let page := (addr / pageSize).toNat
    if !bitmapTest pmm.bitmap page then pmm
    else
      { pmm with
        bitmap := bitmapClear pmm.bitmap page
        freePages := pmm.freePages + 1
        usedPages := pmm.usedPages - 1 }

/-- The first `k` turns of the loop of `pmm_free_n`. -/
def pmmFreeTurns (pmm : Pmm) (addr : Paddr) (k : Nat) : Pmm :=
  (List.range k).foldl (fun pmm i => pmmFree pmm (addr + UInt64.ofNat i * pageSize)) pmm

/-- `pmm_free_n` -/
def pmmFreeN (pmm : Pmm) (addr : Paddr) (n : UInt64) : Pmm := pmmFreeTurns pmm addr n.toNat

/-- `pmm_is_free` -/
def pmmIsFree (pmm : Pmm) (addr : Paddr) : Bool :=
  if physMemSize ≤ addr then false
  else !bitmapTest pmm.bitmap (addr / pageSize).toNat

/-! ## What an allocation does -/

/-- `s'` is `s` with the free pages `P` taken out: their bits are set, the
counters move by their number, and their bytes read as zero.  Nothing else
changes. -/
structure Taken (s : PhysState) (P : Finset Nat) (s' : PhysState) : Prop where
  free : P ⊆ freeSet s.pmm.bitmap
  freeSet_eq : freeSet s'.pmm.bitmap = freeSet s.pmm.bitmap \ P
  freePages_eq : s'.pmm.freePages = s.pmm.freePages - UInt64.ofNat P.card
  usedPages_eq : s'.pmm.usedPages = s.pmm.usedPages + UInt64.ofNat P.card
  totalPages_eq : s'.pmm.totalPages = s.pmm.totalPages
  zeroed : ∀ x, x / 4096 ∈ P → s'.mem x = 0
  frame : ∀ x, x / 4096 ∉ P → s'.mem x = s.mem x

/-- A page that was taken was free. -/
theorem Taken.mem_free {s s' : PhysState} {p : Nat} (h : Taken s {p} s') :
    p ∈ freeSet s.pmm.bitmap := h.free (Finset.mem_singleton_self p)

theorem Taken.page_lt {s s' : PhysState} {p : Nat} (h : Taken s {p} s') : p < pmmMaxPages :=
  freeSet_lt h.mem_free

theorem toNat_pageAddr {p : Nat} (hp : p ≤ pmmMaxPages) : (pageAddr p).toNat = p * 4096 := by
  rw [pmmMaxPages_eq] at hp
  rw [pageAddr, UInt64.toNat_mul, toNat_pageSize, UInt64.toNat_ofNat']
  omega

theorem pageAddr_lt {p : Nat} (hp : p < pmmMaxPages) : ¬ physMemSize ≤ pageAddr p := by
  rw [UInt64.le_iff_toNat_le, toNat_pageAddr hp.le, toNat_physMemSize]
  rw [pmmMaxPages_eq] at hp
  omega

/-- The page of an address below `PHYS_MEM_SIZE`. -/
theorem toNat_page {addr : Paddr} : (addr / pageSize).toNat = addr.toNat / 4096 := by
  rw [UInt64.toNat_div, toNat_pageSize]

/-- A failed allocation is told apart from every page by its value. -/
theorem pageAddr_ne_noAddr {p : Nat} (hp : p < pmmMaxPages) : pageAddr p ≠ noAddr := by
  intro h
  have hnat := toNat_pageAddr hp.le
  rw [h, show noAddr.toNat = 2 ^ 64 - 1 from rfl] at hnat
  rw [pmmMaxPages_eq] at hp
  omega

theorem pageAddr_inj {p q : Nat} (hp : p < pmmMaxPages) (hq : q < pmmMaxPages)
    (h : pageAddr p = pageAddr q) : p = q := by
  have hnat := congrArg UInt64.toNat h
  rw [toNat_pageAddr hp.le, toNat_pageAddr hq.le] at hnat
  omega

theorem pageAddr_add (p i : Nat) : pageAddr p + UInt64.ofNat i * pageSize = pageAddr (p + i) := by
  simp only [pageAddr, UInt64.ofNat_add]
  grind

theorem zeroPhys_pageAddr (mem : Memory) {p : Nat} (hp : p < pmmMaxPages) (n : UInt64) :
    zeroPhys mem (pageAddr p) n = mem.fill (p * 4096) n.toNat 0 := by
  simp only [zeroPhys, physToVirt, if_neg (pageAddr_lt hp), toNat_pageAddr hp.le]

/-- Marking a stretch of pages used, one after the other. -/
theorem foldl_markUsed (pmm : Pmm) (start n : Nat) :
    let pmm' := (List.range' start n).foldl markUsed pmm
    freeSet pmm'.bitmap = freeSet pmm.bitmap \ Finset.Ico start (start + n) ∧
    pmm'.freePages = pmm.freePages - UInt64.ofNat n ∧
    pmm'.usedPages = pmm.usedPages + UInt64.ofNat n ∧
    pmm'.totalPages = pmm.totalPages := by
  induction n with
  | zero => simp
  | succ n ih =>
    obtain ⟨hset, hfree, hused, htotal⟩ := ih
    rw [List.range'_concat, List.foldl_append]
    simp only [List.foldl_cons, List.foldl_nil, markUsed, Nat.one_mul, UInt64.ofNat_add, hfree,
      hused, htotal, freeSet_bitmapSet, hset]
    refine ⟨?_, by grind, by grind, trivial⟩
    ext q
    simp only [Finset.mem_erase, Finset.mem_sdiff, Finset.mem_Ico]
    grind

theorem card_stretch (start n : Nat) : (Finset.Ico start (start + n)).card = n := by
  rw [Nat.card_Ico, Nat.add_sub_cancel_left]

/-- Taking a stretch of free pages, as both allocators do it. -/
theorem taken_stretch (s : PhysState) {start n : Nat} (hn : 0 < n)
    (hfree : ∀ j, start ≤ j → j < start + n → j ∈ freeSet s.pmm.bitmap) {bytes : UInt64}
    (hbytes : bytes.toNat = n * 4096) :
    Taken s (Finset.Ico start (start + n))
      { pmm := (List.range' start n).foldl markUsed s.pmm
        mem := zeroPhys s.mem (pageAddr start) bytes } := by
  have hstart : start < pmmMaxPages := freeSet_lt (hfree start (Nat.le_refl _) (by omega))
  obtain ⟨hset, hfreeP, hused, htotal⟩ := foldl_markUsed s.pmm start n
  have hcard := card_stretch start n
  refine ⟨?_, hset, by rw [hcard]; exact hfreeP, by rw [hcard]; exact hused, htotal, ?_, ?_⟩
  · intro j hj
    rw [Finset.mem_Ico] at hj
    exact hfree j hj.1 hj.2
  · intro x hx
    rw [Finset.mem_Ico] at hx
    simp only [zeroPhys_pageAddr _ hstart, hbytes]
    exact Memory.fill_inside (by omega) (by omega) 0
  · intro x hx
    rw [Finset.mem_Ico] at hx
    simp only [zeroPhys_pageAddr _ hstart, hbytes]
    exact Memory.fill_outside (by omega) 0

/-- The scan of `pmm_alloc` stops at the first free page. -/
theorem pmmAllocFrom_cases (s : PhysState) (n i : Nat) :
    ((∀ j, i ≤ j → j < i + n → bitmapTest s.pmm.bitmap j = true) ∧
      pmmAllocFrom s n i = (.failed .noFreePage, s)) ∨
    ∃ p, i ≤ p ∧ p < i + n ∧ bitmapTest s.pmm.bitmap p = false ∧
      (∀ j, i ≤ j → j < p → bitmapTest s.pmm.bitmap j = true) ∧
      pmmAllocFrom s n i = (.page (pageAddr p),
        { pmm := markUsed s.pmm p, mem := zeroPhys s.mem (pageAddr p) pageSize }) := by
  induction n generalizing i with
  | zero => exact Or.inl ⟨fun j h1 h2 => absurd h2 (by omega), rfl⟩
  | succ n ih =>
    cases htest : bitmapTest s.pmm.bitmap i with
    | false =>
      refine Or.inr ⟨i, Nat.le_refl i, by omega, htest, fun j h1 h2 => absurd h2 (by omega), ?_⟩
      simp [pmmAllocFrom, htest]
    | true =>
      have hstep : pmmAllocFrom s (n + 1) i = pmmAllocFrom s n (i + 1) := by
        simp [pmmAllocFrom, htest]
      have hbefore : ∀ j, i ≤ j → ¬ i + 1 ≤ j → bitmapTest s.pmm.bitmap j = true := by
        intro j h1 h2
        rw [show j = i by omega]
        exact htest
      rw [hstep]
      rcases ih (i + 1) with ⟨hall, heq⟩ | ⟨p, h1, h2, hfree, hbelow, heq⟩
      · refine Or.inl ⟨fun j hj1 hj2 => ?_, heq⟩
        by_cases hj : i + 1 ≤ j
        · exact hall j hj (by omega)
        · exact hbefore j hj1 hj
      · refine Or.inr ⟨p, by omega, by omega, hfree, fun j hj1 hj2 => ?_, heq⟩
        by_cases hj : i + 1 ≤ j
        · exact hbelow j hj hj2
        · exact hbefore j hj1 hj

/-- **What `pmm_alloc` does**: it fails and changes nothing, or takes the lowest
free page. -/
theorem pmmAlloc_cases (s : PhysState) :
    (pmmAlloc s = (.failed .outOfMemory, s) ∧ s.pmm.freePages = 0) ∨
    (pmmAlloc s = (.failed .noFreePage, s) ∧ s.pmm.freePages ≠ 0 ∧
      freeSet s.pmm.bitmap = ∅) ∨
    ∃ p s', pmmAlloc s = (.page (pageAddr p), s') ∧ s.pmm.freePages ≠ 0 ∧
      (∀ j ∈ freeSet s.pmm.bitmap, p ≤ j) ∧ Taken s {p} s' := by
  unfold pmmAlloc
  by_cases hzero : s.pmm.freePages = 0
  · exact Or.inl ⟨if_pos hzero, hzero⟩
  · rw [if_neg hzero]
    rcases pmmAllocFrom_cases s pmmMaxPages 0 with ⟨hall, heq⟩ | ⟨p, -, hp, hfree, hbelow, heq⟩
    · refine Or.inr (Or.inl ⟨heq, hzero, Finset.eq_empty_of_forall_notMem fun j hj => ?_⟩)
      have hlt := freeSet_lt hj
      exact notMem_freeSet (hall j (Nat.zero_le j) (by omega)) hj
    · rw [Nat.zero_add] at hp
      refine Or.inr (Or.inr ⟨p, _, heq, hzero, fun j hj => ?_, ?_⟩)
      · by_contra hlt
        have hused := hbelow j (Nat.zero_le j) (by omega)
        exact notMem_freeSet hused hj
      · have h := @taken_stretch s p 1 Nat.one_pos
          (fun j h1 h2 => (show p = j by omega) ▸ mem_freeSet.mpr ⟨hp, hfree⟩)
          pageSize rfl
        rw [Nat.Ico_succ_singleton] at h
        exact h

/-- The stretch of `n` pages from `q` on meets a used page. -/
def StretchUsed (b : Bitmap) (n q : Nat) : Prop := ∃ j, q ≤ j ∧ j < q + n ∧ bitmapTest b j = true

/-- The invariant of the scan of `pmm_alloc_n` at page `i`: the `run` pages before `i` are
free, and every stretch that starts before them meets a used page. -/
structure ScanAt (b : Bitmap) (n i run start : Nat) : Prop where
  run_lt : run < n
  run_le : run ≤ i
  start : run ≠ 0 → start + run = i
  clear : ∀ j, i - run ≤ j → j < i → bitmapTest b j = false
  past : ∀ q, q < i - run → StretchUsed b n q

section Scan
variable {b : Bitmap} {n i run start : Nat} (h : ScanAt b n i run start)
include h

/-- The stretch of free pages that the scan is in starts `run` pages before `i`. -/
theorem ScanAt.first : (if run = 0 then i else start) = i - run := by
  have hle := h.run_le
  split
  · omega
  · have := h.start ‹_›
    omega

theorem ScanAt.clear_upto (htest : bitmapTest b i = false) :
    ∀ j, i - run ≤ j → j < i + 1 → bitmapTest b j = false := by
  intro j h1 h2
  by_cases hj : j < i
  · exact h.clear j h1 hj
  · rw [show j = i by omega]
    exact htest

/-- Past a used page the scan starts anew. -/
theorem ScanAt.used (htest : bitmapTest b i = true) : ScanAt b n (i + 1) 0 start := by
  have hlt := h.run_lt
  refine ⟨by omega, by omega, fun h0 => absurd rfl h0, fun j h1 h2 => absurd h2 (by omega),
    fun q hq => ?_⟩
  by_cases hold : q < i - run
  · exact h.past q hold
  · exact ⟨i, by omega, by omega, htest⟩

/-- A free page makes the stretch longer. -/
theorem ScanAt.free (htest : bitmapTest b i = false) (hfull : run + 1 ≠ n) :
    ScanAt b n (i + 1) (run + 1) (i - run) := by
  have hlt := h.run_lt
  have hle := h.run_le
  exact ⟨by omega, by omega, fun _ => by omega,
    fun j h1 h2 => h.clear_upto htest j (by omega) h2, fun q hq => h.past q (by omega)⟩

end Scan

/-- The scan of `pmm_alloc_n` stops at the lowest stretch of `n` free pages. -/
theorem pmmAllocNFrom_cases (s : PhysState) (n : UInt64) (k i run start : Nat)
    (h : ScanAt s.pmm.bitmap n.toNat i run start) :
    (∃ p, p + n.toNat ≤ i + k ∧
      (∀ j, p ≤ j → j < p + n.toNat → bitmapTest s.pmm.bitmap j = false) ∧
      (∀ q, q < p → StretchUsed s.pmm.bitmap n.toNat q) ∧
      pmmAllocNFrom s n k i run start = (.page (pageAddr p),
        { pmm := (List.range' p n.toNat).foldl markUsed s.pmm
          mem := zeroPhys s.mem (pageAddr p) (n * pageSize) })) ∨
    ((∀ q, q + n.toNat ≤ i + k → StretchUsed s.pmm.bitmap n.toNat q) ∧
      pmmAllocNFrom s n k i run start = (.failed .noContiguousBlock, s)) := by
  have hlt := h.run_lt
  have hle := h.run_le
  induction k generalizing i run start with
  | zero => exact Or.inr ⟨fun q hq => h.past q (by omega), rfl⟩
  | succ k ih =>
    rw [show i + (k + 1) = i + 1 + k by omega]
    cases htest : bitmapTest s.pmm.bitmap i with
    | true =>
      have hstep : pmmAllocNFrom s n (k + 1) i run start =
          pmmAllocNFrom s n k (i + 1) 0 start := by
        simp [pmmAllocNFrom, htest]
      rw [hstep]
      exact ih (i + 1) 0 start (h.used htest) (by omega) (by omega)
    | false =>
      by_cases hfull : run + 1 = n.toNat
      · have hstep : pmmAllocNFrom s n (k + 1) i run start = (.page (pageAddr (i - run)),
            { pmm := (List.range' (i - run) n.toNat).foldl markUsed s.pmm
              mem := zeroPhys s.mem (pageAddr (i - run)) (n * pageSize) }) := by
          simp [pmmAllocNFrom, htest, hfull, h.first]
        exact Or.inl ⟨i - run, by omega, fun j h1 h2 => h.clear_upto htest j h1 (by omega),
          h.past, hstep⟩
      · have hstep : pmmAllocNFrom s n (k + 1) i run start =
            pmmAllocNFrom s n k (i + 1) (run + 1) (i - run) := by
          simp [pmmAllocNFrom, htest, hfull, h.first]
        rw [hstep]
        exact ih (i + 1) (run + 1) (i - run) (h.free htest hfull) (by omega) (by omega)

/-- **What `pmm_alloc_n` does**: it fails and changes nothing, or takes the lowest
stretch of `n` free pages. -/
theorem pmmAllocN_cases (s : PhysState) (n : UInt64) :
    (pmmAllocN s n = (.failed .notEnoughFreePages, s) ∧ (n = 0 ∨ s.pmm.freePages < n)) ∨
    (pmmAllocN s n = (.failed .noContiguousBlock, s) ∧ n ≠ 0 ∧ n ≤ s.pmm.freePages ∧
      ∀ q, ¬ Finset.Ico q (q + n.toNat) ⊆ freeSet s.pmm.bitmap) ∨
    ∃ p s', pmmAllocN s n = (.page (pageAddr p), s') ∧ n ≠ 0 ∧ n ≤ s.pmm.freePages ∧
      p + n.toNat ≤ pmmMaxPages ∧
      (∀ q, q < p → ¬ Finset.Ico q (q + n.toNat) ⊆ freeSet s.pmm.bitmap) ∧
      Taken s (Finset.Ico p (p + n.toNat)) s' := by
  unfold pmmAllocN
  by_cases hguard : n = 0 ∨ s.pmm.freePages < n
  · exact Or.inl ⟨if_pos hguard, hguard⟩
  · rw [if_neg hguard]
    rw [not_or, UInt64.not_lt] at hguard
    obtain ⟨hn, hle⟩ := hguard
    have hpos : 0 < n.toNat := by
      rw [Nat.pos_iff_ne_zero, Ne, ← UInt64.toNat_zero, UInt64.toNat_inj]
      exact hn
    -- a used page inside a stretch keeps it from being a stretch of free pages
    have hblock : ∀ q, StretchUsed s.pmm.bitmap n.toNat q →
        ¬ Finset.Ico q (q + n.toNat) ⊆ freeSet s.pmm.bitmap := by
      rintro q ⟨j, h1, h2, hused⟩ hsub
      have hj := (mem_freeSet.mp (hsub (Finset.mem_Ico.mpr ⟨h1, h2⟩))).2
      rw [hused] at hj
      cases hj
    have hscan : ScanAt s.pmm.bitmap n.toNat 0 0 0 :=
      ⟨hpos, Nat.le_refl 0, fun h => absurd rfl h, fun j h1 h2 => absurd h2 (by omega),
        fun q hq => absurd hq (by omega)⟩
    rcases pmmAllocNFrom_cases s n pmmMaxPages 0 0 0 hscan with
      ⟨p, hp, hclear, hlow, heq⟩ | ⟨hnone, heq⟩
    · rw [Nat.zero_add] at hp
      refine Or.inr (Or.inr ⟨p, _, heq, hn, hle, hp, fun q hq => hblock q (hlow q hq), ?_⟩)
      refine taken_stretch s hpos
        (fun j h1 h2 => mem_freeSet.mpr ⟨by omega, hclear j h1 h2⟩) ?_
      rw [UInt64.toNat_mul, toNat_pageSize]
      rw [pmmMaxPages_eq] at hp
      omega
    · refine Or.inr (Or.inl ⟨heq, hn, hle, fun q hsub => ?_⟩)
      have hlast := freeSet_lt (hsub (Finset.mem_Ico.mpr
        ⟨show q ≤ q + n.toNat - 1 by omega, by omega⟩))
      exact hblock q (hnone q (by omega)) hsub

/-- An allocation of a page either fails and changes nothing, or takes a page. -/
theorem pmmAlloc_outcome (s : PhysState) :
    (∃ why, pmmAlloc s = (.failed why, s)) ∨
    ∃ p s', pmmAlloc s = (.page (pageAddr p), s') ∧ s.pmm.freePages ≠ 0 ∧ Taken s {p} s' := by
  rcases pmmAlloc_cases s with ⟨heq, -⟩ | ⟨heq, -⟩ | ⟨p, s', heq, hne, -, htaken⟩
  · exact Or.inl ⟨_, heq⟩
  · exact Or.inl ⟨_, heq⟩
  · exact Or.inr ⟨p, s', heq, hne, htaken⟩

/-- An allocation of `n` pages either fails and changes nothing, or takes a stretch. -/
theorem pmmAllocN_outcome (s : PhysState) (n : UInt64) :
    (∃ why, pmmAllocN s n = (.failed why, s)) ∨
    ∃ p s', pmmAllocN s n = (.page (pageAddr p), s') ∧ p + n.toNat ≤ pmmMaxPages ∧
      Taken s (Finset.Ico p (p + n.toNat)) s' := by
  rcases pmmAllocN_cases s n with ⟨heq, -⟩ | ⟨heq, -⟩ | ⟨p, s', heq, -, -, hle, -, htaken⟩
  · exact Or.inl ⟨_, heq⟩
  · exact Or.inl ⟨_, heq⟩
  · exact Or.inr ⟨p, s', heq, hle, htaken⟩

/-- A page that `pmm_alloc` returns was taken. -/
theorem pmmAlloc_page {s s' : PhysState} {addr : Paddr} (h : pmmAlloc s = (.page addr, s')) :
    ∃ p, addr = pageAddr p ∧ Taken s {p} s' := by
  rcases pmmAlloc_outcome s with ⟨why, heq⟩ | ⟨p, u, heq, -, htaken⟩
  · cases heq.symm.trans h
  · cases heq.symm.trans h
    exact ⟨p, rfl, htaken⟩

/-- A stretch that `pmm_alloc_n` returns was taken. -/
theorem pmmAllocN_page {s s' : PhysState} {n : UInt64} {addr : Paddr}
    (h : pmmAllocN s n = (.page addr, s')) :
    ∃ p, addr = pageAddr p ∧ p + n.toNat ≤ pmmMaxPages ∧
      Taken s (Finset.Ico p (p + n.toNat)) s' := by
  rcases pmmAllocN_outcome s n with ⟨why, heq⟩ | ⟨p, u, heq, hle, htaken⟩
  · cases heq.symm.trans h
  · cases heq.symm.trans h
    exact ⟨p, rfl, hle, htaken⟩

/-! ## What a free does -/

/-- The addresses of the loop of `pmm_free_n`. -/
def freeAddrs (addr : Paddr) (k : Nat) : List Paddr :=
  (List.range k).map fun i => addr + UInt64.ofNat i * pageSize

theorem pmmFreeN_eq_foldl (pmm : Pmm) (addr : Paddr) (n : UInt64) :
    pmmFreeN pmm addr n = (freeAddrs addr n.toNat).foldl pmmFree pmm := by
  rw [freeAddrs, List.foldl_map]
  rfl

theorem pmmFreeTurns_succ (pmm : Pmm) (addr : Paddr) (k : Nat) :
    pmmFreeTurns pmm addr (k + 1) =
      pmmFree (pmmFreeTurns pmm addr k) (addr + UInt64.ofNat k * pageSize) := by
  rw [pmmFreeTurns, List.range_succ, List.foldl_append]
  rfl

/-- What every `pmm_free` of the loop preserves, `pmm_free_n` preserves. -/
theorem pmmFreeN_induction (Inv : Pmm → Prop) {pmm : Pmm} (hinit : Inv pmm) (addr : Paddr)
    (n : UInt64) (hfree : ∀ pmm i, i < n.toNat → Inv pmm →
      Inv (pmmFree pmm (addr + UInt64.ofNat i * pageSize))) :
    Inv (pmmFreeN pmm addr n) := by
  have hturns : ∀ k, k ≤ n.toNat → Inv (pmmFreeTurns pmm addr k) := by
    intro k
    induction k with
    | zero => intro _; exact hinit
    | succ k ih =>
      intro hk
      rw [pmmFreeTurns_succ]
      exact hfree _ k (by omega) (ih (by omega))
  exact hturns n.toNat (Nat.le_refl _)

/-- `pmm'` is `pmm` with the used page `p` given back. -/
structure Released (pmm : Pmm) (p : Nat) (pmm' : Pmm) : Prop where
  lt : p < pmmMaxPages
  used : p ∉ freeSet pmm.bitmap
  freeSet_eq : freeSet pmm'.bitmap = insert p (freeSet pmm.bitmap)
  freePages_eq : pmm'.freePages = pmm.freePages + 1
  usedPages_eq : pmm'.usedPages = pmm.usedPages - 1
  totalPages_eq : pmm'.totalPages = pmm.totalPages

/-- **What `pmm_free` does**: it rejects the address and changes nothing, or the
address is that of a used page, which it gives back. -/
theorem pmmFree_cases (pmm : Pmm) (addr : Paddr) :
    (pmmFree pmm addr = pmm ∧
      ∀ p, p < pmmMaxPages → addr = pageAddr p → p ∈ freeSet pmm.bitmap) ∨
    ∃ p, addr = pageAddr p ∧ Released pmm p (pmmFree pmm addr) := by
  unfold pmmFree
  by_cases halign : addr % pageSize ≠ 0
  · refine Or.inl ⟨if_pos halign, fun p hp heq => ?_⟩
    refine absurd ?_ halign
    rw [heq, ← UInt64.toNat_inj, UInt64.toNat_mod, toNat_pageAddr hp.le, toNat_pageSize]
    exact Nat.mul_mod_left p 4096
  rw [if_neg halign]
  by_cases hrange : physMemSize ≤ addr
  · exact Or.inl ⟨if_pos hrange, fun p hp heq => absurd (heq ▸ hrange) (pageAddr_lt hp)⟩
  rw [if_neg hrange]
  simp only [toNat_page]
  have hlt : addr.toNat / 4096 < pmmMaxPages := by
    rw [UInt64.le_iff_toNat_le, toNat_physMemSize] at hrange
    rw [pmmMaxPages_eq]
    omega
  have haddr : addr = pageAddr (addr.toNat / 4096) := by
    rw [Ne, not_not, ← UInt64.toNat_inj, UInt64.toNat_mod, toNat_pageSize] at halign
    rw [← UInt64.toNat_inj, toNat_pageAddr hlt.le]
    change addr.toNat % 4096 = 0 at halign
    omega
  cases htest : bitmapTest pmm.bitmap (addr.toNat / 4096) with
  | false =>
    refine Or.inl ⟨by simp, fun p hp heq => mem_freeSet.mpr ⟨hp, ?_⟩⟩
    rw [heq, toNat_pageAddr hp.le, mul_page_div] at htest
    exact htest
  | true =>
    exact Or.inr ⟨addr.toNat / 4096, haddr, hlt, notMem_freeSet htest, freeSet_bitmapClear hlt,
      rfl, rfl, rfl⟩

/-- After `pmm_free` the free pages are those that were free, and the page of the address
if it has one. -/
theorem mem_freeSet_pmmFree (pmm : Pmm) (addr : Paddr) {q : Nat} :
    q ∈ freeSet (pmmFree pmm addr).bitmap ↔
      q ∈ freeSet pmm.bitmap ∨ q < pmmMaxPages ∧ addr = pageAddr q := by
  rcases pmmFree_cases pmm addr with ⟨heq, hfree⟩ | ⟨p, rfl, hrel⟩
  · rw [heq]
    refine ⟨Or.inl, ?_⟩
    rintro (hq | ⟨hq, haddr⟩)
    · exact hq
    · exact hfree q hq haddr
  · rw [hrel.freeSet_eq, Finset.mem_insert]
    constructor
    · rintro (rfl | hq)
      · exact Or.inr ⟨hrel.lt, rfl⟩
      · exact Or.inl hq
    · rintro (hq | ⟨hq, haddr⟩)
      · exact Or.inr hq
      · exact Or.inl (pageAddr_inj hq hrel.lt haddr.symm)

/-- The same for several addresses, freed one after the other. -/
theorem mem_freeSet_foldl_pmmFree (addrs : List Paddr) (pmm : Pmm) {q : Nat} :
    q ∈ freeSet (addrs.foldl pmmFree pmm).bitmap ↔
      q ∈ freeSet pmm.bitmap ∨ q < pmmMaxPages ∧ pageAddr q ∈ addrs := by
  induction addrs generalizing pmm with
  | nil => simp
  | cons addr addrs ih =>
    rw [List.foldl_cons, ih, mem_freeSet_pmmFree, List.mem_cons, or_assoc, ← and_or_left,
      eq_comm]

theorem pmmIsFree_iff (pmm : Pmm) (addr : Paddr) :
    pmmIsFree pmm addr = true ↔ addr.toNat / 4096 ∈ freeSet pmm.bitmap := by
  unfold pmmIsFree
  rw [mem_freeSet, toNat_page, pmmMaxPages_eq]
  by_cases hrange : physMemSize ≤ addr
  · rw [if_pos hrange]
    rw [UInt64.le_iff_toNat_le, toNat_physMemSize] at hrange
    exact ⟨fun h => Bool.noConfusion h, fun h => absurd h.1 (by omega)⟩
  · rw [if_neg hrange, Bool.not_eq_true']
    rw [UInt64.le_iff_toNat_le, toNat_physMemSize] at hrange
    exact ⟨fun h => ⟨by omega, h⟩, fun h => h.2⟩

end OsKernel
