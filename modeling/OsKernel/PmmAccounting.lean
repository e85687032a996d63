import OsKernel.Pmm
import OsKernel.Runs

/-! # The page counters agree with the bitmap

`free_pages` is the number of clear bits, and `free_pages + used_pages` is
`total_pages`.  Every call of the manager keeps both, whatever its arguments: an
allocation moves its pages from one side to the other, and a free either rejects
the address or moves one page back.
-/
namespace OsKernel

/-- The calls a client of the manager can make. -/
inductive PmmOp
  | alloc
  | allocN (n : UInt64)
  | free (addr : Paddr)
  | freeN (addr : Paddr) (n : UInt64)

/-- The state a call leaves behind. -/
def pmmStep (s : PhysState) : PmmOp → PhysState
  | .alloc => (pmmAlloc s).2
  | .allocN n => (pmmAllocN s n).2
  | .free addr => { s with pmm := pmmFree s.pmm addr }
  | .freeN addr n => { s with pmm := pmmFreeN s.pmm addr n }

/-- `pmmStep` as a transition relation. -/
def PmmStep (s : PhysState) (op : PmmOp) (s' : PhysState) : Prop := s' = pmmStep s op

/-- The two equalities between the counters and the bitmap. -/
structure Accounted (pmm : Pmm) : Prop where
  free : pmm.freePages.toNat = (freeSet pmm.bitmap).card
  total : pmm.freePages + pmm.usedPages = pmm.totalPages

variable {s s' t : PhysState} {pmm pmm' : Pmm} {P : Finset Nat} {p : Nat}

theorem Taken.card_le (h : Taken s P s') : P.card ≤ (freeSet s.pmm.bitmap).card :=
  Finset.card_le_card h.free

theorem Taken.card_lt (h : Taken s P s') : P.card < 2 ^ 64 := by
  have h1 := h.card_le
  have h2 := card_freeSet_le s.pmm.bitmap
  rw [pmmMaxPages_eq] at h2
  omega

/-- Taking pages lowers `free_pages` by their number, without wrapping. -/
theorem Taken.freePages_add (h : Taken s P s')
    (hfree : s.pmm.freePages.toNat = (freeSet s.pmm.bitmap).card) :
    s'.pmm.freePages.toNat + P.card = s.pmm.freePages.toNat := by
  have hle := h.card_le
  rw [← hfree] at hle
  rw [h.freePages_eq, UInt64.toNat_sub_of_le, UInt64.toNat_ofNat_of_lt' h.card_lt]
  · omega
  · rw [UInt64.le_iff_toNat_le, UInt64.toNat_ofNat_of_lt' h.card_lt]
    exact hle

theorem Taken.accounted (h : Taken s P s') (hs : Accounted s.pmm) : Accounted s'.pmm where
  free := by
    have hsum := h.freePages_add hs.free
    rw [h.freeSet_eq, Finset.card_sdiff_of_subset h.free, ← hs.free]
    omega
  total := by
    rw [h.freePages_eq, h.usedPages_eq, h.totalPages_eq, ← hs.total]
    grind

/-- Giving a page back raises `free_pages` by one, without wrapping. -/
theorem Released.freePages_succ (h : Released pmm p pmm') (hs : Accounted pmm) :
    pmm'.freePages.toNat = pmm.freePages.toNat + 1 := by
  have hle := card_freeSet_le pmm.bitmap
  rw [← hs.free, pmmMaxPages_eq] at hle
  rw [h.freePages_eq, UInt64.toNat_add, UInt64.toNat_one]
  omega

theorem Released.accounted (h : Released pmm p pmm') (hs : Accounted pmm) : Accounted pmm' where
  free := by
    rw [h.freePages_succ hs, h.freeSet_eq, Finset.card_insert_of_notMem h.used, hs.free]
  total := by
    rw [h.freePages_eq, h.usedPages_eq, h.totalPages_eq, ← hs.total]
    grind

theorem pmmFree_accounted (hs : Accounted pmm) (addr : Paddr) : Accounted (pmmFree pmm addr) := by
  rcases pmmFree_cases pmm addr with ⟨heq, -⟩ | ⟨p, -, hrel⟩
  · rw [heq]
    exact hs
  · exact hrel.accounted hs

/-- A free page stays free when another is freed. -/
theorem freeSet_subset_pmmFree (pmm : Pmm) (addr : Paddr) :
    freeSet pmm.bitmap ⊆ freeSet (pmmFree pmm addr).bitmap :=
  fun _ hp => (mem_freeSet_pmmFree pmm addr).mpr (Or.inl hp)

/-- One call keeps the accounts. -/
theorem pmmStep_accounted (hs : Accounted s.pmm) (op : PmmOp) : Accounted (pmmStep s op).pmm := by
  cases op with
  | alloc =>
    rcases pmmAlloc_outcome s with ⟨why, heq⟩ | ⟨p, s', heq, -, htaken⟩
    · rw [pmmStep, heq]; exact hs
    · rw [pmmStep, heq]; exact htaken.accounted hs
  | allocN n =>
    rcases pmmAllocN_outcome s n with ⟨why, heq⟩ | ⟨p, s', heq, -, htaken⟩
    · rw [pmmStep, heq]; exact hs
    · rw [pmmStep, heq]; exact htaken.accounted hs
  | free addr => exact pmmFree_accounted hs addr
  | freeN addr n =>
    exact pmmFreeN_induction Accounted hs addr n fun _ _ _ h => pmmFree_accounted h _

theorem run_accounted {ops : List PmmOp} (hs : Accounted s.pmm) (hrun : Run PmmStep s ops t) :
    Accounted t.pmm := by
  apply hrun.invariant (fun t => Accounted t.pmm) hs
  rintro t op u ht rfl
  exact pmmStep_accounted ht op

/-- While the accounts hold, a scan that is started finds a free page. -/
theorem pmmAlloc_ne_noFreePage (hs : Accounted s.pmm) : (pmmAlloc s).1 ≠ .failed .noFreePage := by
  rcases pmmAlloc_cases s with ⟨heq, -⟩ | ⟨-, hne, hempty⟩ | ⟨p, s', heq, -⟩
  · rw [heq]; simp
  · refine absurd ?_ hne
    rw [← UInt64.toNat_inj, hs.free, hempty]
    rfl
  · rw [heq]; simp

/-- `free_pages` moves by exactly the number of pages a call takes or gives back,
as an integer: none of the increments and decrements of the call wraps. -/
def FreePagesExact (s : PhysState) : PmmOp → Prop
  | .alloc => ∀ addr s', pmmAlloc s = (.page addr, s') →
      s'.pmm.freePages.toNat + 1 = s.pmm.freePages.toNat
  | .allocN n => ∀ addr s', pmmAllocN s n = (.page addr, s') →
      s'.pmm.freePages.toNat + n.toNat = s.pmm.freePages.toNat
  | .free addr => pmmFree s.pmm addr = s.pmm ∨
      (pmmFree s.pmm addr).freePages.toNat = s.pmm.freePages.toNat + 1
  | .freeN addr n => (pmmFreeN s.pmm addr n).freePages.toNat =
      s.pmm.freePages.toNat +
        (freeSet (pmmFreeN s.pmm addr n).bitmap \ freeSet s.pmm.bitmap).card

theorem freePagesExact (hs : Accounted s.pmm) (op : PmmOp) : FreePagesExact s op := by
  cases op with
  | alloc =>
    intro addr s' h
    obtain ⟨p, -, htaken⟩ := pmmAlloc_page h
    exact htaken.freePages_add hs.free
  | allocN n =>
    intro addr s' h
    obtain ⟨p, -, -, htaken⟩ := pmmAllocN_page h
    have hsum := htaken.freePages_add hs.free
    rw [card_stretch] at hsum
    exact hsum
  | free addr =>
    rcases pmmFree_cases s.pmm addr with ⟨heq, -⟩ | ⟨p, -, hrel⟩
    · exact Or.inl heq
    · exact Or.inr (hrel.freePages_succ hs)
  | freeN addr n =>
    have hgrow : freeSet s.pmm.bitmap ⊆ freeSet (pmmFreeN s.pmm addr n).bitmap := by
      refine pmmFreeN_induction (fun q => freeSet s.pmm.bitmap ⊆ freeSet q.bitmap)
        (Finset.Subset.refl _) addr n fun q i _ h => ?_
      exact h.trans (freeSet_subset_pmmFree q _)
    have hs' : Accounted (pmmFreeN s.pmm addr n) := pmmStep_accounted hs (.freeN addr n)
    have hcard := Finset.card_le_card hgrow
    rw [FreePagesExact, hs'.free, hs.free, Finset.card_sdiff_of_subset hgrow]
    omega

/-- **The manager's accounts.**  From a state whose counters agree with the
bitmap, after any calls with any arguments the counters still agree, a scan that
is started finds a page, and no call makes `free_pages` wrap. -/
theorem pmm_accounts {ops : List PmmOp} (hs : Accounted s.pmm) (hrun : Run PmmStep s ops t) :
    Accounted t.pmm ∧ (pmmAlloc t).1 ≠ .failed .noFreePage ∧
      t.pmm.freePages.toNat ≤ pmmMaxPages ∧ ∀ op, FreePagesExact t op := by
  have ht := run_accounted hs hrun
  exact ⟨ht, pmmAlloc_ne_noFreePage ht, ht.free ▸ card_freeSet_le _, freePagesExact ht⟩

/-- A manager of the whole memory, with every page free. -/
def freshPmm : Pmm :=
  { bitmap := Vector.replicate _ 0, totalPages := 16384, freePages := 16384, usedPages := 0 }

theorem freeSet_freshPmm : freeSet freshPmm.bitmap = Finset.range pmmMaxPages := by
  apply Finset.filter_true_of_mem
  intro p hp
  have hbyte : freshPmm.bitmap[p / 8]! = 0 := by
    rw [getElem!_pos freshPmm.bitmap _ (byte_index_lt (Finset.mem_range.mp hp))]
    exact Vector.getElem_replicate _
  rw [bitmapTest_eq, hbyte]
  exact BitVec.getLsbD_zero

theorem freshPmm_accounted : Accounted freshPmm where
  free := by rw [freeSet_freshPmm, Finset.card_range]; rfl
  total := rfl

theorem pmm_accounts_fresh :
    Accounted (pmmStep (pmmStep ⟨freshPmm, fun _ => 0⟩ (.allocN 3)) (.freeN 4096 7)).pmm :=
  (pmm_accounts freshPmm_accounted ((Run.nil.snoc rfl).snoc rfl)).1

end OsKernel
