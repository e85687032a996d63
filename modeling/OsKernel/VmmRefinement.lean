import OsKernel.PmmAccounting
import OsKernel.VmmPaths

/-! # An address space is a partial map

What an address space is for: it holds a partial map from page numbers to
physical frames, and the interface reads and changes this map.  `Refines` says
that an address space and a memory stand for a given map; the results below say
that every address space that was initialised stands for one after any calls, and
what the calls do to it.
-/
namespace OsKernel

/-- The abstract state of an address space. -/
abbrev PageMap := PageNumber → Option Paddr

/-- **The address space stands for the map `M`.** -/
structure Refines (vmm : Vmm) (mem : Memory) (M : PageMap) : Prop where
  frames : ∀ page a, M page = some a → a &&& pteAddrMask = a
  translate : ∀ virt, vmmTranslate vmm mem virt = .ok
    (match M (pageNumber virt) with
    | some a => a ||| pageOffset virt
    | none => noAddr)
  isMapped : ∀ virt, vmmIsMapped vmm mem virt = .ok (M (pageNumber virt)).isSome
  mapped : vmm.mapped.toNat = {page | M page ≠ none}.ncard

/-- The frame a leaf entry maps its page to. -/
def entryFrame (pte : UInt64) : Option Paddr :=
  if isPresent pte then some (pte &&& pteAddrMask) else none

/-- The map the leaf entries spell out. -/
def pageMap (mem : Memory) (root : Nat) : PageMap :=
  fun page => entryFrame (pageEntry mem root page)

variable {vmm : Vmm} {s : PhysState} {m m' : Memory} {root : Nat} {page : PageNumber} {pte : UInt64}

theorem entryFrame_eq_none : entryFrame pte = none ↔ ¬ isPresent pte := by
  rw [entryFrame]
  split <;> simp_all

/-- A translated address is never the failure value: it has at most 52 bits. -/
theorem land_addrMask_lor_pageOffset_ne (x virt : UInt64) :
    (x &&& pteAddrMask) ||| pageOffset virt ≠ noAddr := by
  intro h
  have hframe : (x &&& pteAddrMask).toNat < 2 ^ 52 := by
    rw [toNat_land_addrMask]
    omega
  have hoffset : (pageOffset virt).toNat < 2 ^ 52 := by
    rw [pageOffset, UInt64.toNat_and]
    exact Nat.and_lt_two_pow _ (by decide)
  have hlt := Nat.or_lt_two_pow hframe hoffset
  rw [← UInt64.toNat_or, h] at hlt
  exact absurd hlt (by decide)

/-- A valid address space stands for the map its leaf entries spell out. -/
theorem VmmValid.refines (h : VmmValid vmm s root) : Refines vmm s.mem (pageMap s.mem root) where
  frames := by
    intro page a ha
    rw [pageMap, entryFrame] at ha
    split at ha
    · rw [← Option.some.inj ha, UInt64.and_assoc, UInt64.and_self]
    · cases ha
  translate := by
    intro virt
    rw [vmmTranslate_eq h.pml4 h.tables, pageMap, entryFrame]
    by_cases hp : isPresent (pageEntry s.mem root (pageNumber virt))
    · rw [if_pos hp, if_pos hp]
    · rw [if_neg hp, if_neg hp]
  isMapped := by
    intro virt
    simp only [vmmIsMapped, vmmTranslate_eq h.pml4 h.tables, pageMap, entryFrame, bind, Except.bind,
      pure, Except.pure]
    by_cases hp : isPresent (pageEntry s.mem root (pageNumber virt))
    · simp [hp, land_addrMask_lor_pageOffset_ne]
    · simp [hp]
  mapped := by
    rw [h.mapped]
    congr 1
    ext page
    change isPresent _ ↔ entryFrame _ ≠ none
    rw [Ne, entryFrame_eq_none, not_not]

theorem pageMap_update (hentry : pageEntry m' root = Function.update (pageEntry m root) page pte) :
    pageMap m' root = Function.update (pageMap m root) page (entryFrame pte) := by
  funext page'
  rw [pageMap, hentry]
  by_cases h : page' = page
  · subst h
    rw [Function.update_self, Function.update_self]
  · rw [Function.update_of_ne h, Function.update_of_ne h]
    rfl

/-- The entry `vmm_map` writes maps the page to the frame it was given. -/
theorem entryFrame_leafPte {phys : Paddr} {flags : UInt64} (hphys : phys.toNat < 2 ^ 52)
    (hflags : flags &&& pteAddrMask = 0) :
    entryFrame (leafPte phys flags) = some (alignDown phys pageSize) := by
  have haddr : leafPte phys flags &&& pteAddrMask = alignDown phys pageSize := by
    rw [leafPte, entry_land_addrMask hflags, ← UInt64.toNat_inj, toNat_land_addrMask,
      toNat_alignDown_page]
    omega
  rw [entryFrame, if_pos (isPresent_leafPte phys flags), haddr]

/-! ## Runs of one address space -/

/-- An address space and the memory it lives in. -/
structure VmmState where
  vmm : Vmm
  phys : PhysState

/-- One call returns. -/
def VmmStep (st : VmmState) (op : VmmOp) (st' : VmmState) : Prop :=
  ∃ ret, vmmCall st.vmm st.phys op = .ok (ret, st'.vmm, st'.phys)

/-- The state `vmm_init` leaves behind. -/
def vmmStart (s : PhysState) : VmmState := ⟨(vmmInit s).1, (vmmInit s).2⟩

/-- After any calls the tables have only grown since `vmm_init`. -/
theorem run_grows {s₀ : PhysState} {ops : List VmmOp} {st : VmmState}
    (hvalid : VmmValid (vmmInit s₀).1 (vmmInit s₀).2 root)
    (hrun : Run VmmStep (vmmStart s₀) ops st) :
    VmmValid st.vmm st.phys root ∧ Grows root (vmmInit s₀).2 st.phys := by
  refine hrun.invariant (fun st => VmmValid st.vmm st.phys root ∧
    Grows root (vmmInit s₀).2 st.phys) ⟨hvalid, Grows.refl hvalid.tables⟩ ?_
  rintro t op u ⟨ht, hgrow⟩ ⟨ret, hcall⟩
  obtain ⟨ret', vmm', s', heq, hgrow', hvalid'⟩ := vmmCall_spec ht op
  rw [heq] at hcall
  obtain ⟨-, rfl, rfl⟩ : ret' = ret ∧ vmm' = u.vmm ∧ s' = u.phys := by simpa using hcall
  exact ⟨hvalid', hgrow.trans hgrow'⟩

/-- **The virtual memory manager refines a partial map.**  After a `vmm_init` that
succeeded and any calls, whether they succeed or not, the address space stands
for a map `M`.  `vmm_map` changes `M` at its own page when it returns 0 and not at
all when it returns -1; `vmm_unmap` returns 0 exactly on the pages of `M`, and then
removes the page; and no call goes through a `NULL` table. -/
theorem vmm_refines_pageMap {s₀ : PhysState} {ops : List VmmOp} {st : VmmState}
    (hinit : (vmmInit s₀).1.pml4 ≠ none) (hrun : Run VmmStep (vmmStart s₀) ops st) :
    ∃ M : PageMap, Refines st.vmm st.phys.mem M ∧
      (∀ virt phys flags, phys.toNat < 2 ^ 52 → flags &&& pteAddrMask = 0 →
        ∃ ret vmm' s', vmmMap st.vmm st.phys virt phys flags = (ret, vmm', s') ∧
          ((ret = 0 ∧ Refines vmm' s'.mem
              (Function.update M (pageNumber virt) (some (alignDown phys pageSize)))) ∨
            (ret = -1 ∧ Refines vmm' s'.mem M))) ∧
      (∀ virt, ∃ ret vmm' s', vmmUnmap st.vmm st.phys virt = .ok (ret, vmm', s') ∧
          ((ret = 0 ∧ M (pageNumber virt) ≠ none ∧
              Refines vmm' s'.mem (Function.update M (pageNumber virt) none)) ∨
            (ret = -1 ∧ M (pageNumber virt) = none ∧ Refines vmm' s'.mem M))) ∧
      ∀ op, ∃ r, vmmCall st.vmm st.phys op = .ok r := by
  rcases vmmInit_cases s₀ with ⟨hnone, -⟩ | ⟨q, -, -, -, hvalid, -⟩
  · exact absurd hnone hinit
  obtain ⟨hst, -⟩ := run_grows hvalid hrun
  refine ⟨pageMap st.phys.mem (q * 4096), hst.refines, ?_, ?_, ?_⟩
  · intro virt phys flags hphys hflags
    obtain ⟨ret, vmm', s', heq, -, hvalid', hcase⟩ := vmmMap_spec hst virt phys flags
    refine ⟨ret, vmm', s', heq, ?_⟩
    have href := hvalid'.refines
    rcases hcase with ⟨hret, hentry⟩ | ⟨hret, hentry⟩
    · refine Or.inr ⟨hret, ?_⟩
      have hsame : pageMap s'.mem (q * 4096) = pageMap st.phys.mem (q * 4096) := by
        funext page
        rw [pageMap, hentry]
        rfl
      rw [← hsame]
      exact href
    · refine Or.inl ⟨hret, ?_⟩
      rw [pageMap_update hentry, entryFrame_leafPte hphys hflags] at href
      exact href
  · intro virt
    obtain ⟨ret, vmm', s', heq, -, hvalid', hcase⟩ := vmmUnmap_spec hst virt
    refine ⟨ret, vmm', s', heq, ?_⟩
    have href := hvalid'.refines
    rcases hcase with ⟨hret, hp, rfl⟩ | ⟨hret, hp, hentry⟩
    · exact Or.inr ⟨hret, entryFrame_eq_none.mpr hp, href⟩
    · refine Or.inl ⟨hret, fun h => entryFrame_eq_none.mp h hp, ?_⟩
      rw [pageMap_update hentry, entryFrame_eq_none.mpr fun h => h rfl] at href
      exact href
  · intro op
    obtain ⟨ret, vmm', s', heq, -⟩ := vmmCall_spec hst op
    exact ⟨_, heq⟩

theorem available_freshPmm : available freshPmm = 16384 := by
  rw [available, freeSet_freshPmm, Finset.card_range]
  decide

theorem vmmInit_fresh : (vmmInit ⟨freshPmm, fun _ => 0⟩).1.pml4 ≠ none := by
  apply vmmInit_ne_none
  rw [available_freshPmm]
  decide

theorem vmmStep_map (st : VmmState) (virt : Vaddr) (phys : Paddr) (flags : UInt64) :
    VmmStep st (.map virt phys flags)
      ⟨(vmmMap st.vmm st.phys virt phys flags).2.1, (vmmMap st.vmm st.phys virt phys flags).2.2⟩ :=
  ⟨_, rfl⟩

/-- The first page of a new address space: it is mapped, stands in the map, and can be
removed again. -/
theorem vmm_refines_pageMap_fresh : ∃ (s₀ : PhysState) (st : VmmState) (M : PageMap),
    s₀.pmm = freshPmm ∧
      vmmMap (vmmInit s₀).1 (vmmInit s₀).2 0x400000 0x5000 3 = (0, st.vmm, st.phys) ∧
      Refines st.vmm st.phys.mem M ∧ M (pageNumber 0x400000) = some 0x5000 ∧
      ∃ vmm' s', vmmUnmap st.vmm st.phys 0x400000 = .ok (0, vmm', s') ∧
        Refines vmm' s'.mem (Function.update M (pageNumber 0x400000) none) := by
  obtain ⟨s₀, hs₀, hinit, hfree⟩ : ∃ s₀ : PhysState, s₀.pmm = freshPmm ∧
      (vmmInit s₀).1.pml4 ≠ none ∧ available s₀.pmm = 16383 + 1 :=
    ⟨_, rfl, vmmInit_fresh, available_freshPmm⟩
  obtain ⟨root, hvalid, hpages, -⟩ := vmmInit_available hfree
  obtain ⟨vmm₁, s₁, hmap, hvalid₁, hdone⟩ := vmmMap_enough hvalid (by omega) 0x400000 0x5000 3
  have hstep : VmmStep (vmmStart s₀) (.map 0x400000 0x5000 3) ⟨vmm₁, s₁⟩ :=
    ⟨0, congrArg Except.ok hmap⟩
  obtain ⟨M, href, -, hunmap, -⟩ := vmm_refines_pageMap hinit (Run.nil.snoc hstep)
  have hpage : M (pageNumber 0x400000) = some 0x5000 := by
    have hentry := congrFun hdone.entries (pageNumber 0x400000)
    rw [Function.update_self] at hentry
    have htranslate := href.translate 0x400000
    rw [vmmTranslate_eq hvalid₁.pml4 hvalid₁.tables, hentry] at htranslate
    cases hM : M (pageNumber 0x400000) with
    | none =>
      rw [hM] at htranslate
      exact absurd htranslate (by decide)
    | some a =>
      rw [hM] at htranslate
      have hframe := (Except.ok.inj htranslate).symm
      rw [show pageOffset 0x400000 = 0 by decide] at hframe
      dsimp only at hframe
      rw [UInt64.or_zero] at hframe
      rw [hframe]
      decide
  refine ⟨s₀, ⟨vmm₁, s₁⟩, M, hs₀, hmap, href, hpage, ?_⟩
  obtain ⟨ret, vmm', s', heq, ⟨rfl, -, href'⟩ | ⟨-, hnone, -⟩⟩ := hunmap 0x400000
  · exact ⟨vmm', s', heq, href'⟩
  · rw [hpage] at hnone
    cases hnone

end OsKernel
