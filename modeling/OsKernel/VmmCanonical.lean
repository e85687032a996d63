import OsKernel.VmmFailure

/-! # The bits of an address the page tables see

The tables are indexed by bits 47..12 of a virtual address, and an entry has room for
bits 51..12 of a physical one.  Nothing checks the other bits.  On canonical addresses
bits 63..48 repeat bit 47, so that no two pages are confused; any other address is an
alias of the canonical one with the same low bits.
-/
namespace OsKernel

/-- Bits 63..48 are the sign extension of bit 47. -/
def IsCanonical (va : Vaddr) : Prop := va.toNat / 2 ^ 47 = 0 ∨ va.toNat / 2 ^ 47 = 2 ^ 17 - 1

instance (va : Vaddr) : Decidable (IsCanonical va) := inferInstanceAs (Decidable (_ ∨ _))

variable {Space : Type*} [DecidableEq Space] {k : Space} {w : World Space} {vmm vmm' : Vmm}
  {s' : PhysState} {virt v : Vaddr} {phys : Paddr} {flags : UInt64}

/-- Canonical addresses with the same page number are on the same page. -/
theorem IsCanonical.page_eq (hv : IsCanonical v) (hvirt : IsCanonical virt)
    (h : pageNumber v = pageNumber virt) : v >>> 12 = virt >>> 12 := by
  have hval : v.toNat / 4096 % 2 ^ 36 = virt.toNat / 4096 % 2 ^ 36 := congrArg Fin.val h
  rw [← UInt64.toNat_inj, UInt64.toNat_shiftRight, UInt64.toNat_shiftRight,
    show (12 : UInt64).toNat % 64 = 12 from rfl, Nat.shiftRight_eq_div_pow,
    Nat.shiftRight_eq_div_pow]
  have hlt := v.toNat_lt
  have hlt' := virt.toNat_lt
  unfold IsCanonical at hv hvirt
  omega

/-- A frame keeps all its bits exactly when it lies below `2 ^ 52`. -/
theorem alignDown_land_addrMask_iff (phys : Paddr) (o : UInt64) (ho : o.toNat < 4096) :
    (alignDown phys pageSize &&& pteAddrMask) ||| o = alignDown phys pageSize ||| o ↔
      phys.toNat < 2 ^ 52 := by
  have hlt := phys.toNat_lt
  have hfield : (alignDown phys pageSize &&& pteAddrMask).toNat =
      2 ^ 12 * (phys.toNat / 4096 % 2 ^ 40) := by
    rw [toNat_land_addrMask, toNat_alignDown_page]
    omega
  have hframe : (alignDown phys pageSize).toNat = 2 ^ 12 * (phys.toNat / 4096) := by
    rw [toNat_alignDown_page]
    omega
  rw [← UInt64.toNat_inj, UInt64.toNat_or, UInt64.toNat_or, hfield, hframe,
    ← Nat.two_pow_add_eq_or_of_lt ho, ← Nat.two_pow_add_eq_or_of_lt ho]
  omega

/-- **What `vmm_map` maps, for every 64-bit argument.**  In every reachable state, a call
that returns 0 maps the page with the page number of `virt`, bits 47..12 of it, to the
frame given by bits 51..12 of `phys`: this is the frame asked for exactly when `phys`
lies below `2 ^ 52`.  Every address with another page number is translated as before;
so a canonical address is not disturbed by mapping another canonical page. -/
theorem vmm_map_address_bits {s₀ : PhysState} {ops : List (WorldOp Space)}
    (hrun : Run WorldStep (World.start s₀) ops w) (hk : w.spaces k = some vmm)
    (hflags : flags &&& pteAddrMask = 0)
    (hok : vmmMap vmm w.phys virt phys flags = (0, vmm', s')) :
    (vmmTranslate vmm' s'.mem virt = .ok (alignDown phys pageSize ||| pageOffset virt) ↔
        phys.toNat < 2 ^ 52) ∧
      (∀ v, pageNumber v = pageNumber virt → vmmTranslate vmm' s'.mem v =
        .ok ((alignDown phys pageSize &&& pteAddrMask) ||| pageOffset v)) ∧
      (∀ v, pageNumber v ≠ pageNumber virt →
        vmmTranslate vmm' s'.mem v = vmmTranslate vmm w.phys.mem v) ∧
      (IsCanonical virt → ∀ v, IsCanonical v → v >>> 12 ≠ virt >>> 12 →
        vmmTranslate vmm' s'.mem v = vmmTranslate vmm w.phys.mem v) := by
  rcases space_cases hrun hk with hnone | ⟨root, hvalid⟩
  · rw [vmmMap_none hnone] at hok
    cases hok
  · obtain ⟨ret, vmm₁, s₁, heq, hvalid', hcase⟩ := vmmMap_outcome hvalid virt phys flags
    rw [heq] at hok
    obtain ⟨rfl, rfl, rfl⟩ : ret = 0 ∧ vmm₁ = vmm' ∧ s₁ = s' := by simpa using hok
    rcases hcase with ⟨hret, -⟩ | ⟨-, hdone⟩
    · cases hret
    have hsame : ∀ v, pageNumber v = pageNumber virt → vmmTranslate vmm₁ s₁.mem v =
        .ok ((alignDown phys pageSize &&& pteAddrMask) ||| pageOffset v) := by
      intro v hv
      rw [vmmTranslate_eq hvalid'.pml4 hvalid'.tables, hdone.entries, hv, Function.update_self,
        if_pos (isPresent_leafPte phys flags), leafPte, entry_land_addrMask hflags]
    have hother : ∀ v, pageNumber v ≠ pageNumber virt →
        vmmTranslate vmm₁ s₁.mem v = vmmTranslate vmm w.phys.mem v := by
      intro v hv
      rw [vmmTranslate_eq hvalid'.pml4 hvalid'.tables, vmmTranslate_eq hvalid.pml4 hvalid.tables,
        hdone.entries, Function.update_of_ne hv]
    refine ⟨?_, hsame, hother, fun hvirt v hv hpage => ?_⟩
    · rw [hsame virt rfl, Except.ok.injEq]
      have hoffset : (pageOffset virt).toNat < 4096 := by
        rw [toNat_pageOffset]
        exact Nat.mod_lt _ (by decide)
      exact alignDown_land_addrMask_iff phys _ hoffset
    · exact hother v fun h => hpage (hv.page_eq hvirt h)

theorem vmm_map_address_bits_fresh : ∃ (s₀ : PhysState) (w : World Unit) (vmm vmm' : Vmm)
    (s' : PhysState), s₀ = ⟨freshPmm, fun _ => 0⟩ ∧ WorldStep (World.start s₀) (.init ()) w ∧
      w.spaces () = some vmm ∧ vmmMap vmm w.phys 0x400123 0x5000 3 = (0, vmm', s') ∧
      vmmTranslate vmm' s'.mem 0x400123 =
        .ok (alignDown 0x5000 pageSize ||| pageOffset 0x400123) := by
  obtain ⟨s₀, hs₀, hfree⟩ : ∃ s₀ : PhysState, s₀ = ⟨freshPmm, fun _ => 0⟩ ∧
    available s₀.pmm = 16383 + 1 := ⟨_, rfl, available_freshPmm⟩
  obtain ⟨root, hvalid, hpages, -⟩ := vmmInit_available hfree
  obtain ⟨vmm', s', hok, -⟩ := vmmMap_enough hvalid (by omega) 0x400123 0x5000 3
  obtain ⟨hstep, hk⟩ := start_init s₀ ()
  exact ⟨s₀, _, _, vmm', s', hs₀, hstep, hk, hok,
    (vmm_map_address_bits (Run.nil.snoc hstep) hk (by decide) hok).1.mpr (by decide)⟩

/-- Bit 48 is not looked at: mapping `0x400000` maps `0x1000000400000` too. -/
theorem vmm_map_aliases :
    ¬ ∀ (s₀ : PhysState) (ops : List (WorldOp Unit)) (w : World Unit) (vmm vmm' : Vmm)
      (virt : Vaddr) (phys : Paddr) (flags : UInt64) (s' : PhysState),
      Run WorldStep (World.start s₀) ops w → w.spaces () = some vmm → flags &&& pteAddrMask = 0 →
      vmmMap vmm w.phys virt phys flags = (0, vmm', s') →
      vmmTranslate vmm' s'.mem virt = .ok (alignDown phys pageSize ||| pageOffset virt) ∧
        ∀ v : Vaddr, v >>> 12 ≠ virt >>> 12 →
          vmmTranslate vmm' s'.mem v = vmmTranslate vmm w.phys.mem v := by
  intro hclaim
  obtain ⟨s₀, hfree⟩ : ∃ s₀ : PhysState, available s₀.pmm = 16383 + 1 :=
    ⟨⟨freshPmm, fun _ => 0⟩, available_freshPmm⟩
  obtain ⟨root, hvalid, hpages, -, hentry⟩ := vmmInit_available hfree
  obtain ⟨vmm', s', hok, hvalid', hdone⟩ := vmmMap_enough hvalid (by omega) 0x400000 0x5000 3
  obtain ⟨hstep, hk⟩ := start_init s₀ ()
  have hsame := (hclaim s₀ _ _ _ _ _ _ _ s' (Run.nil.snoc hstep) hk
    (by decide) hok).2 0x1000000400000 (by decide)
  change _ = vmmTranslate (vmmInit s₀).1 (vmmInit s₀).2.mem _ at hsame
  rw [vmmTranslate_eq hvalid.pml4 hvalid.tables, vmmTranslate_eq hvalid'.pml4 hvalid'.tables,
    hdone.entries, hentry, show pageNumber 0x1000000400000 = pageNumber 0x400000 by decide,
    Function.update_self] at hsame
  exact absurd hsame (by decide)

end OsKernel
