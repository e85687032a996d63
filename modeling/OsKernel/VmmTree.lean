import OsKernel.VmmRefinement

/-! # The tables of an address space are a tree it owns

Following present entries from the PML4 down to the page directories visits every
table once.  All visited frames are marked used in the bitmap, and there are as
many of them as pages have left `free_pages` since just before `vmm_init`: a call
that runs out of memory halfway leaves no frame behind that cannot be reached.
-/
namespace OsKernel

/-- The table frames, in the order in which a walk over the present entries of the
PML4, the PDPTs and the page directories meets them. -/
def visitTables (mem : Memory) (root : Nat) : List Nat := visit (child mem) (List.range 512) 3 root

variable {s : PhysState} {m : Memory} {root f : Nat}

theorem mem_visitTables : f ∈ visitTables m root ↔ f ∈ tableFrames m root :=
  mem_visit fun _ _ h => List.mem_range.mpr (child_ne_none h)

theorem PageTables.nodup_visitTables (h : PageTables s root) : (visitTables s.mem root).Nodup :=
  nodup_visit (fun _ _ h => List.mem_range.mpr (child_ne_none h)) List.nodup_range h.tree (p := [])
    (Nat.le_refl 3) rfl

theorem PageTables.length_visitTables (h : PageTables s root) :
    (visitTables s.mem root).length = (tableFrames s.mem root).ncard := by
  have hset : tableFrames s.mem root = ↑(visitTables s.mem root).toFinset := by
    ext f
    rw [Finset.mem_coe, List.mem_toFinset, mem_visitTables]
  rw [hset, Set.ncard_coe_finset, List.toFinset_card_of_nodup h.nodup_visitTables]

/-- **The page tables are an owned tree.** -/
theorem vmm_tables_owned {s₀ : PhysState} {ops : List VmmOp} {st : VmmState}
    (hinit : (vmmInit s₀).1.pml4 ≠ none) (hrun : Run VmmStep (vmmStart s₀) ops st) :
    ∃ root, st.vmm.pml4 = some root ∧ (visitTables st.phys.mem root).Nodup ∧
      (∀ f ∈ visitTables st.phys.mem root, f % 4096 = 0 ∧ f < physMemSize.toNat ∧
        bitmapTest st.phys.pmm.bitmap (f / 4096) = true) ∧
      st.phys.pmm.freePages.toNat + (visitTables st.phys.mem root).length =
        s₀.pmm.freePages.toNat := by
  rcases vmmInit_cases s₀ with ⟨hnone, -⟩ | ⟨q, -, hne, htaken, hvalid, hframes, -⟩
  · exact absurd hnone hinit
  obtain ⟨hst, hgrow⟩ := run_grows hvalid hrun
  refine ⟨q * 4096, hst.pml4, hst.tables.nodup_visitTables, ?_, ?_⟩
  · intro f hf
    rw [mem_visitTables] at hf
    obtain ⟨halign, hlt⟩ := hst.tables.frame f hf
    refine ⟨halign, ?_, ?_⟩
    · rw [toNat_physMemSize]
      rw [pmmMaxPages_eq] at hlt
      omega
    · by_contra htest
      exact hst.tables.used f hf (mem_freeSet.mpr ⟨hlt, Bool.eq_false_iff.mpr htest⟩)
  · rw [hst.tables.length_visitTables, hgrow.count, hframes, Set.ncard_singleton,
      htaken.freePages_pred hne]

theorem vmm_tables_owned_fresh :
    ∃ st root, VmmStep (vmmStart ⟨freshPmm, fun _ => 0⟩) (.map 0x400000 0x5000 3) st ∧
      (visitTables st.phys.mem root).Nodup ∧
      st.phys.pmm.freePages.toNat + (visitTables st.phys.mem root).length = 16384 := by
  have hstep := vmmStep_map (vmmStart ⟨freshPmm, fun _ => 0⟩) 0x400000 0x5000 3
  obtain ⟨root, -, hnodup, -, hcount⟩ := vmm_tables_owned vmmInit_fresh (Run.nil.snoc hstep)
  exact ⟨_, root, hstep, hnodup, hcount⟩

end OsKernel
