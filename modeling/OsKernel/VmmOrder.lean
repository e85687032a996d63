import OsKernel.VmmFailure

/-! # The order of mappings does not matter

A list of `vmm_map` calls needs the tables on the paths of its pages, whatever the
order of the calls.  All calls succeed exactly when the physical memory manager can
pay for those of them that are missing; the frames they end up in depend on the
order, but what the address space translates does not.
-/
namespace OsKernel

/-- The arguments of a `vmm_map` call. -/
structure MapCall where
  virt : Vaddr
  phys : Paddr
  flags : UInt64

/-- The page a call maps. -/
def MapCall.page (c : MapCall) : PageNumber := pageNumber c.virt

/-- The call succeeds. -/
def MapStep (st : VmmState) (c : MapCall) (st' : VmmState) : Prop :=
  vmmMap st.vmm st.phys c.virt c.phys c.flags = (0, st'.vmm, st'.phys)

/-- The tables the calls need, as paths. -/
def neededPaths (calls : List MapCall) : Set (List Nat) :=
  {r | ∃ c ∈ calls, r <+: tablePath c.page}

/-- What a list of successful calls on different pages does. -/
structure MapsDone (root : Nat) (calls : List MapCall) (st st' : VmmState) : Prop where
  valid : VmmValid st'.vmm st'.phys root
  paths : tablePaths st'.phys.mem root = tablePaths st.phys.mem root ∪ neededPaths calls
  paid : available st'.phys.pmm + (neededPaths calls \ tablePaths st.phys.mem root).ncard =
    available st.phys.pmm
  counted : st'.phys.pmm.freePages.toNat +
    (neededPaths calls \ tablePaths st.phys.mem root).ncard = st.phys.pmm.freePages.toNat
  written : ∀ c ∈ calls, pageEntry st'.phys.mem root c.page = leafPte c.phys c.flags
  others : ∀ page, (∀ c ∈ calls, page ≠ c.page) →
    pageEntry st'.phys.mem root page = pageEntry st.phys.mem root page

variable {Space : Type*} [DecidableEq Space] {k : Space} {w : World Space} {vmm : Vmm}
  {st st' : VmmState} {root : Nat} {calls calls' : List MapCall} {c : MapCall}

/-! ## The tables a list of calls needs -/

theorem neededPaths_snoc (calls : List MapCall) (c : MapCall) :
    neededPaths (calls ++ [c]) = neededPaths calls ∪ {r | r <+: tablePath c.page} := by
  ext r
  constructor
  · rintro ⟨d, hd, hr⟩
    rcases List.mem_append.mp hd with hd | hd
    · exact Or.inl ⟨d, hd, hr⟩
    · rw [List.mem_singleton.mp hd] at hr
      exact Or.inr hr
  · rintro (⟨d, hd, hr⟩ | hr)
    · exact ⟨d, List.mem_append_left _ hd, hr⟩
    · exact ⟨c, List.mem_append_right _ (List.mem_singleton_self c), hr⟩

theorem neededPaths_perm (hperm : calls.Perm calls') : neededPaths calls' = neededPaths calls := by
  ext r
  simp only [neededPaths, Set.mem_ofPred_eq, hperm.mem_iff]

theorem finite_neededPaths (calls : List MapCall) : (neededPaths calls).Finite := by
  induction calls using List.reverseRecOn with
  | nil =>
    refine Set.finite_empty.subset ?_
    rintro r ⟨c, hc, -⟩
    cases hc
  | append_singleton calls c ih =>
    rw [neededPaths_snoc]
    exact ih.union (finite_prefixes _)

/-- What one call more needs is what is missing for it once the others are done. -/
theorem ncard_neededPaths_snoc (calls : List MapCall) (c : MapCall) (T : Set (List Nat)) :
    (neededPaths (calls ++ [c]) \ T).ncard = (neededPaths calls \ T).ncard +
      ({r | r <+: tablePath c.page} \ (T ∪ neededPaths calls)).ncard := by
  have hsplit : neededPaths (calls ++ [c]) \ T = (neededPaths calls \ T) ∪
      ({r | r <+: tablePath c.page} \ (T ∪ neededPaths calls)) := by
    rw [neededPaths_snoc]
    ext r
    simp only [Set.mem_sdiff, Set.mem_union]
    tauto
  rw [hsplit]
  apply Set.ncard_union_eq _ ((finite_neededPaths calls).subset Set.sdiff_subset)
    ((finite_prefixes _).subset Set.sdiff_subset)
  exact Set.disjoint_left.mpr fun r hr hr' => hr'.2 (Or.inr hr.1)

/-! ## Runs of successful calls -/

/-- One call more. -/
theorem MapsDone.snoc {t : VmmState} (h : MapsDone root calls st t)
    (hnew : ∀ d ∈ calls, c.page ≠ d.page) (hstep : MapStep t c st') :
    MapsDone root (calls ++ [c]) st st' := by
  obtain ⟨ret, vmm', s', heq, hvalid, hcase⟩ := vmmMap_outcome h.valid c.virt c.phys c.flags
  rw [MapStep, heq] at hstep
  obtain ⟨rfl, rfl, rfl⟩ : ret = 0 ∧ vmm' = st'.vmm ∧ s' = st'.phys := by simpa using hstep
  rcases hcase with ⟨hret, -⟩ | ⟨-, hdone⟩
  · cases hret
  replace hdone : MapDone root c.page (leafPte c.phys c.flags) t.phys st'.phys := hdone
  have hcard := ncard_neededPaths_snoc calls c (tablePaths st.phys.mem root)
  have hpaid := hdone.paid
  have hcounted := hdone.counted
  rw [missingPaths, h.paths] at hpaid hcounted
  have h1 := h.paid
  have h2 := h.counted
  refine ⟨hvalid, ?_, by omega, by omega, ?_, ?_⟩
  · rw [hdone.paths, h.paths, neededPaths_snoc, Set.union_assoc]
  · intro d hd
    rw [hdone.entries]
    rcases List.mem_append.mp hd with hd | hd
    · rw [Function.update_of_ne (hnew d hd).symm]
      exact h.written d hd
    · rw [List.mem_singleton.mp hd]
      exact Function.update_self _ _ _
  · intro page hpage
    rw [hdone.entries, Function.update_of_ne
      (hpage c (List.mem_append_right _ (List.mem_singleton_self c)))]
    exact h.others page fun d hd => hpage d (List.mem_append_left _ hd)

theorem MapsDone.nil (h : VmmValid st.vmm st.phys root) : MapsDone root [] st st := by
  have hempty : neededPaths [] = ∅ := by
    refine Set.eq_empty_of_forall_notMem ?_
    rintro r ⟨c, hc, -⟩
    cases hc
  refine ⟨h, ?_, ?_, ?_, fun c hc => ?_, fun _ _ => rfl⟩
  · rw [hempty, Set.union_empty]
  · rw [hempty, Set.empty_sdiff, Set.ncard_empty, Nat.add_zero]
  · rw [hempty, Set.empty_sdiff, Set.ncard_empty, Nat.add_zero]
  · cases hc

/-- **What successful calls on different pages do**, in the order they are made. -/
theorem run_mapsDone (h : VmmValid st.vmm st.phys root)
    (hnodup : (calls.map MapCall.page).Nodup) (hrun : Run MapStep st calls st') :
    MapsDone root calls st st' := by
  induction hrun with
  | nil => exact MapsDone.nil h
  | @snoc calls t u c hrun hstep ih =>
    rw [List.map_append, List.nodup_append] at hnodup
    obtain ⟨hinit, -, hapart⟩ := hnodup
    refine (ih hinit).snoc (fun d hd he => ?_) hstep
    exact hapart d.page (List.mem_map_of_mem hd) c.page (List.mem_singleton_self _) he.symm

/-- **When all calls succeed**: when the missing tables they need can be paid for. -/
theorem run_of_available (h : VmmValid st.vmm st.phys root)
    (hnodup : (calls.map MapCall.page).Nodup)
    (hpages : (neededPaths calls \ tablePaths st.phys.mem root).ncard ≤ available st.phys.pmm) :
    ∃ st', Run MapStep st calls st' := by
  induction calls using List.reverseRecOn with
  | nil => exact ⟨st, .nil⟩
  | append_singleton calls c ih =>
    have hcard := ncard_neededPaths_snoc calls c (tablePaths st.phys.mem root)
    rw [List.map_append, List.nodup_append] at hnodup
    obtain ⟨t, hrun⟩ := ih hnodup.1 (by omega)
    have hdone := run_mapsDone h hnodup.1 hrun
    have hpaid := hdone.paid
    obtain ⟨ret, vmm', s', heq, -, hcase⟩ := vmmMap_outcome hdone.valid c.virt c.phys c.flags
    rcases hcase with ⟨-, -, -, -, hlt⟩ | ⟨rfl, -⟩
    · rw [missingPaths, hdone.paths, ← MapCall.page] at hlt
      omega
    · exact ⟨⟨vmm', s'⟩, hrun.snoc heq⟩

/-- An address space that was never set up maps nothing. -/
theorem run_none (hnone : st.vmm.pml4 = none) (hrun : Run MapStep st calls st') :
    calls = [] ∧ st' = st := by
  induction hrun with
  | nil => exact ⟨rfl, rfl⟩
  | snoc _ hstep ih =>
    rw [MapStep, ih.2, vmmMap_none hnone] at hstep
    cases hstep

/-- Two runs of the same calls on different pages, in any two orders, leave the same
entries. -/
theorem MapsDone.entries_perm {st₁ st₂ : VmmState} (h₁ : MapsDone root calls st st₁)
    (h₂ : MapsDone root calls' st st₂) (hperm : calls.Perm calls') :
    pageEntry st₂.phys.mem root = pageEntry st₁.phys.mem root := by
  funext page
  by_cases hpage : ∀ c ∈ calls, page ≠ c.page
  · rw [h₁.others page hpage, h₂.others page fun c hc => hpage c (hperm.mem_iff.mpr hc)]
  · push Not at hpage
    obtain ⟨c, hc, rfl⟩ := hpage
    rw [h₁.written c hc, h₂.written c (hperm.mem_iff.mp hc)]

/-- **The order of mappings does not matter.**  In every reachable state, if `vmm_map` calls on
pairwise different pages all succeed in one order, they all succeed in every other order,
and leave the same translation, the same `mapped` and the same `free_pages`. -/
theorem vmm_map_order_irrelevant {s₀ : PhysState} {ops : List (WorldOp Space)}
    (hrun : Run WorldStep (World.start s₀) ops w) (hk : w.spaces k = some vmm)
    (hnodup : (calls.map MapCall.page).Nodup) (hperm : calls.Perm calls') {st₁ : VmmState}
    (hcalls : Run MapStep ⟨vmm, w.phys⟩ calls st₁) :
    ∃ st₂, Run MapStep ⟨vmm, w.phys⟩ calls' st₂ ∧
      (∀ virt, vmmTranslate st₂.vmm st₂.phys.mem virt = vmmTranslate st₁.vmm st₁.phys.mem virt) ∧
      st₂.vmm.mapped = st₁.vmm.mapped ∧
      st₂.phys.pmm.freePages = st₁.phys.pmm.freePages := by
  rcases space_cases hrun hk with hnone | ⟨root, hvalid⟩
  · obtain ⟨rfl, rfl⟩ := run_none hnone hcalls
    rw [List.nil_perm.mp hperm]
    exact ⟨_, .nil, fun _ => rfl, rfl, rfl⟩
  · have hnodup' : (calls'.map MapCall.page).Nodup := (hperm.map _).nodup_iff.mp hnodup
    have hdone₁ := run_mapsDone hvalid hnodup hcalls
    have hpaid := hdone₁.paid
    obtain ⟨st₂, hcalls'⟩ := run_of_available hvalid hnodup' (by
      rw [neededPaths_perm hperm]
      exact Nat.le.intro ((Nat.add_comm _ _).trans hpaid))
    have hdone₂ := run_mapsDone hvalid hnodup' hcalls'
    have hentries := hdone₁.entries_perm hdone₂ hperm
    refine ⟨st₂, hcalls', fun virt => ?_, ?_, ?_⟩
    · rw [vmmTranslate_eq hdone₁.valid.pml4 hdone₁.valid.tables,
        vmmTranslate_eq hdone₂.valid.pml4 hdone₂.valid.tables, hentries]
    · rw [← UInt64.toNat_inj, hdone₁.valid.mapped, hdone₂.valid.mapped, presentPages, hentries]
      rfl
    · have h₁ := hdone₁.counted
      have h₂ := hdone₂.counted
      rw [neededPaths_perm hperm] at h₂
      rw [← UInt64.toNat_inj]
      omega

theorem vmm_map_order_irrelevant_two_tables :
    ∃ (s₀ : PhysState) (w : World Unit) (vmm : Vmm) (st₁ st₂ : VmmState),
      s₀ = ⟨freshPmm, fun _ => 0⟩ ∧ WorldStep (World.start s₀) (.init ()) w ∧
      w.spaces () = some vmm ∧
      Run MapStep ⟨vmm, w.phys⟩ [⟨0x1FF000, 0x5000, 3⟩, ⟨0x200000, 0x6000, 3⟩] st₁ ∧
      Run MapStep ⟨vmm, w.phys⟩ [⟨0x200000, 0x6000, 3⟩, ⟨0x1FF000, 0x5000, 3⟩] st₂ ∧
      ∀ virt, vmmTranslate st₂.vmm st₂.phys.mem virt = vmmTranslate st₁.vmm st₁.phys.mem virt := by
  obtain ⟨s₀, hs₀, hfree⟩ : ∃ s₀ : PhysState, s₀ = ⟨freshPmm, fun _ => 0⟩ ∧
    available s₀.pmm = 16383 + 1 := ⟨_, rfl, available_freshPmm⟩
  obtain ⟨root, hvalid, hpages, -⟩ := vmmInit_available hfree
  obtain ⟨vmm₁, s₁, heq₁, hvalid₁, hdone₁⟩ := vmmMap_enough hvalid (by omega) 0x1FF000 0x5000 3
  have hpaid := hdone₁.paid
  have hmissing := ncard_missingPaths_le (vmmInit s₀).2.mem root (pageNumber 0x1FF000)
  obtain ⟨vmm₂, s₂, heq₂, -⟩ := vmmMap_enough hvalid₁ (by omega) 0x200000 0x6000 3
  have hfirst : MapStep ⟨(vmmInit s₀).1, (vmmInit s₀).2⟩ ⟨0x1FF000, 0x5000, 3⟩ ⟨vmm₁, s₁⟩ := heq₁
  have hsecond : MapStep ⟨vmm₁, s₁⟩ ⟨0x200000, 0x6000, 3⟩ ⟨vmm₂, s₂⟩ := heq₂
  have hcalls := (Run.nil.snoc hfirst).snoc hsecond
  obtain ⟨hstep, hk⟩ := start_init s₀ ()
  obtain ⟨st₂, hcalls', htrans, -⟩ := vmm_map_order_irrelevant (Run.nil.snoc hstep) hk
    (by decide) (List.Perm.swap _ _ []) hcalls
  exact ⟨s₀, _, _, _, st₂, hs₀, hstep, hk, hcalls, hcalls', htrans⟩

end OsKernel
