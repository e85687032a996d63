import OsKernel.KmallocGaps

/-! # Freeing a pointer again

A pointer that has been freed is stale: its header may have been joined to the block
before it, and is then memory inside a larger free block.  `kfree` does not know, and
writes the free flag to where the header was.  Until the next allocation that byte is
either the flag of a free block, which is set already, or a byte of a free payload; so
the write reaches neither a header of the list nor a live allocation, whatever has been
joined in between.
-/
namespace OsKernel

/-- A call of `kfree`. -/
def KfreeCall (h : Heap) (ptr : Ptr) (h' : Heap) : Prop :=
  h'.heapStart = h.heapStart ∧ KfreeReturns h ptr h'.mem

/-- The state of the heap after some of the pointers live at `st` have been freed, some
of them perhaps more than once: the others are live, and what was freed lies in free
chunks. -/
structure AfterFrees (start stop : Nat) (st : HeapState) (freed : List Ptr) (h : Heap)
    (live : List (Ptr × UInt32)) (cs : List Chunk) : Prop where
  valid : HeapValid start stop ⟨h, live⟩ cs
  kept : ∀ e ∈ st.live, e.1 ∉ freed → e ∈ live
  stale : ∀ q ∈ freed, ∃ n, FreeAt 12 start cs (q.toNat - 12, n)

/-! ## The write to a stale header -/

section Stale
variable {m : Memory} {stop a : Nat} {cs : List Chunk} {f : Nat × Nat}

/-- The flag of a free chunk is set. -/
theorem Laid.flag_free (hl : Laid m stop a cs) (hf : f ∈ freeFrom 12 a cs) :
    m.load (f.1 + 4) 1 = 1 := by
  induction cs generalizing a with
  | nil => exact absurd hf List.not_mem_nil
  | cons c cs ih =>
    rcases mem_freeFrom_cons hf with ⟨hc, rfl⟩ | hf
    · rw [hl.1.isFree, hc]
      rfl
    · exact ih hl.2 hf

/-- **Setting the flag of a stale header** changes no header of the list and no byte of a
live request. -/
theorem Laid.store_stale (hl : Laid m stop a cs) (h : FreeAt 12 a cs f) :
    Laid (m.store (f.1 + 4) 1 1) stop a cs ∧
      ∀ e ∈ liveFrom 12 a cs, ∀ x, e.1 ≤ x → x < e.1 + e.2 →
        m.store (f.1 + 4) 1 1 x = m x := by
  obtain ⟨f', hf', hstart, hend⟩ := h
  rcases hstart with hsame | hinside
  · -- the header of a block of the list, which is free already
    have hstore : m.store (f.1 + 4) 1 1 = m := by
      have hback := m.store_load (f'.1 + 4) 1
      rw [hl.flag_free hf', hsame] at hback
      exact hback
    rw [hstore]
    exact ⟨hl, fun _ _ _ _ _ => rfl⟩
  · -- a byte of the payload of a free block
    have hbyte : ∀ x, x ≠ f.1 + 4 → m.store (f.1 + 4) 1 1 x = m x :=
      fun x hx => Memory.store_outside (by omega)
    constructor
    · refine hl.congr fun b hb x h1 h2 => hbyte x ?_
      have := freeFrom_headers hf' hb
      omega
    · intro e he x h1 h2
      have := freeFrom_live hf' he
      exact hbyte x (by omega)

end Stale

variable {start stop : Nat} {st : HeapState} {h : Heap} {cs : List Chunk}
  {live : List (Ptr × UInt32)} {freed : List Ptr} {p : Ptr} {n : Nat}

theorem KfreeCall.unique {h' h'' : Heap} (hcall : KfreeCall h p h') (hcall' : KfreeCall h p h'') :
    h' = h'' := by
  obtain ⟨b, mem⟩ := h'
  obtain ⟨b', mem'⟩ := h''
  obtain ⟨rfl, hret⟩ := hcall
  obtain ⟨rfl, hret'⟩ := hcall'
  exact congrArg (Heap.mk _) (hret.unique hret')

section Calls
variable (hstart : 0 < start) (hstop : stop < 2 ^ 32)
include hstart hstop

/-- **`kfree` of a stale pointer** returns, and leaves the chunks and all live bytes. -/
theorem kfree_stale (hv : HeapValid start stop ⟨h, live⟩ cs)
    (hp : FreeAt 12 start cs (p.toNat - 12, n)) :
    ∃ mem, KfreeReturns h p mem ∧ HeapValid start stop ⟨{ h with mem }, live⟩ cs ∧
      ∀ e ∈ live, ∀ x, e.1.toNat ≤ x → x < e.1.toNat + e.2.toNat → mem x = h.mem x := by
  have hlow : start + 12 ≤ p.toNat := by
    obtain ⟨f', hf', hin, -⟩ := hp
    have := (freeFrom_bounds hf').1
    dsimp only at hin
    omega
  have hne : p ≠ 0 := by
    rintro rfl
    change start + 12 ≤ 0 at hlow
    omega
  obtain ⟨hl, hkeep⟩ := hv.laid.store_stale hp
  obtain ⟨mem, hret, hl', honly⟩ := kfree_laid hstop hstart hl hv.nonempty
  rw [coalesce_of_settled hv.settled] at hl'
  refine ⟨mem, ?_, ⟨hv.heapStart, hl', hv.nonempty, hv.settled, hv.live⟩, ?_⟩
  · rw [KfreeReturns, if_neg hne, show h.heapStart = UInt32.ofNat start from hv.heapStart,
      setIsFree, toNat_sub_headerSize (by omega)]
    exact hret
  · intro e he x h1 h2
    exact ((honly.keeps hl).live _ (hv.mem_live he) x h1 h2).trans
      (hkeep _ (hv.mem_live he) x h1 h2)

/-- One more call of `kfree` on a pointer that was live at `st`. -/
theorem AfterFrees.step (ha : AfterFrees start stop st freed h live cs) {k : UInt32}
    (hp : (p, k) ∈ st.live) :
    ∃ h' live' cs', KfreeCall h p h' ∧ AfterFrees start stop st (freed ++ [p]) h' live' cs' := by
  by_cases hfreed : p ∈ freed
  · obtain ⟨n, hstale⟩ := ha.stale p hfreed
    obtain ⟨mem, hret, hvalid, -⟩ := kfree_stale hstart hstop ha.valid hstale
    refine ⟨{ h with mem }, live, cs, ⟨rfl, hret⟩, hvalid, fun e he hnot => ha.kept e he ?_,
      fun q hq => ?_⟩
    · exact fun hmem => hnot (List.mem_append_left _ hmem)
    · rcases List.mem_append.mp hq with hq | hq
      · exact ha.stale q hq
      · rw [List.mem_singleton.mp hq]
        exact ⟨n, hstale⟩
  · have hlive : (p, k) ∈ live := ha.kept _ hp hfreed
    obtain ⟨mem, hret, hvalid, -⟩ := kfree_chunks hstart hstop ha.valid hlive
    refine ⟨{ h with mem }, _, _, ⟨rfl, hret⟩, hvalid, fun e he hnot => ?_, fun q hq => ?_⟩
    · rw [List.mem_append, List.mem_singleton, not_or] at hnot
      refine (List.mem_erase_of_ne ?_).mpr (ha.kept e he hnot.1)
      rintro rfl
      exact hnot.2 rfl
    · rcases List.mem_append.mp hq with hq | hq
      · obtain ⟨n, hstale⟩ := ha.stale q hq
        exact ⟨n, (hstale.release _).coalesce⟩
      · rw [List.mem_singleton.mp hq]
        exact ⟨_, (release_free_self (by decide) (ha.valid.mem_live hlive)).coalesce⟩

/-- Any sequence of frees of pointers live at `st`: it can be made, and wherever it leads
the heap is sound. -/
theorem afterFrees {ps : List Ptr} (hv : HeapValid start stop st cs)
    (hps : ∀ q ∈ ps, ∃ k, (q, k) ∈ st.live) :
    (∃ h, Run KfreeCall st.heap ps h) ∧ ∀ h, Run KfreeCall st.heap ps h →
      ∃ live cs', AfterFrees start stop st ps h live cs' := by
  induction ps using List.reverseRecOn with
  | nil =>
    refine ⟨⟨_, .nil⟩, fun h hrun => ?_⟩
    obtain rfl := hrun.of_nil
    exact ⟨st.live, cs, hv, fun e he _ => he, fun q hq => absurd hq List.not_mem_nil⟩
  | append_singleton ps p ih =>
    obtain ⟨⟨h, hrun⟩, hall⟩ := ih fun q hq => hps q (List.mem_append_left _ hq)
    obtain ⟨k, hp⟩ := hps p (List.mem_append_right _ List.mem_cons_self)
    constructor
    · obtain ⟨live, cs', ha⟩ := hall h hrun
      obtain ⟨h', -, -, hcall, -⟩ := ha.step hstart hstop hp
      exact ⟨h', hrun.snoc hcall⟩
    · intro h'' hrun''
      obtain ⟨t, hrun, hcall⟩ := hrun''.init
      obtain ⟨live, cs', ha⟩ := hall t hrun
      obtain ⟨h', live', cs'', hcall', ha'⟩ := ha.step hstart hstop hp
      obtain rfl := hcall.unique hcall'
      exact ⟨live', cs'', ha'⟩

end Calls

/-! ## Runs -/

/-- **A repeated free is harmless until the next allocation.**  Take a live pointer of a
reachable state, free it, then free pointers that were live at that state in any order and
any number of times.  Freeing the first pointer again returns, leaves the block list, and
changes no byte of what is still live. -/
theorem kfree_again_harmless {start size : UInt32} {mem : Memory} {ops : List HeapOp}
    (hstart : 0 < start) (hsize : 12 ≤ size.toNat) (hfit : start.toNat + size.toNat < 2 ^ 32)
    (hrun : Run HeapStep ⟨kmallocInit mem start size, []⟩ ops st) {n : UInt32}
    (hp : (p, n) ∈ st.live) {ps : List Ptr} (hps : ∀ q ∈ ps, ∃ k, (q, k) ∈ st.live) :
    (∃ h, Run KfreeCall st.heap (p :: ps) h) ∧
      ∀ h, Run KfreeCall st.heap (p :: ps) h →
        (∃ h', KfreeCall h p h') ∧
        ∀ h', KfreeCall h p h' →
          (∃ bs, BlockList h.mem h.heapStart bs ∧ BlockList h'.mem h'.heapStart bs) ∧
          ∀ e ∈ st.live, e.1 ∉ p :: ps → ∀ x, e.1.toNat ≤ x → x < e.1.toNat + e.2.toNat →
            h'.mem x = h.mem x := by
  have hpos : 0 < start.toNat := UInt32.lt_iff_toNat_lt.mp hstart
  obtain ⟨cs, hv⟩ := run_heapValid hstart hsize hfit hrun
  obtain ⟨hexists, hall⟩ := afterFrees hpos hfit hv
    (List.forall_mem_cons.mpr ⟨⟨n, hp⟩, hps⟩)
  refine ⟨hexists, fun h hfrees => ?_⟩
  obtain ⟨live, cs', ha⟩ := hall h hfrees
  obtain ⟨k, hstale⟩ := ha.stale p List.mem_cons_self
  obtain ⟨m, hret, hvalid, hkeep⟩ := kfree_stale hpos hfit ha.valid hstale
  have hcall : KfreeCall h p { h with mem := m } := ⟨rfl, hret⟩
  refine ⟨⟨_, hcall⟩, fun h' hcall' => ?_⟩
  obtain rfl := hcall.unique hcall'
  refine ⟨⟨_, ha.valid.blockList hpos hfit, hvalid.blockList hpos hfit⟩, ?_⟩
  exact fun e he hnot => hkeep e (ha.kept e he hnot)

/-- Eight bytes of a heap of 64, freed three times. -/
theorem kfree_again_harmless_first : ∃ st h h' bs,
    HeapStep ⟨kmallocInit (fun _ => 0) 0x1000 64, []⟩ (.malloc 8) st ∧
      Run KfreeCall st.heap [0x100C, 0x100C] h ∧ KfreeCall h 0x100C h' ∧
      BlockList h.mem h.heapStart bs ∧ BlockList h'.mem h'.heapStart bs := by
  obtain ⟨st, hstep, hlive⟩ := exists_malloc_step
  have hmem : (0x100C, 8) ∈ st.live := hlive ▸ List.mem_cons_self
  obtain ⟨⟨h, hfrees⟩, hall⟩ := @kfree_again_harmless _ _ _ _ _ _ (by decide) (by decide)
    (by decide) (Run.nil.snoc hstep) _ hmem [0x100C]
    fun q hq => ⟨8, List.mem_singleton.mp hq ▸ hmem⟩
  obtain ⟨⟨h', hcall⟩, hsame⟩ := hall h hfrees
  obtain ⟨⟨bs, hbefore, hafter⟩, -⟩ := hsame h' hcall
  exact ⟨st, h, h', bs, hstep, hfrees, hcall, hbefore, hafter⟩

end OsKernel
