import OsKernel.KmallocHeap

/-! # The canonical form of the kernel heap

`kfree` joins all free neighbours on every call, so what is free is free in as few
blocks as possible.  The block list of a reachable heap is therefore a function of its
live blocks: the history that led there, and the order of the calls, leave no trace.
-/
namespace OsKernel

/-- The live blocks: address and size field of the header in front of each live
allocation. -/
def liveBlocks (st : HeapState) : List (Ptr × UInt32) :=
  st.live.map fun e => (e.1 - headerSize, blockSize st.heap.mem (e.1 - headerSize))

variable {start stop : Nat} {st st' : HeapState} {cs cs' : List Chunk}

/-! ## Live blocks are the chunks in use -/

theorem Laid.usedFrom_eq {m : Memory} {a : Nat} (hl : Laid m stop a cs) :
    (liveFrom 12 a cs).map (fun e => (e.1 - 12, m.load (e.1 - 12) 4)) = usedFrom 12 a cs := by
  induction cs generalizing a with
  | nil => rfl
  | cons c cs ih =>
    cases hreq : c.request with
    | none =>
      rw [liveFrom_none hreq, usedFrom_free (Chunk.isFree_iff.mpr hreq)]
      exact ih hl.2
    | some n =>
      have hc : ¬ c.isFree = true := by simp [Chunk.isFree, hreq]
      rw [liveFrom_some hreq, usedFrom_used hc, List.map_cons, ih hl.2]
      simp only [Nat.add_sub_cancel, hl.1.size]

theorem HeapValid.liveBlocks_perm (h : HeapValid start stop st cs) :
    ((liveBlocks st).map extent).Perm (usedFrom 12 start cs) := by
  rw [← h.laid.usedFrom_eq]
  refine List.Perm.trans (List.Perm.of_eq ?_) (h.live.map _)
  rw [liveBlocks, List.map_map, List.map_map]
  refine List.map_congr_left fun e he => ?_
  have hbound := h.bounds he
  have hblock := @toNat_sub_headerSize e.1 (by omega)
  simp only [Function.comp_apply, extent, blockSize, hblock]
  rw [toNat_ptr (Memory.load_lt _ _ 4)]

theorem HeapValid.usedFrom_congr (h : HeapValid start stop st cs)
    (h' : HeapValid start stop st' cs')
    (hlive : ∀ b, b ∈ liveBlocks st ↔ b ∈ liveBlocks st') :
    usedFrom 12 start cs = usedFrom 12 start cs' := by
  apply usedFrom_ext (by decide)
  intro u
  rw [← h.liveBlocks_perm.mem_iff, ← h'.liveBlocks_perm.mem_iff, List.mem_map, List.mem_map]
  exact exists_congr fun b => and_congr_left fun _ => hlive b

/-! ## The block list of a heap -/

theorem BlockList.unique {mem : Memory} {ptr : Ptr} {bs bs' : List BlockHeader}
    (h : BlockList mem ptr bs) (h' : BlockList mem ptr bs') : bs = bs' := by
  induction h generalizing bs' with
  | null =>
    cases h' with
    | null => rfl
    | block hb => exact absurd rfl hb
  | block hb _ ih =>
    cases h' with
    | null => exact absurd rfl hb
    | block _ rest => rw [ih rest]

theorem blocksFrom_congr {a : Nat} (h : cs.map Chunk.shape = cs'.map Chunk.shape) :
    blocksFrom stop a cs = blocksFrom stop a cs' := by
  induction cs generalizing a cs' with
  | nil => rw [List.map_eq_nil_iff.mp h.symm]
  | cons c cs ih =>
    cases cs' with
    | nil => cases h
    | cons c' cs' =>
      obtain ⟨hshape, hrest⟩ := List.cons.inj h
      obtain ⟨hsize, hfree⟩ := Prod.mk.inj hshape
      rw [blocksFrom, blocksFrom, hsize, hfree, ih hrest]

theorem blocksFrom_avail {a n : Nat} (h : a + 12 + n = stop) :
    blocksFrom stop a [.avail n] = [⟨UInt32.ofNat a, UInt32.ofNat n, 1, 0⟩] := by
  rw [blocksFrom, blocksFrom, linkTo, if_pos (show a + 12 + (Chunk.avail n).size = stop from h)]
  rfl

/-- Heaps with the same chunks in use have the same block list. -/
theorem HeapValid.blocksFrom_eq (h : HeapValid start stop st cs)
    (h' : HeapValid start stop st' cs')
    (hused : usedFrom 12 start cs = usedFrom 12 start cs') :
    blocksFrom stop start cs = blocksFrom stop start cs' := by
  have hend := h.laid.stop_eq
  have hend' := h'.laid.stop_eq
  apply blocksFrom_congr
  exact settled_determined (by decide) h.settled h'.settled (by omega) hused

theorem HeapValid.blockList (h : HeapValid start stop st cs) (hstart : 0 < start)
    (hstop : stop < 2 ^ 32) :
    BlockList st.heap.mem st.heap.heapStart (blocksFrom stop start cs) :=
  h.start_link ▸ h.laid.blockList hstop hstart

/-! ## Freeing in any order -/

section Frees
variable (hstart : 0 < start) (hstop : stop < 2 ^ 32)
include hstart hstop

/-- One `kfree`: its block is no longer in use, and the other allocations stay live. -/
theorem free_used {p : Ptr} (h : HeapValid start stop st cs) (hp : p ≠ 0)
    (hstep : HeapStep st (.free p) st') :
    ∃ cs', HeapValid start stop st' cs' ∧
      (∀ u, u ∈ usedFrom 12 start cs' ↔ u ∈ usedFrom 12 start cs ∧ u.1 ≠ p.toNat - 12) ∧
      ∀ e ∈ st.live, e.1 ≠ p → e ∈ st'.live := by
  cases hstep with
  | @free _ size mem hlive hret =>
    obtain ⟨hvalid, -⟩ := kfree_done hstart hstop h hlive hret
    refine ⟨_, hvalid, ?_, fun e he hne => ?_⟩
    · intro u
      rw [coalesce_used]
      exact mem_usedFrom_release (show 0 < 12 by decide) (h.mem_live hlive) u
    · refine (List.mem_erase_of_ne ?_).mpr he
      rintro rfl
      exact hne rfl
  | freeNull => exact absurd rfl hp

/-- A run of frees: exactly the blocks freed are no longer in use. -/
theorem frees_used {ps : List Ptr} (h : HeapValid start stop st cs) (hps : ∀ p ∈ ps, p ≠ 0)
    (hrun : Run HeapStep st (ps.map .free) st') :
    ∃ cs', HeapValid start stop st' cs' ∧
      (∀ u, u ∈ usedFrom 12 start cs' ↔
        u ∈ usedFrom 12 start cs ∧ ∀ p ∈ ps, u.1 ≠ p.toNat - 12) ∧
      ∀ e ∈ st.live, e.1 ∉ ps → e ∈ st'.live := by
  induction ps using List.reverseRecOn generalizing st' with
  | nil =>
    obtain rfl := hrun.of_nil
    exact ⟨cs, h, by simp, fun e he _ => he⟩
  | append_singleton ps p ih =>
    rw [List.map_append, List.map_singleton] at hrun
    obtain ⟨t, hrun, hstep⟩ := hrun.init
    obtain ⟨cs₁, ht, hused, hlive⟩ := ih (fun q hq => hps q (by simp [hq])) hrun
    obtain ⟨cs₂, ht', hused', hlive'⟩ := free_used hstart hstop ht (hps p (by simp)) hstep
    refine ⟨cs₂, ht', ?_, fun e he hne => ?_⟩
    · intro u
      rw [hused', hused, and_assoc]
      refine and_congr_right fun _ => ?_
      simp only [List.mem_append, List.mem_singleton]
      constructor
      · rintro ⟨hrest, hlast⟩ q (hq | rfl)
        · exact hrest q hq
        · exact hlast
      · exact fun hall => ⟨fun q hq => hall q (Or.inl hq), hall p (Or.inr rfl)⟩
    · have hne' : e.1 ∉ ps ∧ e.1 ≠ p := by simpa using hne
      exact hlive' e (hlive e he hne'.1) hne'.2

/-- Different live pointers can be freed one after the other. -/
theorem exists_frees {ps : List Ptr} (h : HeapValid start stop st cs) (hnodup : ps.Nodup)
    (hlive : ∀ p ∈ ps, ∃ n, (p, n) ∈ st.live) :
    ∃ st', Run HeapStep st (ps.map .free) st' := by
  induction ps using List.reverseRecOn with
  | nil => exact ⟨st, .nil⟩
  | append_singleton ps p ih =>
    obtain ⟨hps, -, hout⟩ := List.nodup_append.mp hnodup
    obtain ⟨t, hrun⟩ := ih hps fun q hq => hlive q (by simp [hq])
    have hne : ∀ q ∈ ps, q ≠ 0 := by
      intro q hq
      obtain ⟨n, hn⟩ := hlive q (by simp [hq])
      exact h.live_ne_zero hn
    obtain ⟨cs₁, ht, -, hkeep⟩ := frees_used hstart hstop h hne hrun
    obtain ⟨n, hn⟩ := hlive p (by simp)
    have hp : (p, n) ∈ t.live := hkeep _ hn fun hmem => hout p hmem p (by simp) rfl
    obtain ⟨mem, -, hret, -⟩ := kfree_valid hstart hstop ht hp
    rw [List.map_append, List.map_singleton]
    exact ⟨_, hrun.snoc (.free t hp hret)⟩

/-- **The order of frees does not matter.** -/
theorem frees_blockList {ps : List Ptr} (h : HeapValid start stop st cs) (hnodup : ps.Nodup)
    (hlive : ∀ p ∈ ps, ∃ n, (p, n) ∈ st.live) :
    ∃ bs, ∀ ps' : List Ptr, ps'.Perm ps →
      (∃ u, Run HeapStep st (ps'.map .free) u) ∧
        ∀ u, Run HeapStep st (ps'.map .free) u → BlockList u.heap.mem u.heap.heapStart bs := by
  have hne : ∀ p ∈ ps, p ≠ 0 := by
    intro p hp
    obtain ⟨n, hn⟩ := hlive p hp
    exact h.live_ne_zero hn
  obtain ⟨u₀, hu₀⟩ := exists_frees hstart hstop h hnodup hlive
  obtain ⟨ds, hvalid, hused, -⟩ := frees_used hstart hstop h hne hu₀
  refine ⟨blocksFrom stop start ds, fun ps' hperm => ⟨?_, ?_⟩⟩
  · apply exists_frees hstart hstop h (hperm.nodup_iff.mpr hnodup)
    exact fun p hp => hlive p (hperm.mem_iff.mp hp)
  · intro u hu
    obtain ⟨ds', hvalid', hused', -⟩ :=
      frees_used hstart hstop h (fun p hp => hne p (hperm.mem_iff.mp hp)) hu
    have heq : usedFrom 12 start ds = usedFrom 12 start ds' := by
      apply usedFrom_ext (by decide)
      intro v
      rw [hused, hused']
      refine and_congr_right fun _ => forall_congr' fun p => ?_
      rw [hperm.mem_iff]
    rw [hvalid.blocksFrom_eq hvalid' heq]
    exact hvalid'.blockList hstart hstop

end Frees

/-- Without live allocations the heap is one free block. -/
theorem blockList_of_live_nil {start size : UInt32} (hstart : 0 < start.toNat)
    (hsize : 12 ≤ size.toNat) (hfit : start.toNat + size.toNat < 2 ^ 32)
    (h : HeapValid start.toNat (start.toNat + size.toNat) st cs) (hnil : st.live = []) :
    BlockList st.heap.mem st.heap.heapStart [⟨start, size - 12, 1, 0⟩] := by
  have hinit := kmallocInit_valid st.heap.mem hsize hfit
  have hsame : usedFrom 12 start.toNat cs =
      usedFrom 12 start.toNat [.avail (size.toNat - 12)] := by
    refine h.usedFrom_congr hinit fun b => ?_
    simp only [liveBlocks, hnil, List.map_nil]
  have hlist := h.blockList hstart hfit
  rw [h.blocksFrom_eq hinit hsame, blocksFrom_avail (by omega), UInt32.ofNat_toNat] at hlist
  have hsub : (size - 12).toNat = size.toNat - 12 := by
    rw [UInt32.toNat_sub, show (12 : UInt32).toNat = 12 from rfl]
    omega
  rw [← hsub, UInt32.ofNat_toNat] at hlist
  exact hlist

/-! ## Histories -/

/-- **The block list is a function of the live blocks.**  Two reachable states with the
same live blocks have the same block list.  Hence live pointers freed in any order leave
the same list, and once nothing is live the heap is one free block again. -/
theorem kmalloc_heap_canonical {start size : UInt32} {mem mem' : Memory} {ops ops' : List HeapOp}
    (hstart : 0 < start) (hsize : 12 ≤ size.toNat) (hfit : start.toNat + size.toNat < 2 ^ 32)
    (hrun : Run HeapStep ⟨kmallocInit mem start size, []⟩ ops st)
    (hrun' : Run HeapStep ⟨kmallocInit mem' start size, []⟩ ops' st') :
    ((∀ b, b ∈ liveBlocks st ↔ b ∈ liveBlocks st') →
      ∃ bs, BlockList st.heap.mem st.heap.heapStart bs ∧
        BlockList st'.heap.mem st'.heap.heapStart bs) ∧
    (∀ ps : List Ptr, ps.Nodup → (∀ p ∈ ps, ∃ n, (p, n) ∈ st.live) →
      ∃ bs, ∀ ps' : List Ptr, ps'.Perm ps →
        (∃ u, Run HeapStep st (ps'.map .free) u) ∧
          ∀ u, Run HeapStep st (ps'.map .free) u → BlockList u.heap.mem u.heap.heapStart bs) ∧
    (st.live = [] → BlockList st.heap.mem st.heap.heapStart [⟨start, size - 12, 1, 0⟩]) := by
  have hpos : 0 < start.toNat := UInt32.lt_iff_toNat_lt.mp hstart
  obtain ⟨cs, h⟩ := run_heapValid hstart hsize hfit hrun
  obtain ⟨cs', h'⟩ := run_heapValid hstart hsize hfit hrun'
  refine ⟨fun hlive => ?_, fun ps hnodup hps => ?_, fun hnil => ?_⟩
  · refine ⟨_, h.blockList hpos hfit, ?_⟩
    rw [h.blocksFrom_eq h' (h.usedFrom_congr h' hlive)]
    exact h'.blockList hpos hfit
  · exact frees_blockList hpos hfit h hnodup hps
  · exact blockList_of_live_nil hpos hsize hfit h hnil

/-- An allocation of 8 bytes in a heap of 64, freed again. -/
theorem kmalloc_heap_canonical_freed : ∃ p st st',
    HeapStep ⟨kmallocInit (fun _ => 0) 0x1000 64, []⟩ (.malloc 8) st ∧
      HeapStep st (.free p) st' ∧ p ≠ 0 ∧
      BlockList st'.heap.mem st'.heap.heapStart [⟨0x1000, 52, 1, 0⟩] := by
  have hinit := @kmallocInit_valid (fun _ => 0) 0x1000 64 (by decide) (by decide)
  obtain ⟨st, hmalloc, hlive⟩ := exists_malloc_step
  obtain ⟨cs, hvalid, -⟩ := heapStep_valid (by decide) (by decide) hinit hmalloc
  have hmem : (0x100C, 8) ∈ st.live := hlive ▸ List.mem_cons_self
  obtain ⟨m, -, hret, -⟩ := kfree_valid (by decide) (by decide) hvalid hmem
  have hfree := HeapStep.free st hmem hret
  have hrun := (Run.nil.snoc hmalloc).snoc hfree
  refine ⟨_, _, _, hmalloc, hfree, by decide, ?_⟩
  refine (kmalloc_heap_canonical (by decide) (by decide) (by decide) hrun hrun).2.2 ?_
  simp only [hlive, List.erase_cons_head]

end OsKernel
