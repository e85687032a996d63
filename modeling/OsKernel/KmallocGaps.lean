import OsKernel.FirstFitGaps
import OsKernel.KmallocCanonical

/-! # `kmalloc` fails only when no gap is large enough

The loop of `kmalloc` looks at one block at a time.  Since `kfree` leaves no two free
neighbours, a free block with its header is a whole gap between live blocks, so looking
at blocks is as good as looking at contiguous bytes: a request is served from the lowest
gap that can hold it with its header, and fails if there is none.
-/
namespace OsKernel

/-- A byte of a live block or of its header. -/
def LiveByte (st : HeapState) (x : Nat) : Prop :=
  ∃ b ∈ liveBlocks st, b.1.toNat ≤ x ∧ x < b.1.toNat + 12 + b.2.toNat

/-- `[x, y)` is a maximal stretch of heap bytes that no live block covers. -/
def HeapGap (start size : UInt32) (st : HeapState) (x y : Nat) : Prop :=
  Gap (LiveByte st) start.toNat (start.toNat + size.toNat) x y

variable {start stop : Nat} {st st' : HeapState} {cs : List Chunk} {e : Ptr × UInt32}

theorem HeapValid.liveByte_iff (h : HeapValid start stop st cs) (x : Nat) :
    LiveByte st x ↔ InUse 12 start cs x := by
  constructor
  · rintro ⟨b, hb, hx⟩
    exact ⟨extent b, h.liveBlocks_perm.mem_iff.mp (List.mem_map_of_mem hb), hx⟩
  · rintro ⟨u, hu, hx⟩
    obtain ⟨b, hb, rfl⟩ := List.mem_map.mp (h.liveBlocks_perm.mem_iff.mpr hu)
    exact ⟨b, hb, hx⟩

/-- The gaps between live blocks are the free chunks. -/
theorem HeapValid.gap_iff (h : HeapValid start stop st cs) {x y : Nat} :
    Gap (LiveByte st) start stop x y ↔
      ∃ size, (x, size) ∈ freeFrom 12 start cs ∧ y = x + 12 + size := by
  rw [← gap_iff_freeFrom (by decide) h.settled, ← h.laid.stop_eq]
  exact ⟨fun hgap => hgap.congr fun z => (h.liveByte_iff z).symm,
    fun hgap => hgap.congr h.liveByte_iff⟩

section Calls
variable (hstart : 0 < start) (hstop : stop < 2 ^ 32) (h : HeapValid start stop st cs)
include hstart hstop h

/-- A call that fails had no gap to serve from, and changes nothing. -/
theorem kmalloc_null {n : UInt32} {mem : Memory} (hret : KmallocReturns st.heap n 0 mem) :
    mem = st.heap.mem ∧
      ∀ x y, Gap (LiveByte st) start stop x y → y - x < n.toNat + 12 := by
  rcases kmalloc_cases hstart hstop h hret with ⟨-, rfl, hnone⟩ | ⟨o, cs', -, -, hne, -⟩
  · refine ⟨rfl, fun x y hgap => ?_⟩
    obtain ⟨size, hf, rfl⟩ := h.gap_iff.mp hgap
    have hlt := (place_eq_none_iff start).mp hnone _ hf
    dsimp only at hlt
    omega
  · exact absurd rfl hne

/-- A call that succeeds takes the lowest gap that is large enough. -/
theorem kmalloc_ptr {n ptr : UInt32} {mem : Memory} (hret : KmallocReturns st.heap n ptr mem)
    (hptr : ptr ≠ 0) :
    ∃ x y, Gap (LiveByte st) start stop x y ∧ n.toNat + 12 ≤ y - x ∧ ptr.toNat = x + 12 ∧
      ∀ x' y', Gap (LiveByte st) start stop x' y' → n.toNat + 12 ≤ y' - x' → x ≤ x' := by
  rcases kmalloc_cases hstart hstop h hret with ⟨rfl, -⟩ | ⟨o, cs', hplace, hp, -⟩
  · exact absurd rfl hptr
  · obtain ⟨⟨size, hf, hn⟩, hlow⟩ := place_lowest hplace start
    refine ⟨start + o, start + o + 12 + size, h.gap_iff.mpr ⟨size, hf, rfl⟩, by omega, hp, ?_⟩
    intro x' y' hgap hlarge
    obtain ⟨size', hf', rfl⟩ := h.gap_iff.mp hgap
    exact hlow _ hf' (by dsimp only; omega)

/-- What a freed allocation occupied is enough to serve the same request again. -/
theorem kmalloc_after_kfree (he : e ∈ st.live) {mem mem' : Memory} {ptr : Ptr}
    (hfree : KfreeReturns st.heap e.1 mem)
    (hret : KmallocReturns { st.heap with mem } e.2 ptr mem') : ptr ≠ 0 := by
  obtain ⟨hvalid, -⟩ := kfree_done hstart hstop h he hfree
  have hroom : FreeAt 12 start (coalesce 12 (release 12 (e.1.toNat - 12 - start) cs))
      (e.1.toNat - 12, e.2.toNat) := (release_free_self (by decide) (h.mem_live he)).coalesce
  rcases kmalloc_cases hstart hstop hvalid hret with ⟨-, -, hnone⟩ | ⟨o, cs', -, -, hne, -⟩
  · exact absurd hnone (hroom.place_ne_none (Nat.le_refl _))
  · exact hne

end Calls

section Runs
variable {start size : UInt32} {mem : Memory} {ops : List HeapOp} (hstart : 0 < start)
  (hsize : 12 ≤ size.toNat) (hfit : start.toNat + size.toNat < 2 ^ 32)
  (hrun : Run HeapStep ⟨kmallocInit mem start size, []⟩ ops st)
include hstart hsize hfit hrun

/-- **`kmalloc` is complete for gaps.**  In every reachable state a request returns.  It
returns `NULL` exactly if every gap between live blocks is too short for it and a header,
and then nothing changes; otherwise it is served from the lowest gap that is not.  A
request of the size of an allocation that has just been freed does not fail. -/
theorem kmalloc_null_iff_no_gap :
    (∀ n : UInt32, (∃ ptr mem', KmallocReturns st.heap n ptr mem') ∧
      ∀ ptr mem', KmallocReturns st.heap n ptr mem' →
        (ptr = 0 ↔ ∀ x y, HeapGap start size st x y → y - x < n.toNat + 12) ∧
        (ptr = 0 → mem' = st.heap.mem) ∧
        (ptr ≠ 0 → ∃ x y, HeapGap start size st x y ∧ n.toNat + 12 ≤ y - x ∧
          ptr.toNat = x + 12 ∧
          ∀ x' y', HeapGap start size st x' y' → n.toNat + 12 ≤ y' - x' → x ≤ x')) ∧
    ∀ p n, (p, n) ∈ st.live → (∃ mem', KfreeReturns st.heap p mem') ∧
      ∀ mem', KfreeReturns st.heap p mem' →
        ∃ ptr mem'', KmallocReturns ⟨st.heap.heapStart, mem'⟩ n ptr mem'' ∧ ptr ≠ 0 := by
  have hpos : 0 < start.toNat := UInt32.lt_iff_toNat_lt.mp hstart
  obtain ⟨cs, h⟩ := run_heapValid hstart hsize hfit hrun
  refine ⟨fun n => ⟨?_, fun ptr mem' hret => ⟨⟨?_, fun hshort => ?_⟩, ?_, ?_⟩⟩, ?_⟩
  · obtain ⟨ptr, mem', -, hret, -⟩ := kmalloc_valid hpos hfit h n
    exact ⟨ptr, mem', hret⟩
  · rintro rfl
    exact (kmalloc_null hpos hfit h hret).2
  · by_contra hptr
    obtain ⟨x, y, hgap, hlarge, -⟩ := kmalloc_ptr hpos hfit h hret hptr
    have := hshort x y hgap
    omega
  · rintro rfl
    exact (kmalloc_null hpos hfit h hret).1
  · exact kmalloc_ptr hpos hfit h hret
  · intro p n hp
    obtain ⟨m, hfree, -⟩ := kfree_chunks hpos hfit h hp
    refine ⟨⟨m, hfree⟩, fun mem' hfree => ?_⟩
    obtain ⟨hvalid, -⟩ := kfree_done hpos hfit h hp hfree
    obtain ⟨ptr, mem'', -, hret, -⟩ := kmalloc_valid hpos hfit hvalid n
    exact ⟨ptr, mem'', hret, kmalloc_after_kfree hpos hfit h hp hfree hret⟩

end Runs

/-- Eight bytes of a heap of 64, freed and asked for again. -/
theorem kmalloc_null_iff_no_gap_first : ∃ st mem ptr mem',
    HeapStep ⟨kmallocInit (fun _ => 0) 0x1000 64, []⟩ (.malloc 8) st ∧
      KfreeReturns st.heap 0x100C mem ∧
      KmallocReturns ⟨st.heap.heapStart, mem⟩ 8 ptr mem' ∧ ptr ≠ 0 := by
  obtain ⟨st, hstep, hlive⟩ := exists_malloc_step
  have hmem : (0x100C, 8) ∈ st.live := hlive ▸ List.mem_cons_self
  obtain ⟨⟨mem, hfree⟩, hagain⟩ := (kmalloc_null_iff_no_gap (by decide) (by decide) (by decide)
    (Run.nil.snoc hstep)).2 _ _ hmem
  obtain ⟨ptr, mem', hret, hne⟩ := hagain mem hfree
  exact ⟨st, mem, ptr, mem', hstep, hfree, hret, hne⟩

end OsKernel
