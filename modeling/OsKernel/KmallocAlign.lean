import OsKernel.KmallocGaps

/-! # Alignment of heap pointers

`kmalloc` rounds nothing.  A pointer it returns is 12 bytes behind a header, and headers
stay where they are until a join removes them; so alignment is lost in one way only: a
request that splits a block puts the new header where the request ends.  From an aligned
start, all headers and pointers of a run are aligned exactly if every request that splits
a block is for a multiple of 4 bytes.
-/
namespace OsKernel

/-- The block that `kmalloc` takes from a list: the first free one that is large enough. -/
def servedFrom (bs : List BlockHeader) (n : UInt32) : Option BlockHeader :=
  bs.find? fun b => decide (b.isFree ≠ 0 ∧ b.size ≥ n)

/-- `kmalloc` serves the request `n` by splitting a block. -/
def Splits (st : HeapState) (n : UInt32) : Prop :=
  ∃ bs b, BlockList st.heap.mem st.heap.heapStart bs ∧ servedFrom bs n = some b ∧
    n.toNat + 12 < b.size.toNat

/-- Every header of the list, and every pointer that `kmalloc` may return next, is at an
address divisible by 4. -/
structure HeapAligned (st : HeapState) : Prop where
  headers : ∀ bs, BlockList st.heap.mem st.heap.heapStart bs → ∀ b ∈ bs, 4 ∣ b.addr.toNat
  pointers : ∀ n ptr mem, KmallocReturns st.heap n ptr mem → ptr ≠ 0 → 4 ∣ ptr.toNat

variable {start stop a : Nat} {st st' : HeapState} {cs : List Chunk} {op : HeapOp}

/-! ## Blocks and chunks -/

/-- The block taken is the chunk taken. -/
theorem servedFrom_blocksFrom (hfit : a + span 12 cs < 2 ^ 32) (n : UInt32) :
    (servedFrom (blocksFrom stop a cs) n).map (fun b => b.size.toNat) =
      (fitting n.toNat cs).map Chunk.size := by
  induction cs generalizing a with
  | nil => rfl
  | cons c cs ih =>
    rw [span_cons] at hfit
    have hsize : (UInt32.ofNat c.size).toNat = c.size := toNat_ptr (by omega)
    have hflag : ((if c.isFree then 1 else 0 : UInt8) ≠ 0) ↔ c.isFree = true := by
      cases c.isFree <;> decide
    have hfits : ((if c.isFree then 1 else 0 : UInt8) ≠ 0 ∧ UInt32.ofNat c.size ≥ n) ↔
        (c.isFree = true ∧ n.toNat ≤ c.size) := by
      rw [hflag, ge_iff_le, UInt32.le_iff_toNat_le, hsize]
    by_cases hc : c.isFree ∧ n.toNat ≤ c.size
    · rw [fitting_pos hc, servedFrom, blocksFrom, List.find?_cons_of_pos]
      · simp only [Option.map_some, hsize]
      · exact decide_eq_true (hfits.mpr hc)
    · rw [fitting_neg hc, servedFrom, blocksFrom, List.find?_cons_of_neg]
      · exact ih (by omega)
      · rw [decide_eq_true_iff]
        exact mt hfits.mp hc

section Valid
variable (hstart : 0 < start) (hstop : stop < 2 ^ 32) (h : HeapValid start stop st cs)
include hstart hstop h

theorem HeapValid.splits_iff (n : UInt32) :
    Splits st n ↔ ∃ c, fitting n.toNat cs = some c ∧ n.toNat + 12 < c.size := by
  have hlist := h.blockList hstart hstop
  have hmap := @servedFrom_blocksFrom stop start cs (h.laid.stop_eq ▸ hstop) n
  constructor
  · rintro ⟨bs, b, hbs, hserved, hlt⟩
    obtain rfl := hbs.unique hlist
    rw [hserved, Option.map_some] at hmap
    obtain ⟨c, hc, hsize⟩ := Option.map_eq_some_iff.mp hmap.symm
    exact ⟨c, hc, by omega⟩
  · rintro ⟨c, hc, hlt⟩
    rw [hc, Option.map_some] at hmap
    obtain ⟨b, hb, hsize⟩ := Option.map_eq_some_iff.mp hmap
    exact ⟨_, b, hlist, hb, by omega⟩

/-- A heap is aligned if its headers are. -/
theorem HeapValid.aligned_iff : HeapAligned st ↔ ∀ x ∈ headersFrom 12 start cs, 4 ∣ x := by
  have hlist := h.blockList hstart hstop
  have haddr := @blocksFrom_addr stop cs start (h.laid.stop_eq ▸ hstop)
  constructor
  · intro hal x hx
    rw [← haddr] at hx
    obtain ⟨b, hb, rfl⟩ := List.mem_map.mp hx
    exact hal.headers _ hlist b hb
  · intro hal
    refine ⟨fun bs hbs b hb => ?_, fun n ptr mem hret hptr => ?_⟩
    · obtain rfl := hbs.unique hlist
      exact hal _ (haddr ▸ List.mem_map_of_mem hb)
    · rcases kmalloc_cases hstart hstop h hret with ⟨rfl, -⟩ | ⟨o, cs', hplace, hp, -⟩
      · exact absurd rfl hptr
      · have := hal _ (place_headers hplace start).1
        omega

/-- **One step from an aligned heap**: it stays aligned unless a request that is no
multiple of 4 splits a block. -/
theorem heapStep_aligned (hal : HeapAligned st) (hstep : HeapStep st op st') :
    HeapAligned st' ↔ ∀ n, op = .malloc n → Splits st n → 4 ∣ n.toNat := by
  obtain ⟨cs', h', -, hcases⟩ := heapStep_chunks hstart hstop h hstep
  rw [h.aligned_iff hstart hstop] at hal
  rw [h'.aligned_iff hstart hstop]
  simp only [h.splits_iff hstart hstop]
  rcases hcases with ⟨rfl, hnone⟩ | ⟨n, o, rfl, hplace⟩ | ⟨p, o, rfl, rfl⟩
  · refine iff_of_true hal ?_
    rintro n rfl ⟨c, hc, -⟩
    rw [fitting_eq_none (hnone n rfl)] at hc
    cases hc
  · obtain ⟨htaken, c, hc, hheaders⟩ := place_headers hplace start
    have hbase := hal _ htaken
    constructor
    · rintro hal' m ⟨⟩ ⟨c', hc', hlt⟩
      obtain rfl := Option.some.inj (hc.symm.trans hc')
      have := hal' _ ((hheaders _).mpr (Or.inr ⟨hlt, rfl⟩))
      omega
    · intro hsplit x hx
      rcases (hheaders x).mp hx with hold | ⟨hlt, rfl⟩
      · exact hal x hold
      · have := hsplit n rfl ⟨c, hc, hlt⟩
        omega
  · refine iff_of_true (fun x hx => hal x ?_) fun n hn => (by cases hn)
    rw [← headersFrom_release o]
    exact headersFrom_coalesce hx

end Valid

/-! ## Runs -/

/-- **When heap pointers are aligned.**  From an aligned start, all states of a run have
aligned headers and hand out aligned pointers exactly if every request of the run that
splits a block is for a multiple of 4 bytes. -/
theorem heap_aligned_iff {start size : UInt32} {mem : Memory} (hstart : 0 < start)
    (halign : 4 ∣ start.toNat) (hsize : 12 ≤ size.toNat)
    (hfit : start.toNat + size.toNat < 2 ^ 32) (ops : List HeapOp) :
    (∀ calls st, calls <+: ops → Run HeapStep ⟨kmallocInit mem start size, []⟩ calls st →
      HeapAligned st) ↔
    ∀ calls n st, calls ++ [.malloc n] <+: ops →
      Run HeapStep ⟨kmallocInit mem start size, []⟩ calls st → Splits st n → 4 ∣ n.toNat := by
  have hpos : 0 < start.toNat := UInt32.lt_iff_toNat_lt.mp hstart
  constructor
  · intro hal calls n st hpre hrun
    obtain ⟨cs, h⟩ := run_heapValid hstart hsize hfit hrun
    obtain ⟨ptr, mem', -, hret, -⟩ := kmalloc_valid hpos hfit h n
    have hstep := HeapStep.malloc st hret
    have hbefore := hal calls st ((List.prefix_append _ _).trans hpre) hrun
    have hafter := hal _ _ hpre (hrun.snoc hstep)
    exact (heapStep_aligned hpos hfit h hbefore hstep).mp hafter n rfl
  · intro hsplit calls st hpre hrun
    induction hrun with
    | nil =>
      refine ((kmallocInit_valid mem hsize hfit).aligned_iff hpos hfit).mpr fun x hx => ?_
      rw [List.mem_singleton.mp hx]
      exact halign
    | @snoc calls s u op hrun hstep ih =>
      have hs := ih ((List.prefix_append _ _).trans hpre)
      obtain ⟨cs, h⟩ := run_heapValid hstart hsize hfit hrun
      refine (heapStep_aligned hpos hfit h hs hstep).mpr ?_
      rintro n rfl
      exact hsplit calls n s hpre hrun

/-- A heap from which 8 bytes are taken is aligned before and after. -/
theorem heap_aligned_iff_first : ∃ st,
    HeapStep ⟨kmallocInit (fun _ => 0) 0x1000 64, []⟩ (.malloc 8) st ∧ HeapAligned st := by
  obtain ⟨st, hstep, -⟩ := exists_malloc_step
  refine ⟨st, hstep, (heap_aligned_iff (by decide) (by decide) (by decide) (by decide)
    [.malloc 8]).mpr ?_ [.malloc 8] st List.prefix_rfl (Run.nil.snoc hstep)⟩
  intro calls n s hpre _ _
  obtain ⟨rest, hrest⟩ := hpre
  have hn : HeapOp.malloc n ∈ [HeapOp.malloc 8] := hrest ▸ by simp
  obtain rfl : n = 8 := HeapOp.malloc.inj (List.mem_singleton.mp hn)
  decide

/-- One byte of a heap of 64 moves the header behind it, and with it the next pointer, to
an odd address. -/
theorem kmalloc_unaligned : ∃ st bs b ptr mem,
    HeapStep ⟨kmallocInit (fun _ => 0) 0x1000 64, []⟩ (.malloc 1) st ∧
      BlockList st.heap.mem st.heap.heapStart bs ∧ b ∈ bs ∧ ¬ 4 ∣ b.addr.toNat ∧
      KmallocReturns st.heap 8 ptr mem ∧ ptr ≠ 0 ∧ ¬ 4 ∣ ptr.toNat := by
  have hinit := @kmallocInit_valid (fun _ => 0) 0x1000 64 (by decide) (by decide)
  obtain ⟨mem, hstep, hvalid⟩ :=
    @exists_malloc _ _ _ _ (by decide) (by decide) hinit 1 0x100C _ _ rfl rfl
  rcases kmalloc_chunks (by decide) (by decide) hvalid 8 with
    ⟨hnone, -⟩ | ⟨o', cs', ptr', mem', hplace', hptr', hne', hret', -⟩
  · cases hnone
  obtain ⟨rfl, -⟩ := Prod.mk.inj (Option.some.inj hplace')
  refine ⟨_, _, ⟨0x100D, 39, 1, 0⟩, ptr', mem', hstep, hvalid.blockList (by decide) (by decide),
    ?_, by decide, hret', hne', ?_⟩
  · exact List.mem_cons_of_mem _ List.mem_cons_self
  · rw [hptr']
    decide

end OsKernel
