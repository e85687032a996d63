import OsKernel.KmallocLayout

/-! # Runs of the kernel heap

Clients allocate, free what they hold, and write the bytes they were given.  The
ghost list `live` records the pointers handed out and not freed, with the sizes
asked for.  `HeapValid` ties it to the chunks in memory; every call keeps it, and
integrity and tiling of the heap are read off it.
-/
namespace OsKernel

/-- The heap, and the live allocations: pointer and requested size. -/
structure HeapState where
  heap : Heap
  live : List (Ptr × UInt32)

/-- What clients do. -/
inductive HeapOp
  | malloc (size : UInt32)
  | free (ptr : Ptr)
  | store (addr : Nat) (byte : UInt8)

/-- One call of a client, or one store.  Clients free live pointers or `NULL`, and store
into live allocations. -/
inductive HeapStep : HeapState → HeapOp → HeapState → Prop
  | malloc (st : HeapState) {size ptr : UInt32} {mem : Memory}
      (h : KmallocReturns st.heap size ptr mem) :
      HeapStep st (.malloc size)
        ⟨{ st.heap with mem }, if ptr = 0 then st.live else (ptr, size) :: st.live⟩
  | free (st : HeapState) {ptr size : UInt32} {mem : Memory} (hlive : (ptr, size) ∈ st.live)
      (h : KfreeReturns st.heap ptr mem) :
      HeapStep st (.free ptr) ⟨{ st.heap with mem }, st.live.erase (ptr, size)⟩
  | freeNull (st : HeapState) {mem : Memory} (h : KfreeReturns st.heap 0 mem) :
      HeapStep st (.free 0) ⟨{ st.heap with mem }, st.live⟩
  | store (st : HeapState) {ptr size : UInt32} {addr : Nat} {byte : UInt8}
      (hlive : (ptr, size) ∈ st.live) (hlo : ptr.toNat ≤ addr)
      (hhi : addr < ptr.toNat + size.toNat) :
      HeapStep st (.store addr byte)
        ⟨{ st.heap with mem := Function.update st.heap.mem addr byte }, st.live⟩

/-- A live allocation as numbers. -/
def extent (e : Ptr × UInt32) : Nat × Nat := (e.1.toNat, e.2.toNat)

/-- **The invariant of the heap**: its memory holds the chunks `cs`, no two free ones
side by side, and their live requests are the live allocations. -/
structure HeapValid (start stop : Nat) (st : HeapState) (cs : List Chunk) : Prop where
  heapStart : st.heap.heapStart = UInt32.ofNat start
  laid : Laid st.heap.mem stop start cs
  nonempty : cs ≠ []
  settled : Settled cs
  live : (st.live.map extent).Perm (liveFrom 12 start cs)

theorem KfreeReturns.unique {h : Heap} {ptr : Ptr} {mem mem' : Memory}
    (hret : KfreeReturns h ptr mem) (hret' : KfreeReturns h ptr mem') : mem = mem' := by
  rw [KfreeReturns] at hret hret'
  split at hret
  · rw [if_pos ‹_›] at hret'
    rw [hret, hret']
  · rw [if_neg ‹_›] at hret'
    exact Returns.unique hret hret'

variable {start stop : Nat} {st st' : HeapState} {cs : List Chunk} {e : Ptr × UInt32}

theorem HeapValid.mem_live (h : HeapValid start stop st cs) (he : e ∈ st.live) :
    extent e ∈ liveFrom 12 start cs :=
  h.live.mem_iff.mp (List.mem_map_of_mem he)

theorem HeapValid.bounds (h : HeapValid start stop st cs) (he : e ∈ st.live) :
    start + 12 ≤ e.1.toNat ∧ e.1.toNat + e.2.toNat ≤ stop := by
  have hb := liveFrom_bounds (h.mem_live he)
  rw [← h.laid.stop_eq] at hb
  exact hb

theorem HeapValid.live_ne_zero {p : Ptr} {n : UInt32} (h : HeapValid start stop st cs)
    (hp : (p, n) ∈ st.live) : p ≠ 0 := by
  rintro rfl
  have := (h.bounds hp).1
  change start + 12 ≤ 0 at this
  omega

/-- Live allocations share no byte. -/
theorem HeapValid.pairwise_live (h : HeapValid start stop st cs) :
    st.live.Pairwise fun e e' => e.1.toNat + e.2.toNat ≤ e'.1.toNat ∨
      e'.1.toNat + e'.2.toNat ≤ e.1.toNat := by
  have hpair : (liveFrom 12 start cs).Pairwise fun e e' => e.1 + e.2 ≤ e'.1 := pairwise_liveFrom
  have hsym : (st.live.map extent).Pairwise fun e e' => e.1 + e.2 ≤ e'.1 ∨ e'.1 + e'.2 ≤ e.1 :=
    h.live.symm.pairwise (hpair.imp fun h => Or.inl h) fun h => h.symm
  exact List.pairwise_map.mp hsym

theorem place_ne_nil {n o : Nat} {cs cs' : List Chunk} (h : place 12 n cs = some (o, cs')) :
    cs' ≠ [] := by
  rintro rfl
  have := (place_live h 0).length_eq
  simp [liveFrom] at this

theorem release_ne_nil {o : Nat} (h : cs ≠ []) : release 12 o cs ≠ [] := by
  cases cs with
  | nil => exact absurd rfl h
  | cons c cs =>
    rw [release]
    split <;> exact List.cons_ne_nil _ _

theorem coalesce_ne_nil (h : cs ≠ []) : coalesce 12 cs ≠ [] := by
  induction cs using coalesce.induct 12 with
  | case1 => exact absurd rfl h
  | case2 c => rw [coalesce]; exact h
  | case3 c d cs hfree ih => rw [coalesce, if_pos hfree]; exact ih (List.cons_ne_nil _ _)
  | case4 c d cs hfree ih => rw [coalesce, if_neg hfree]; exact List.cons_ne_nil _ _

theorem HeapValid.start_link (h : HeapValid start stop st cs) :
    st.heap.heapStart = UInt32.ofNat (linkTo stop start) := by
  rw [h.heapStart]
  cases hcs : cs with
  | nil => exact absurd hcs h.nonempty
  | cons c cs' =>
    have hl := h.laid
    rw [hcs] at hl
    rw [hl.linkTo_cons]

/-- Stores into a live allocation leave the chunks. -/
theorem HeapValid.store_live {mem : Memory} (h : HeapValid start stop st cs) (he : e ∈ st.live)
    (hmem : ∀ x, x < e.1.toNat ∨ e.1.toNat + e.2.toNat ≤ x → mem x = st.heap.mem x) :
    HeapValid start stop ⟨{ st.heap with mem }, st.live⟩ cs := by
  refine ⟨h.heapStart, h.laid.congr fun b hb x h1 h2 => hmem x ?_, h.nonempty, h.settled, h.live⟩
  have := headersFrom_live hb (h.mem_live he)
  dsimp only [extent] at this
  omega

section Calls
variable (hstart : 0 < start) (hstop : stop < 2 ^ 32) (h : HeapValid start stop st cs)
include hstart hstop h

/-- What `kmalloc` does to the chunks: nothing if no free one is large enough. -/
theorem kmalloc_chunks (size : UInt32) :
    (place 12 size.toNat cs = none ∧ KmallocReturns st.heap size 0 st.heap.mem) ∨
    ∃ o cs' ptr mem, place 12 size.toNat cs = some (o, cs') ∧ ptr.toNat = start + o + 12 ∧
      ptr ≠ 0 ∧ KmallocReturns st.heap size ptr mem ∧
      HeapValid start stop ⟨{ st.heap with mem }, (ptr, size) :: st.live⟩ cs' ∧
      Keeps st.heap.mem mem start stop (liveFrom 12 start cs) := by
  rcases kmalloc_laid hstop hstart h.laid size with
    ⟨hplace, hr⟩ | ⟨o, cs', m', hplace, hr, hl, hk⟩
  · rw [← h.start_link] at hr
    exact Or.inl ⟨hplace, hr⟩
  · rw [← h.start_link] at hr
    have hlive := place_live hplace start
    have hbound := liveFrom_bounds (hlive.mem_iff.mpr List.mem_cons_self)
    rw [← hl.stop_eq] at hbound
    dsimp only at hbound
    have hptr : (UInt32.ofNat (start + o + 12)).toNat = start + o + 12 := toNat_ptr (by omega)
    refine Or.inr ⟨o, cs', _, m', hplace, hptr, ptr_ne_zero (by omega) (by omega), hr,
      ⟨h.heapStart, hl, place_ne_nil hplace, (place_settled hplace h.settled).1, ?_⟩, hk⟩
    rw [List.map_cons, extent, hptr]
    exact (h.live.cons _).trans hlive.symm

/-- **`kmalloc`** returns; its result is `NULL` and nothing changes, or it is a live
allocation more. -/
theorem kmalloc_valid (size : UInt32) :
    ∃ ptr mem cs', KmallocReturns st.heap size ptr mem ∧
      HeapValid start stop
        ⟨{ st.heap with mem }, if ptr = 0 then st.live else (ptr, size) :: st.live⟩ cs' ∧
      Keeps st.heap.mem mem start stop (liveFrom 12 start cs) := by
  rcases kmalloc_chunks hstart hstop h size with
    ⟨-, hr⟩ | ⟨o, cs', ptr, mem, -, -, hne, hr, hvalid, hk⟩
  · exact ⟨0, st.heap.mem, cs, hr, ⟨h.heapStart, h.laid, h.nonempty, h.settled, h.live⟩,
      Keeps.refl _ _ _ _⟩
  · refine ⟨ptr, mem, cs', hr, ?_, hk⟩
    rw [if_neg hne]
    exact hvalid

/-- A call that finds the place for its block makes a live allocation of it. -/
theorem exists_malloc {size ptr : UInt32} {o : Nat} {cs' : List Chunk}
    (hplace : place 12 size.toNat cs = some (o, cs')) (hptr : ptr.toNat = start + o + 12) :
    ∃ mem, HeapStep st (.malloc size) ⟨{ st.heap with mem }, (ptr, size) :: st.live⟩ ∧
      HeapValid start stop ⟨{ st.heap with mem }, (ptr, size) :: st.live⟩ cs' := by
  rcases kmalloc_chunks hstart hstop h size with
    ⟨hnone, -⟩ | ⟨o', cs'', ptr', mem, hplace', hptr', hne, hret, hvalid, -⟩
  · cases hnone.symm.trans hplace
  · obtain ⟨rfl, rfl⟩ := Prod.mk.inj (Option.some.inj (hplace'.symm.trans hplace))
    obtain rfl : ptr' = ptr := UInt32.toNat_inj.mp (hptr'.trans hptr.symm)
    have hstep := HeapStep.malloc st hret
    rw [if_neg hne] at hstep
    exact ⟨mem, hstep, hvalid⟩

/-- What `kfree` of a live pointer does to the chunks. -/
theorem kfree_chunks (he : e ∈ st.live) :
    ∃ mem, KfreeReturns st.heap e.1 mem ∧
      HeapValid start stop ⟨{ st.heap with mem }, st.live.erase e⟩
        (coalesce 12 (release 12 (e.1.toNat - 12 - start) cs)) ∧
      Keeps st.heap.mem mem start stop (liveFrom 12 start cs) := by
  have hmem := h.mem_live he
  have hbound := h.bounds he
  have hne : e.1 ≠ 0 := h.live_ne_zero he
  obtain ⟨hl, hk⟩ := free_laid h.laid hmem
  obtain ⟨m', hr, hl', hk'⟩ := kfree_laid hstop hstart hl (release_ne_nil h.nonempty)
  have hperm := release_live (show 0 < 12 by decide) hmem
  refine ⟨m', ?_, ⟨h.heapStart, hl', coalesce_ne_nil (release_ne_nil h.nonempty),
    coalesce_settled _, ?_⟩, ?_⟩
  · rw [KfreeReturns, if_neg hne, h.heapStart, setIsFree,
      toNat_sub_headerSize (by omega)]
    exact hr
  · rw [coalesce_live]
    refine List.Perm.cons_inv (a := extent e) ?_
    exact (((List.perm_cons_erase he).map extent).symm.trans h.live).trans hperm
  · refine (hk.trans fun x hx => ?_).keeps h.laid
    rw [← headersFrom_release (e.1.toNat - 12 - start)]
    exact hk' x hx

/-- What a `kmalloc` that returned has done. -/
theorem kmalloc_cases {size ptr : UInt32} {mem : Memory}
    (hret : KmallocReturns st.heap size ptr mem) :
    (ptr = 0 ∧ mem = st.heap.mem ∧ place 12 size.toNat cs = none) ∨
    ∃ o cs', place 12 size.toNat cs = some (o, cs') ∧ ptr.toNat = start + o + 12 ∧ ptr ≠ 0 ∧
      HeapValid start stop ⟨{ st.heap with mem }, (ptr, size) :: st.live⟩ cs' ∧
      Keeps st.heap.mem mem start stop (liveFrom 12 start cs) := by
  rcases kmalloc_chunks hstart hstop h size with
    ⟨hnone, hret'⟩ | ⟨o, cs', ptr', mem', hplace, hptr, hne, hret', hvalid, hk⟩
  · obtain ⟨rfl, rfl⟩ := Prod.mk.inj (hret.unique hret')
    exact Or.inl ⟨rfl, rfl, hnone⟩
  · obtain ⟨rfl, rfl⟩ := Prod.mk.inj (hret.unique hret')
    exact Or.inr ⟨o, cs', hplace, hptr, hne, hvalid, hk⟩

/-- What a `kfree` of a live pointer that returned has done. -/
theorem kfree_done (he : e ∈ st.live) {mem : Memory} (hret : KfreeReturns st.heap e.1 mem) :
    HeapValid start stop ⟨{ st.heap with mem }, st.live.erase e⟩
        (coalesce 12 (release 12 (e.1.toNat - 12 - start) cs)) ∧
      Keeps st.heap.mem mem start stop (liveFrom 12 start cs) := by
  obtain ⟨mem', hret', hvalid, hk⟩ := kfree_chunks hstart hstop h he
  obtain rfl := hret.unique hret'
  exact ⟨hvalid, hk⟩

/-- **`kfree`** of a live pointer returns; the allocation is gone, and no byte of any
live allocation has changed, this one included. -/
theorem kfree_valid (he : e ∈ st.live) :
    ∃ mem cs', KfreeReturns st.heap e.1 mem ∧
      HeapValid start stop ⟨{ st.heap with mem }, st.live.erase e⟩ cs' ∧
      Keeps st.heap.mem mem start stop (liveFrom 12 start cs) := by
  obtain ⟨mem, hret, hvalid, hk⟩ := kfree_chunks hstart hstop h he
  exact ⟨mem, _, hret, hvalid, hk⟩

end Calls

/-! ## The block list -/

/-- The fields of one `block_header_t`, with its address. -/
structure BlockHeader where
  addr : Ptr
  size : UInt32
  isFree : UInt8
  next : Ptr
  deriving DecidableEq, Repr

/-- The blocks that a pointer leads to, through `next` up to `NULL`. -/
inductive BlockList (mem : Memory) : Ptr → List BlockHeader → Prop
  | null : BlockList mem 0 []
  | block {b : Ptr} {bs : List BlockHeader} (hb : b ≠ 0)
      (rest : BlockList mem (blockNext mem b) bs) :
      BlockList mem b (⟨b, blockSize mem b, blockIsFree mem b, blockNext mem b⟩ :: bs)

theorem blockList_cons {mem : Memory} {p : Ptr} {b : BlockHeader} {bs : List BlockHeader}
    (h : BlockList mem p (b :: bs)) :
    b = ⟨p, blockSize mem p, blockIsFree mem p, blockNext mem p⟩ ∧
      BlockList mem (blockNext mem p) bs := by
  cases h with
  | block _ rest => exact ⟨rfl, rest⟩

/-- The headers of chunks laid out from `a` on. -/
def blocksFrom (stop : Nat) : Nat → List Chunk → List BlockHeader
  | _, [] => []
  | a, c :: cs =>
    ⟨UInt32.ofNat a, UInt32.ofNat c.size, if c.isFree then 1 else 0,
      UInt32.ofNat (linkTo stop (a + 12 + c.size))⟩ :: blocksFrom stop (a + 12 + c.size) cs

/-- The chunks in memory are the block list. -/
theorem Laid.blockList {m : Memory} {a : Nat} (hstop : stop < 2 ^ 32) (ha : 0 < a)
    (hl : Laid m stop a cs) :
    BlockList m (UInt32.ofNat (linkTo stop a)) (blocksFrom stop a cs) := by
  induction cs generalizing a with
  | nil =>
    rw [linkTo, if_pos (show a = stop from hl)]
    exact .null
  | cons c cs ih =>
    have halt := hl.addr_lt hstop
    have hrest := ih (by omega) hl.2
    rw [← blockNext_eq hl.1 halt] at hrest
    have hcons := BlockList.block (ptr_ne_zero ha halt) hrest
    have hflag : blockIsFree m (UInt32.ofNat a) = if c.isFree then 1 else 0 := by
      rw [blockIsFree, toNat_ptr halt, hl.1.isFree]
      cases c.isFree <;> rfl
    rw [blockSize_eq hl.1 halt, blockNext_eq hl.1 halt, hflag] at hcons
    rw [hl.linkTo_cons]
    exact hcons

/-- **The blocks tile the heap**: they follow one another from `start` to the end of the
heap, linked in this order, and no two free ones are neighbours. -/
structure HeapTiled (start size : UInt32) (bs : List BlockHeader) : Prop where
  first : bs.head?.map BlockHeader.addr = some start
  increasing : bs.Pairwise fun b b' => b.addr < b'.addr
  linked : bs.IsChain fun b b' =>
    b.next = b'.addr ∧ b'.addr.toNat = b.addr.toNat + 12 + b.size.toNat
  last : ∀ b ∈ bs.getLast?, b.next = 0 ∧
    b.addr.toNat + 12 + b.size.toNat = start.toNat + size.toNat
  total : (bs.map fun b => 12 + b.size.toNat).sum = size.toNat
  settled : bs.IsChain fun b b' => ¬ (b.isFree ≠ 0 ∧ b'.isFree ≠ 0)

section Blocks
variable {a : Nat} {c : Chunk}

theorem blocksFrom_addr (hfit : a + span 12 cs < 2 ^ 32) :
    (blocksFrom stop a cs).map (fun b => b.addr.toNat) = headersFrom 12 a cs := by
  induction cs generalizing a with
  | nil => rfl
  | cons c cs ih =>
    rw [span_cons] at hfit
    rw [blocksFrom, List.map_cons, headersFrom, ih (by omega), toNat_ptr (by omega)]

theorem mem_blocksFrom {b : BlockHeader} (hb : b ∈ blocksFrom stop a cs)
    (hfit : a + span 12 cs < 2 ^ 32) : b.addr.toNat ∈ headersFrom 12 a cs := by
  rw [← @blocksFrom_addr stop cs a hfit]
  exact List.mem_map_of_mem hb

theorem blocksFrom_increasing (hfit : a + span 12 cs < 2 ^ 32) :
    (blocksFrom stop a cs).Pairwise fun b b' => b.addr < b'.addr := by
  induction cs generalizing a with
  | nil => exact List.Pairwise.nil
  | cons c cs ih =>
    rw [span_cons] at hfit
    rw [blocksFrom, List.pairwise_cons]
    refine ⟨fun b hb => ?_, ih (by omega)⟩
    have := (headersFrom_bounds (mem_blocksFrom hb (by omega))).1
    rw [UInt32.lt_iff_toNat_lt, toNat_ptr (by omega)]
    omega

theorem blocksFrom_total (hfit : a + span 12 cs < 2 ^ 32) :
    ((blocksFrom stop a cs).map fun b => 12 + b.size.toNat).sum = span 12 cs := by
  induction cs generalizing a with
  | nil => rfl
  | cons c cs ih =>
    rw [span_cons] at hfit
    rw [blocksFrom, List.map_cons, List.sum_cons, span_cons, ih (by omega), toNat_ptr (by omega)]

theorem blocksFrom_linked (hfit : a + span 12 cs < 2 ^ 32) (hstop : stop = a + span 12 cs) :
    (blocksFrom stop a cs).IsChain fun b b' =>
      b.next = b'.addr ∧ b'.addr.toNat = b.addr.toNat + 12 + b.size.toNat := by
  induction cs generalizing a with
  | nil => exact List.isChain_nil
  | cons c cs ih =>
    rw [span_cons] at hfit hstop
    rw [blocksFrom, List.isChain_cons]
    refine ⟨fun b hb => ?_, ih (by omega) (by omega)⟩
    cases cs with
    | nil => cases hb
    | cons d cs =>
      rw [span_cons] at hfit hstop
      obtain rfl : _ = b := Option.some.inj hb
      dsimp only
      rw [linkTo, if_neg (by omega), toNat_ptr (by omega), toNat_ptr (by omega),
        toNat_ptr (by omega)]
      exact ⟨rfl, rfl⟩

theorem blocksFrom_last (hfit : a + span 12 cs < 2 ^ 32) (hstop : stop = a + span 12 cs) :
    ∀ b ∈ (blocksFrom stop a cs).getLast?,
      b.next = 0 ∧ b.addr.toNat + 12 + b.size.toNat = stop := by
  induction cs generalizing a with
  | nil => intro b hb; cases hb
  | cons c cs ih =>
    rw [span_cons] at hfit hstop
    cases cs with
    | nil =>
      intro b hb
      rw [blocksFrom, blocksFrom, List.getLast?_singleton] at hb
      obtain rfl := Option.some.inj hb
      rw [span_nil] at hstop hfit
      have hlink : linkTo stop (a + 12 + c.size) = 0 := by rw [linkTo, if_pos (by omega)]
      rw [hlink, toNat_ptr (by omega), toNat_ptr (by omega)]
      exact ⟨rfl, by omega⟩
    | cons d cs =>
      rw [blocksFrom, blocksFrom, List.getLast?_cons_cons]
      exact ih (by omega) (by omega)

theorem blocksFrom_settled (hs : Settled cs) :
    (blocksFrom stop a cs).IsChain fun b b' => ¬ (b.isFree ≠ 0 ∧ b'.isFree ≠ 0) := by
  have hflag : ∀ c : Chunk, (if c.isFree then (1 : UInt8) else 0) ≠ 0 → c.isFree = true := by
    intro c hc
    by_contra hno
    rw [if_neg hno] at hc
    exact hc rfl
  induction cs generalizing a with
  | nil => exact List.isChain_nil
  | cons c cs ih =>
    rw [settled_cons] at hs
    rw [blocksFrom, List.isChain_cons]
    refine ⟨fun b hb hboth => ?_, ih hs.2⟩
    cases cs with
    | nil => cases hb
    | cons d cs =>
      obtain rfl : _ = b := Option.some.inj hb
      exact hs.1 (hflag c hboth.1) (headFree_cons.mpr (hflag d hboth.2))

end Blocks

/-! ## Runs -/

/-- The calls of the allocator, as opposed to stores of its clients. -/
def HeapOp.isCall : HeapOp → Bool
  | .malloc _ | .free _ => true
  | .store _ _ => false

/-- **What a step does to the chunks**: a request takes one, a call of `kfree` gives one
back, and any other step leaves them.  A call keeps the bytes of live allocations. -/
theorem heapStep_chunks {op : HeapOp} (hstart : 0 < start) (hstop : stop < 2 ^ 32)
    (h : HeapValid start stop st cs) (hstep : HeapStep st op st') :
    ∃ cs', HeapValid start stop st' cs' ∧
      (op.isCall = true → Keeps st.heap.mem st'.heap.mem start stop (liveFrom 12 start cs)) ∧
      ((cs' = cs ∧ ∀ n, op = .malloc n → place 12 n.toNat cs = none) ∨
        (∃ n o, op = .malloc n ∧ place 12 n.toNat cs = some (o, cs')) ∨
        ∃ p o, op = .free p ∧ cs' = coalesce 12 (release 12 o cs)) := by
  have hsame : HeapValid start stop ⟨st.heap, st.live⟩ cs :=
    ⟨h.heapStart, h.laid, h.nonempty, h.settled, h.live⟩
  cases hstep with
  | @malloc size ptr mem hret =>
    rcases kmalloc_cases hstart hstop h hret with
      ⟨rfl, rfl, hnone⟩ | ⟨o, cs', hplace, -, hne, hvalid, hk⟩
    · refine ⟨cs, hsame, fun _ => Keeps.refl _ _ _ _, Or.inl ⟨rfl, ?_⟩⟩
      rintro n ⟨⟩
      exact hnone
    · rw [if_neg hne]
      exact ⟨cs', hvalid, fun _ => hk, Or.inr (Or.inl ⟨size, o, rfl, hplace⟩)⟩
  | @free ptr size mem hlive hret =>
    obtain ⟨hvalid, hk⟩ := kfree_done hstart hstop h hlive hret
    exact ⟨_, hvalid, fun _ => hk, Or.inr (Or.inr ⟨ptr, _, rfl, rfl⟩)⟩
  | freeNull hret =>
    rw [KfreeReturns, if_pos rfl] at hret
    subst hret
    exact ⟨cs, hsame, fun _ => Keeps.refl _ _ _ _, Or.inl ⟨rfl, fun n hn => (by cases hn)⟩⟩
  | @store ptr size addr byte hlive hlo hhi =>
    refine ⟨cs, h.store_live hlive fun x hx => ?_, fun hc => (by cases hc),
      Or.inl ⟨rfl, fun n hn => (by cases hn)⟩⟩
    apply Function.update_of_ne
    rintro rfl
    dsimp only at hx
    omega

/-- **One step keeps the invariant.**  A call keeps the bytes of live allocations, a
store keeps the chunks. -/
theorem heapStep_valid {op : HeapOp} (hstart : 0 < start) (hstop : stop < 2 ^ 32)
    (h : HeapValid start stop st cs) (hstep : HeapStep st op st') :
    ∃ cs', HeapValid start stop st' cs' ∧ (op.isCall = false → cs' = cs) ∧
      (op.isCall = true →
        Keeps st.heap.mem st'.heap.mem start stop (liveFrom 12 start cs)) := by
  obtain ⟨cs', h', hk, hcases⟩ := heapStep_chunks hstart hstop h hstep
  refine ⟨cs', h', fun hc => ?_, hk⟩
  rcases hcases with ⟨rfl, -⟩ | ⟨n, o, rfl, -⟩ | ⟨p, o, rfl, -⟩
  · rfl
  · cases hc
  · cases hc

/-- `kmalloc_init` makes one free block of the whole heap. -/
theorem kmallocInit_valid (mem : Memory) {start size : UInt32} (hsize : 12 ≤ size.toNat)
    (hfit : start.toNat + size.toNat < 2 ^ 32) :
    HeapValid start.toNat (start.toNat + size.toNat) ⟨kmallocInit mem start size, []⟩
      [.avail (size.toNat - 12)] := by
  have hsub : (size - headerSize).toNat = size.toNat - 12 := toNat_sub_headerSize hsize
  refine ⟨(UInt32.ofNat_toNat).symm, ⟨⟨?_, ?_, ?_⟩, ?_⟩, List.cons_ne_nil _ _,
    List.isChain_singleton _, List.Perm.nil⟩
  · simp only [kmallocInit, setSize, setIsFree, setNext, hsub]
    rw [Memory.load_store_disjoint (by omega), Memory.load_store_disjoint (by omega),
      Memory.load_store]
    exact Nat.mod_eq_of_lt (by omega)
  · simp only [kmallocInit, setSize, setIsFree, setNext]
    rw [Memory.load_store_disjoint (by omega), Memory.load_store]
    rfl
  · simp only [kmallocInit, setSize, setIsFree, setNext]
    rw [Memory.load_store, linkTo, if_pos]
    · rfl
    · change start.toNat + 12 + (size.toNat - 12) = start.toNat + size.toNat
      omega
  · change start.toNat + 12 + (size.toNat - 12) = start.toNat + size.toNat
    omega

/-- The heap of `kernel_main`, over any memory. -/
theorem kernelHeap_valid (mem : Memory) :
    HeapValid 0x00200000 0x00300000 ⟨kmallocInit mem 0x00200000 0x00100000, []⟩
      [.avail 1048564] :=
  @kmallocInit_valid mem 0x00200000 0x00100000 (by decide) (by decide)

section Runs
variable {start size : UInt32} {mem : Memory} {ops : List HeapOp} (hstart : 0 < start)
  (hsize : 12 ≤ size.toNat) (hfit : start.toNat + size.toNat < 2 ^ 32)
  (hrun : Run HeapStep ⟨kmallocInit mem start size, []⟩ ops st)
include hstart hsize hfit hrun

theorem run_heapValid : ∃ cs, HeapValid start.toNat (start.toNat + size.toNat) st cs := by
  refine hrun.invariant
    (fun st => ∃ cs, HeapValid start.toNat (start.toNat + size.toNat) st cs)
    ⟨_, kmallocInit_valid mem hsize hfit⟩ ?_
  rintro t op u ⟨cs, ht⟩ hstep
  obtain ⟨cs', hu, -⟩ := heapStep_valid (UInt32.lt_iff_toNat_lt.mp hstart) hfit ht hstep
  exact ⟨cs', hu⟩

/-- **Heap tiling and full coalescing.**  In every reachable state the block list tiles
the heap with no two free neighbours, and both loops end. -/
theorem kmalloc_heap_tiled :
    (∃ bs, BlockList st.heap.mem st.heap.heapStart bs ∧ HeapTiled start size bs) ∧
      (∀ n, ∃ ptr mem', KmallocReturns st.heap n ptr mem') ∧
      ∀ e ∈ st.live, ∃ mem', KfreeReturns st.heap e.1 mem' := by
  have hpos : 0 < start.toNat := UInt32.lt_iff_toNat_lt.mp hstart
  obtain ⟨cs, h⟩ := run_heapValid hstart hsize hfit hrun
  have hend := h.laid.stop_eq
  refine ⟨⟨_, h.start_link ▸ h.laid.blockList hfit hpos, ?_⟩, fun n => ?_, fun e he => ?_⟩
  · refine ⟨?_, blocksFrom_increasing (hend ▸ hfit), blocksFrom_linked (hend ▸ hfit) hend,
      blocksFrom_last (hend ▸ hfit) hend, ?_, blocksFrom_settled h.settled⟩
    · cases hcs : cs with
      | nil => exact absurd hcs h.nonempty
      | cons c cs' =>
        rw [blocksFrom, List.head?_cons, Option.map_some, UInt32.ofNat_toNat]
    · rw [blocksFrom_total (hend ▸ hfit)]
      omega
  · obtain ⟨ptr, mem', cs', hret, -⟩ := kmalloc_valid hpos hfit h n
    exact ⟨ptr, mem', hret⟩
  · obtain ⟨mem', cs', hret, -⟩ := kfree_valid hpos hfit h he
    exact ⟨mem', hret⟩

/-- **Heap integrity.**  In every reachable state the live allocations are disjoint,
inside the heap, and clear of every header of the block list; a call of the allocator
changes no byte of them, and a store of a client does not change the block list. -/
theorem kmalloc_heap_integrity :
    st.live.Pairwise (fun e e' => e.1.toNat + e.2.toNat ≤ e'.1.toNat ∨
        e'.1.toNat + e'.2.toNat ≤ e.1.toNat) ∧
      (∀ e ∈ st.live, start.toNat ≤ e.1.toNat ∧
        e.1.toNat + e.2.toNat ≤ start.toNat + size.toNat) ∧
      ∃ bs, BlockList st.heap.mem st.heap.heapStart bs ∧
        (∀ b ∈ bs, ∀ e ∈ st.live, b.addr.toNat + 12 ≤ e.1.toNat ∨
          e.1.toNat + e.2.toNat ≤ b.addr.toNat) ∧
        ∀ op st', HeapStep st op st' →
          (op.isCall = true → ∀ e ∈ st.live, ∀ x, e.1.toNat ≤ x → x < e.1.toNat + e.2.toNat →
            st'.heap.mem x = st.heap.mem x) ∧
          (op.isCall = false → BlockList st'.heap.mem st'.heap.heapStart bs) := by
  have hpos : 0 < start.toNat := UInt32.lt_iff_toNat_lt.mp hstart
  obtain ⟨cs, h⟩ := run_heapValid hstart hsize hfit hrun
  have hend := h.laid.stop_eq
  refine ⟨h.pairwise_live, fun e he => ?_, _, h.start_link ▸ h.laid.blockList hfit hpos,
    fun b hb e he => ?_, fun op st' hstep => ?_⟩
  · have := h.bounds he
    omega
  · exact headersFrom_live (mem_blocksFrom hb (hend ▸ hfit)) (h.mem_live he)
  · obtain ⟨cs', h', hstore, hcall⟩ := heapStep_valid hpos hfit h hstep
    refine ⟨fun hc e he x h1 h2 => (hcall hc).live _ (h.mem_live he) x h1 h2, fun hc => ?_⟩
    have hlist := h'.laid.blockList hfit hpos
    rw [hstore hc, ← h'.start_link] at hlist
    exact hlist

end Runs

/-- A first allocation of 8 bytes in a heap of 64. -/
theorem exists_malloc_step :
    ∃ st, HeapStep ⟨kmallocInit (fun _ => 0) 0x1000 64, []⟩ (.malloc 8) st ∧
      st.live = [(0x100C, 8)] := by
  have hinit := @kmallocInit_valid (fun _ => 0) 0x1000 64 (by decide) (by decide)
  obtain ⟨mem, hstep, -⟩ :=
    @exists_malloc _ _ _ _ (by decide) (by decide) hinit 8 0x100C _ _ rfl rfl
  exact ⟨_, hstep, rfl⟩

theorem kmalloc_heap_tiled_first : ∃ st bs,
    HeapStep ⟨kmallocInit (fun _ => 0) 0x1000 64, []⟩ (.malloc 8) st ∧
      BlockList st.heap.mem st.heap.heapStart bs ∧ HeapTiled 0x1000 64 bs := by
  obtain ⟨st, hstep, -⟩ := exists_malloc_step
  obtain ⟨⟨bs, hlist, htiled⟩, -⟩ :=
    kmalloc_heap_tiled (by decide) (by decide) (by decide) (Run.nil.snoc hstep)
  exact ⟨st, bs, hstep, hlist, htiled⟩

/-- Two allocations, of 8 and of 4 bytes, and a store into the first. -/
theorem exists_malloc_store : ∃ st,
    Run HeapStep ⟨kmallocInit (fun _ => 0) 0x1000 64, []⟩
        [.malloc 8, .malloc 4, .store 0x1013 0xFF] st ∧
      st.live = [(0x1020, 4), (0x100C, 8)] := by
  have hinit := @kmallocInit_valid (fun _ => 0) 0x1000 64 (by decide) (by decide)
  obtain ⟨m₁, hfirst, hvalid⟩ :=
    @exists_malloc _ _ _ _ (by decide) (by decide) hinit 8 0x100C _ _ rfl rfl
  obtain ⟨m₂, hsecond, -⟩ :=
    @exists_malloc _ _ _ _ (by decide) (by decide) hvalid 4 0x1020 _ _ rfl rfl
  have hlive : ((0x100C, 8) : Ptr × UInt32) ∈ [(0x1020, 4), (0x100C, 8)] := by decide
  have hrun := (Run.nil.snoc hfirst).snoc hsecond
  exact ⟨_, hrun.snoc (.store _ hlive (by decide) (by decide)), rfl⟩

/-- The two allocations and the headers of the heap share no byte. -/
theorem kmalloc_heap_integrity_two : ∃ st bs,
    Run HeapStep ⟨kmallocInit (fun _ => 0) 0x1000 64, []⟩
        [.malloc 8, .malloc 4, .store 0x1013 0xFF] st ∧
      st.live = [(0x1020, 4), (0x100C, 8)] ∧
      st.live.Pairwise (fun e e' => e.1.toNat + e.2.toNat ≤ e'.1.toNat ∨
        e'.1.toNat + e'.2.toNat ≤ e.1.toNat) ∧
      BlockList st.heap.mem st.heap.heapStart bs ∧
      ∀ b ∈ bs, ∀ e ∈ st.live, b.addr.toNat + 12 ≤ e.1.toNat ∨
        e.1.toNat + e.2.toNat ≤ b.addr.toNat := by
  obtain ⟨st, hrun, hlive⟩ := exists_malloc_store
  obtain ⟨hpairs, -, bs, hlist, hclear, -⟩ :=
    kmalloc_heap_integrity (by decide) (by decide) (by decide) hrun
  exact ⟨st, bs, hrun, hlive, hpairs, hlist, hclear⟩

end OsKernel
