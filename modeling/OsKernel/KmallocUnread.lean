import OsKernel.FirstFitGaps
import OsKernel.KmallocCanonical
import OsKernel.SelfTest

/-! # What the allocator does not read (`kmalloc.c`)

The loops of `kmalloc` and `kfree` read the flag and the link of every block, but the size of
free blocks only: a block in use keeps its size for the day it is freed.  Two memories that
agree on what is read are the same to the allocator, and stay so: it hands out the same
pointers.
-/
namespace OsKernel

/-- The bytes of a header that are read: flag, link, and the size unless it is hidden. -/
def headerBytes (hidden : Set Nat) (a : Nat) : Set Nat :=
  {x | x = a + 4 ∨ (a + 8 ≤ x ∧ x < a + 12) ∨ (a ∉ hidden ∧ a ≤ x ∧ x < a + 4)}

/-- The bytes of all headers that are read. -/
def listBytes (hidden : Set Nat) (a : Nat) (cs : List Chunk) : Set Nat :=
  {x | ∃ b ∈ headersFrom 12 a cs, x ∈ headerBytes hidden b}

variable {m m' m₁ : Memory} {hidden S : Set Nat} {stop a b size next : Nat} {k : UInt32}
  {isFree : Bool} {c : Chunk} {cs cs' : List Chunk}

/-! ## Fields -/

section Fields
variable (hsame : Set.EqOn m m' S)
include hsame

theorem HeaderAt.eqOn (h : HeaderAt m a size isFree next) (hsub : headerBytes hidden a ⊆ S)
    (ha : a ∉ hidden) : HeaderAt m' a size isFree next where
  size := by
    rw [← h.size]
    exact (Memory.load_eqOn hsame fun x hx => hsub (Or.inr (Or.inr ⟨ha, hx.1, hx.2⟩))).symm
  isFree := by
    rw [← h.isFree]
    refine (Memory.load_eqOn hsame fun x hx => hsub (Or.inl ?_)).symm
    have hx1 := hx.1
    have hx2 := hx.2
    omega
  next := by
    rw [← h.next]
    exact (Memory.load_eqOn hsame fun x hx => hsub (Or.inr (Or.inl ⟨hx.1, hx.2⟩))).symm

variable (ha : a < 2 ^ 32) (hsub : headerBytes hidden a ⊆ S)
include ha hsub

theorem blockIsFree_eqOn : blockIsFree m (UInt32.ofNat a) = blockIsFree m' (UInt32.ofNat a) := by
  rw [blockIsFree, blockIsFree, toNat_ptr ha]
  congr 1
  refine Memory.load_eqOn hsame fun x hx => hsub (Or.inl ?_)
  have hx1 := hx.1
  have hx2 := hx.2
  omega

theorem blockNext_eqOn : blockNext m (UInt32.ofNat a) = blockNext m' (UInt32.ofNat a) := by
  rw [blockNext, blockNext, toNat_ptr ha]
  congr 1
  exact Memory.load_eqOn hsame fun x hx => hsub (Or.inr (Or.inl ⟨hx.1, hx.2⟩))

theorem blockSize_eqOn (hhidden : a ∉ hidden) :
    blockSize m (UInt32.ofNat a) = blockSize m' (UInt32.ofNat a) := by
  rw [blockSize, blockSize, toNat_ptr ha]
  congr 1
  exact Memory.load_eqOn hsame fun x hx => hsub (Or.inr (Or.inr ⟨hhidden, hx.1, hx.2⟩))

end Fields

theorem listBytes_head : headerBytes hidden a ⊆ listBytes hidden a (c :: cs) :=
  fun _ hx => ⟨a, List.mem_cons_self, hx⟩

theorem listBytes_tail :
    listBytes hidden (a + 12 + c.size) cs ⊆ listBytes hidden a (c :: cs) := by
  rintro x ⟨b, hb, hx⟩
  exact ⟨b, List.mem_cons_of_mem a hb, hx⟩

/-! ## The loop of `kmalloc` -/

/-- Taking a free block writes the same to both memories, all of a new header included. -/
theorem take_eqOn (hc : HeaderAt m a size true next) (hstop : a + 12 + size < 2 ^ 32)
    (hsame : Set.EqOn m m' S) (hsub : headerBytes hidden a ⊆ S) (ha : a ∉ hidden)
    (hfit : k.toNat ≤ size) :
    Set.EqOn (setIsFree (splitBlock m (UInt32.ofNat a) k) (UInt32.ofNat a) 0)
      (setIsFree (splitBlock m' (UInt32.ofNat a) k) (UInt32.ofNat a) 0)
      (S ∪ if k.toNat + 12 < size then headerBytes ∅ (a + 12 + k.toNat) else ∅) := by
  have hc' : HeaderAt m' a size true next := hc.eqOn hsame hsub ha
  by_cases hsplit : k.toNat + 12 < size
  · rw [take_split_mem hc hstop hsplit, take_split_mem hc' hstop hsplit, if_pos hsplit]
    have h₁ := Memory.eqOn_store hsame (a + 12 + k.toNat) 4 (size - k.toNat - 12)
    have h₂ := Memory.eqOn_store h₁ (a + 12 + k.toNat + 4) 1 1
    have h₃ := Memory.eqOn_store h₂ (a + 12 + k.toNat + 8) 4 next
    refine Memory.eqOn_store_self (Memory.eqOn_store_self (Memory.eqOn_store_self
      (h₃.mono ?_) _ _ _) _ _ _) _ _ _
    rintro x (hx | rfl | hx | hx)
    · exact Or.inl (Or.inl (Or.inl hx))
    · exact Or.inl (Or.inr ⟨Nat.le_refl _, Nat.lt_succ_self _⟩)
    · exact Or.inr ⟨hx.1, by omega⟩
    · exact Or.inl (Or.inl (Or.inr ⟨hx.2.1, hx.2.2⟩))
  · have hno : ¬ blockSize m (UInt32.ofNat a) > k + headerSize :=
      mt (splits_iff hc hstop hfit).mp hsplit
    have hno' : ¬ blockSize m' (UInt32.ofNat a) > k + headerSize :=
      mt (splits_iff hc' hstop hfit).mp hsplit
    rw [splitBlock, splitBlock, if_neg hno, if_neg hno', if_neg hsplit, Set.union_empty]
    exact Memory.eqOn_store_self hsame _ _ _

/-- The chunks after a request read nothing new but the header of a block split off. -/
theorem listBytes_place_head (hfit : c.isFree ∧ k.toNat ≤ c.size) {o : Nat}
    (hplace : place 12 k.toNat (c :: cs) = some (o, cs')) :
    listBytes hidden a cs' ⊆ listBytes hidden a (c :: cs) ∪
      if k.toNat + 12 < c.size then headerBytes ∅ (a + 12 + k.toNat) else ∅ := by
  obtain ⟨-, d, hd, hiff⟩ := place_headers hplace a
  obtain rfl : c = d := Option.some.inj ((fitting_pos hfit).symm.trans hd)
  have ho : o = 0 := by
    rw [place, dif_pos hfit] at hplace
    exact (Prod.mk.inj (Option.some.inj hplace)).1.symm
  rintro x ⟨b, hb, hx⟩
  rcases (hiff b).mp hb with hb | ⟨hsplit, rfl⟩
  · exact Or.inl ⟨b, hb, hx⟩
  · refine Or.inr ?_
    rw [if_pos hsplit]
    rw [ho, Nat.add_zero] at hx
    rcases hx with hx | hx | hx
    · exact Or.inl hx
    · exact Or.inr (Or.inl hx)
    · exact Or.inr (Or.inr ⟨Set.notMem_empty _, hx.2⟩)

/-- **The loop of `kmalloc` on two memories that agree on what it reads.** -/
theorem kmalloc_eqOn (hstop : stop < 2 ^ 32) (ha : 0 < a) (hl : Laid m stop a cs)
    (hsame : Set.EqOn m m' S) (hsub : listBytes hidden a cs ⊆ S)
    (hknown : ∀ f ∈ freeFrom 12 a cs, f.1 ∉ hidden) (k : UInt32) :
    ∃ r r', Returns (kmallocTurn m k) (UInt32.ofNat (linkTo stop a)) r ∧
      Returns (kmallocTurn m' k) (UInt32.ofNat (linkTo stop a)) r' ∧ r.1 = r'.1 ∧
      Set.EqOn r.2 r'.2 S ∧ ∀ o cs', place 12 k.toNat cs = some (o, cs') →
        Set.EqOn r.2 r'.2 (listBytes hidden a cs') := by
  induction cs generalizing a with
  | nil =>
    rw [linkTo, if_pos (show a = stop from hl)]
    exact ⟨(0, m), (0, m'), .of_done rfl, .of_done rfl, rfl, hsame, fun o cs' h => by cases h⟩
  | cons c cs ih =>
    have halt := hl.addr_lt hstop
    have hend := hl.stop_eq
    rw [span_cons] at hend
    have hhead : headerBytes hidden a ⊆ S := listBytes_head.trans hsub
    have hflag := blockIsFree_eqOn hsame halt hhead
    rw [hl.linkTo_cons]
    by_cases hfit : c.isFree ∧ k.toNat ≤ c.size
    · have hshown : a ∉ hidden := hknown (a, c.size) (by rw [freeFrom_free hfit.1]; simp)
      have hsize := blockSize_eqOn hsame halt hhead hshown
      have hfits := (fits_iff hstop hl).mpr hfit
      have hc := hl.1
      rw [hfit.1] at hc
      have htake := take_eqOn hc (by omega) hsame hhead hshown hfit.2
      have hturn : kmallocTurn m k (UInt32.ofNat a) = .inr (UInt32.ofNat a + headerSize,
          setIsFree (splitBlock m (UInt32.ofNat a) k) (UInt32.ofNat a) 0) := by
        rw [kmallocTurn, if_neg (ptr_ne_zero ha halt), if_pos hfits]
      have hturn' : kmallocTurn m' k (UInt32.ofNat a) = .inr (UInt32.ofNat a + headerSize,
          setIsFree (splitBlock m' (UInt32.ofNat a) k) (UInt32.ofNat a) 0) := by
        rw [kmallocTurn, if_neg (ptr_ne_zero ha halt), ← hflag, ← hsize, if_pos hfits]
      refine ⟨_, _, .of_done hturn, .of_done hturn', rfl, htake.mono Set.subset_union_left,
        fun o cs' hplace => htake.mono ?_⟩
      exact (listBytes_place_head hfit hplace).trans (Set.union_subset_union_left _ hsub)
    · have hturn := kmallocTurn_next hstop hl ha hfit
      have hturn' : kmallocTurn m' k (UInt32.ofNat a) =
          .inl (UInt32.ofNat (linkTo stop (a + 12 + c.size))) := by
        rw [kmallocTurn, if_neg (ptr_ne_zero ha halt), if_neg, ← blockNext_eqOn hsame halt hhead,
          blockNext_eq hl.1 halt]
        rintro ⟨hfree, hlarge⟩
        rw [← hflag] at hfree
        have hc : c.isFree = true := (blockIsFree_ne hl.1 halt).mp hfree
        have hshown : a ∉ hidden := hknown (a, c.size) (by rw [freeFrom_free hc]; simp)
        rw [← blockSize_eqOn hsame halt hhead hshown] at hlarge
        exact hfit ((fits_iff hstop hl).mp ⟨hfree, hlarge⟩)
      obtain ⟨r, r', hr, hr', hptr, hagree, hplaced⟩ := ih (by omega) hl.2
        (listBytes_tail.trans hsub) (fun f hf => hknown f (mem_freeFrom_tail hf))
      refine ⟨r, r', .of_turn hturn hr, .of_turn hturn' hr', hptr, hagree, fun o cs' hplace => ?_⟩
      rw [place, dif_neg hfit] at hplace
      obtain ⟨⟨o', cs''⟩, hrest, heq⟩ := Option.map_eq_some_iff.mp hplace
      obtain ⟨-, rfl⟩ := Prod.mk.inj heq
      rintro x ⟨b, hb, hx⟩
      rcases List.mem_cons.mp hb with rfl | hb
      · exact hagree (hhead hx)
      · exact hplaced o' cs'' hrest ⟨b, hb, hx⟩

/-! ## The loop of `kfree` -/

/-- The loop of `kfree` is at the same block of two memories, the first of which holds a list of
blocks; they agree on what is read of it. -/
def SameJoined (hidden S : Set Nat) (stop : Nat) (t t' : Ptr × Memory) : Prop :=
  t.1 = t'.1 ∧ Set.EqOn t.2 t'.2 S ∧ ∃ a cs, 0 < a ∧ cs ≠ [] ∧ t.1 = UInt32.ofNat a ∧
    Laid t.2 stop a cs ∧ listBytes hidden a cs ⊆ S ∧ ∀ f ∈ freeFrom 12 a cs, f.1 ∉ hidden

theorem kfreeTurn_eqOn (hstop : stop < 2 ^ 32) (t t' : Ptr × Memory)
    (h : SameJoined hidden S stop t t') :
    Sum.LiftRel (SameJoined hidden S stop) (fun m m' => Set.EqOn m m' S) (kfreeTurn t)
      (kfreeTurn t') := by
  obtain ⟨current, m⟩ := t
  obtain ⟨current', m'⟩ := t'
  obtain ⟨rfl, hsame, a, cs, ha, hne, rfl, hl, hsub, hknown⟩ := h
  dsimp only at hsame hl
  match cs, hl with
  | [], _ => exact absurd rfl hne
  | [c], hl =>
    have halt := hl.addr_lt hstop
    obtain ⟨hnext, hturn⟩ := kfreeTurn_last hl hstop
    have hnext' : blockNext m' (UInt32.ofNat a) = 0 := by
      rw [← blockNext_eqOn hsame halt (listBytes_head.trans hsub), hnext]
    rw [hturn, kfreeTurn, if_neg fun h => h.2 hnext']
    exact .inr hsame
  | c :: d :: cs, hl =>
    have halt := hl.addr_lt hstop
    have hblt := hl.2.addr_lt hstop
    have hend := hl.stop_eq
    rw [span_cons, span_cons] at hend
    have hlink : linkTo stop (a + 12 + c.size) = a + 12 + c.size := by
      rw [linkTo, if_neg (by omega)]
    have hhead : headerBytes hidden a ⊆ S := listBytes_head.trans hsub
    have hhead' : headerBytes hidden (a + 12 + c.size) ⊆ S :=
      listBytes_head.trans (listBytes_tail.trans hsub)
    rw [kfreeTurn_laid hl hstop ha]
    by_cases hfree : c.isFree = true ∧ d.isFree = true
    · have hshown : a ∉ hidden := hknown (a, c.size) (by rw [freeFrom_free hfree.1]; simp)
      have hshown' : a + 12 + c.size ∉ hidden := hknown (a + 12 + c.size, d.size)
        (mem_freeFrom_tail (by rw [freeFrom_free hfree.2]; simp))
      have hc := hl.1.eqOn hsame hhead hshown
      have hd := hl.2.1.eqOn hsame hhead' hshown'
      rw [hfree.1, hlink] at hc
      rw [hfree.2] at hd
      rw [if_pos hfree, kfreeTurn_join ha (by omega) hc hd]
      obtain ⟨hl', -⟩ := merge_header hl hstop hfree.1
      have hsum : a + 12 + (Chunk.avail (c.size + (12 + d.size))).size =
          a + 12 + c.size + 12 + d.size := by
        simp only [Chunk.avail]
        omega
      refine .inl ⟨rfl, Memory.eqOn_store_self (Memory.eqOn_store_self hsame _ _ _) _ _ _, a, _,
        ha, List.cons_ne_nil _ _, rfl, hl', ?_, fun f hf => ?_⟩
      · rintro x ⟨b, hb, hx⟩
        rcases List.mem_cons.mp hb with rfl | hb
        · exact hhead hx
        · rw [hsum] at hb
          exact hsub ⟨b, List.mem_cons_of_mem _ (List.mem_cons_of_mem _ hb), hx⟩
      · rcases mem_freeFrom_cons hf with ⟨-, rfl⟩ | hf
        · exact hshown
        · rw [hsum] at hf
          exact hknown f (mem_freeFrom_tail (mem_freeFrom_tail hf))
    · have hnext : blockNext m (UInt32.ofNat a) = UInt32.ofNat (a + 12 + c.size) := by
        rw [blockNext_eq hl.1 halt, hlink]
      have hflags : ¬ (blockIsFree m' (UInt32.ofNat a) ≠ 0 ∧
          blockIsFree m' (UInt32.ofNat (a + 12 + c.size)) ≠ 0) := by
        rw [← blockIsFree_eqOn hsame halt hhead, ← blockIsFree_eqOn hsame hblt hhead',
          blockIsFree_ne hl.1 halt, blockIsFree_ne hl.2.1 hblt]
        exact hfree
      have hcond : UInt32.ofNat a ≠ 0 ∧ UInt32.ofNat (a + 12 + c.size) ≠ 0 :=
        ⟨ptr_ne_zero ha halt, ptr_ne_zero (by omega) hblt⟩
      rw [if_neg hfree, kfreeTurn, ← blockNext_eqOn hsame halt hhead, hnext, if_pos hcond,
        if_neg hflags]
      exact .inl ⟨rfl, hsame, _, d :: cs, by omega, List.cons_ne_nil _ _, rfl, hl.2,
        listBytes_tail.trans hsub, fun f hf => hknown f (mem_freeFrom_tail hf)⟩

/-- The chunks free after one was freed. -/
theorem mem_freeFrom_release {e : Nat × Nat} {f : Nat × Nat} (he : e ∈ liveFrom 12 a cs)
    (hf : f ∈ freeFrom 12 a (release 12 (e.1 - 12 - a) cs)) :
    f ∈ freeFrom 12 a cs ∨ f.1 = e.1 - 12 := by
  obtain ⟨pre, c, post, rfl, -, heq, hrel⟩ := release_live_chunk (show 0 < 12 by decide) he
  rw [hrel, freeFrom_append, List.mem_append] at hf
  rw [freeFrom_append, List.mem_append]
  rcases hf with hf | hf
  · exact Or.inl (Or.inl hf)
  · rcases mem_freeFrom_cons hf with ⟨-, rfl⟩ | hf
    · exact Or.inr (by dsimp only; omega)
    · exact Or.inl (Or.inr (mem_freeFrom_tail hf))

/-- The header of a free chunk is not that of a live request. -/
theorem not_free_of_live {f : Nat × Nat} {n : Nat} (hf : f ∈ freeFrom 12 a cs) :
    (f.1 + 12, n) ∉ liveFrom 12 a cs := by
  induction cs generalizing a with
  | nil => exact absurd hf List.not_mem_nil
  | cons c cs ih =>
    intro he
    rcases mem_freeFrom_cons hf with ⟨hc, rfl⟩ | hf
    · rw [liveFrom_none (Chunk.isFree_iff.mp hc)] at he
      have := (liveFrom_bounds he).1
      dsimp only at this
      omega
    · cases hreq : c.request with
      | none =>
        rw [liveFrom_none hreq] at he
        exact ih hf he
      | some k =>
        rw [liveFrom_some hreq] at he
        rcases List.mem_cons.mp he with heq | he
        · have hstart := (Prod.mk.inj heq).1
          have := (freeFrom_bounds hf).1
          omega
        · exact ih hf he

/-! ## Calls -/

/-- The headers of the blocks that pointers point behind. -/
def headersOf (U : Set Ptr) : Set Nat := {a | ∃ p ∈ U, p.toNat = a + 12}

/-- Two heaps with the same live allocations, in memories that agree on `S` and on what the
allocator reads, where it need not know the sizes of the live blocks `U`. -/
structure Alike (start stop : Nat) (U : Set Ptr) (S : Set Nat) (st t : HeapState) : Prop where
  heapStart : t.heap.heapStart = st.heap.heapStart
  live : t.live = st.live
  hidden : ∀ p ∈ U, ∃ n, (p, n) ∈ st.live
  agree : ∃ cs, HeapValid start stop st cs ∧
    Set.EqOn st.heap.mem t.heap.mem (S ∪ listBytes (headersOf U) start cs)

variable {start : Nat} {st st' t : HeapState} {U : Set Ptr} {op : HeapOp}

/-- Blocks of live pointers are not free. -/
theorem HeapValid.notMem_headersOf (h : HeapValid start stop st cs)
    (hU : ∀ p ∈ U, ∃ n, (p, n) ∈ st.live) : ∀ f ∈ freeFrom 12 start cs, f.1 ∉ headersOf U := by
  rintro f hf ⟨p, hp, heq⟩
  obtain ⟨n, hn⟩ := hU p hp
  have hlive := h.mem_live hn
  rw [extent, heq] at hlive
  exact not_free_of_live hf hlive

section Calls
variable (hstart : 0 < start) (hstop : stop < 2 ^ 32)
include hstart hstop

/-- `kfree` of a live pointer whose block has a known size. -/
theorem kfree_eqOn {e : Ptr × UInt32} {m' : Memory} {m₁ : Memory} (h : HeapValid start stop st cs)
    (he : e ∈ st.live) (hsame : Set.EqOn st.heap.mem m' S)
    (hsub : listBytes hidden start cs ⊆ S) (hknown : ∀ f ∈ freeFrom 12 start cs, f.1 ∉ hidden)
    (hshown : e.1.toNat - 12 ∉ hidden) (hret : KfreeReturns st.heap e.1 m₁) :
    ∃ m₁', KfreeReturns ⟨st.heap.heapStart, m'⟩ e.1 m₁' ∧ Set.EqOn m₁ m₁' S := by
  have hmem := h.mem_live he
  have hbound := h.bounds he
  have hne : e.1 ≠ 0 := h.live_ne_zero he
  rw [KfreeReturns, if_neg hne, h.heapStart, setIsFree, toNat_sub_headerSize (by omega)] at hret
  have hjoined : SameJoined hidden S stop
      (UInt32.ofNat start, st.heap.mem.store (e.1.toNat - 12 + 4) 1 1)
      (UInt32.ofNat start, m'.store (e.1.toNat - 12 + 4) 1 1) := by
    refine ⟨rfl, Memory.eqOn_store_self hsame _ _ _, start, _, hstart,
      release_ne_nil h.nonempty, rfl, (free_laid h.laid hmem).1, ?_, fun f hf => ?_⟩
    · rintro x ⟨b, hb, hx⟩
      rw [headersFrom_release] at hb
      exact hsub ⟨b, hb, hx⟩
    · rcases mem_freeFrom_release hmem hf with hf | hf
      · exact hknown f hf
      · rw [hf]
        exact hshown
  obtain ⟨m₁', hr, hagree⟩ := hret.lockstep (kfreeTurn_eqOn hstop) hjoined
  refine ⟨m₁', ?_, hagree⟩
  rw [KfreeReturns, if_neg hne, h.heapStart, setIsFree, toNat_sub_headerSize (by omega)]
  exact hr

/-- **One call on two heaps that are alike** has the same result, and leaves them alike, unless it
frees a block whose size is not known. -/
theorem Alike.step (ha : Alike start stop U S st t) (hstep : HeapStep st op st')
    (hop : ∀ p ∈ U, op ≠ .free p) :
    ∃ t', HeapStep t op t' ∧ Alike start stop U S st' t' := by
  obtain ⟨⟨heapStart, m'⟩, live⟩ := t
  obtain ⟨rfl, rfl, hU, cs, h, hsame⟩ := ha
  dsimp only at hsame
  have hknown := h.notMem_headersOf hU
  have hsub : listBytes (headersOf U) start cs ⊆ S ∪ listBytes (headersOf U) start cs :=
    Set.subset_union_right
  cases hstep with
  | @malloc n ptr mem hret =>
    obtain ⟨r, ⟨ptr', mem'⟩, hr, hr', hptr, hagree, hplaced⟩ :=
      kmalloc_eqOn hstop hstart h.laid hsame hsub hknown n
    rw [← h.start_link] at hr hr'
    obtain rfl := hret.unique hr
    obtain rfl : ptr = ptr' := hptr
    have hstep' : HeapStep ⟨⟨st.heap.heapStart, m'⟩, st.live⟩ (.malloc n) _ := .malloc _ hr'
    refine ⟨_, hstep', rfl, rfl, fun p hp => ?_, ?_⟩
    · obtain ⟨k, hk⟩ := hU p hp
      refine ⟨k, ?_⟩
      dsimp only
      split
      · exact hk
      · exact List.mem_cons_of_mem _ hk
    · rcases kmalloc_cases hstart hstop h hret with
        ⟨rfl, rfl, -⟩ | ⟨o, cs', hplace, -, hne, hvalid, -⟩
      · exact ⟨cs, ⟨h.heapStart, h.laid, h.nonempty, h.settled, h.live⟩, hagree⟩
      · refine ⟨cs', ?_, ?_⟩
        · rw [if_neg hne]
          exact hvalid
        · exact (hagree.mono Set.subset_union_left).union (hplaced o cs' hplace)
  | @free ptr n mem hlive hret =>
    have hshown : (ptr, n).1.toNat - 12 ∉ headersOf U := by
      rintro ⟨p, hp, heq⟩
      have hbound := h.bounds hlive
      refine hop p hp (congrArg HeapOp.free (UInt32.toNat_inj.mp ?_))
      dsimp only at heq hbound
      omega
    obtain ⟨mem', hret', hagree⟩ := kfree_eqOn hstart hstop h hlive hsame hsub hknown hshown hret
    have hstep' : HeapStep ⟨⟨st.heap.heapStart, m'⟩, st.live⟩ (.free ptr) _ := .free _ hlive hret'
    refine ⟨_, hstep', rfl, rfl, fun p hp => ?_, _, (kfree_done hstart hstop h hlive hret).1,
      hagree.mono (Set.union_subset_union_right _ ?_)⟩
    · obtain ⟨k, hk⟩ := hU p hp
      refine ⟨k, (List.mem_erase_of_ne ?_).mpr hk⟩
      rintro heq
      exact hop p hp (congrArg HeapOp.free (Prod.mk.inj heq).1.symm)
    · rintro x ⟨b, hb, hx⟩
      have hb' := headersFrom_coalesce hb
      rw [headersFrom_release] at hb'
      exact ⟨b, hb', hx⟩
  | @freeNull mem hret =>
    obtain rfl : mem = st.heap.mem := hret
    exact ⟨_, .freeNull _ rfl, rfl, rfl, hU, cs,
      ⟨h.heapStart, h.laid, h.nonempty, h.settled, h.live⟩, hsame⟩
  | @store ptr n addr byte hlive hlo hhi =>
    have hstep' : HeapStep ⟨⟨st.heap.heapStart, m'⟩, st.live⟩ (.store addr byte) _ :=
      .store _ hlive hlo hhi
    obtain ⟨cs', hvalid, hcs, -⟩ :=
      heapStep_valid hstart hstop h (@HeapStep.store st ptr n addr byte hlive hlo hhi)
    obtain rfl := hcs rfl
    refine ⟨_, hstep', rfl, rfl, hU, cs', hvalid, fun x hx => ?_⟩
    dsimp only
    by_cases hxa : x = addr
    · rw [hxa, Function.update_self, Function.update_self]
    · rw [Function.update_of_ne hxa, Function.update_of_ne hxa]
      exact hsame hx

/-- **Runs of two heaps that are alike.** -/
theorem Alike.run {calls : List HeapOp} (ha : Alike start stop U S st t)
    (hcalls : ∀ p ∈ U, .free p ∉ calls) (hrun : Run HeapStep st calls st') :
    ∃ t', Run HeapStep t calls t' ∧ Alike start stop U S st' t' := by
  refine hrun.simulation (Alike start stop U S) ha fun s op u t hop hs hstep => ?_
  refine hs.step hstart hstop hstep fun p hp heq => ?_
  rw [heq] at hop
  exact hcalls p hp hop

end Calls

/-! ## Damaged heaps -/

/-- The block list has an entry for each header, with its fields. -/
theorem Laid.header_mem {m : Memory} (hstop : stop < 2 ^ 32) (ha : 0 < a) (hl : Laid m stop a cs)
    (hb : b ∈ headersFrom 12 a cs) :
    ⟨UInt32.ofNat b, blockSize m (UInt32.ofNat b), blockIsFree m (UInt32.ofNat b),
      blockNext m (UInt32.ofNat b)⟩ ∈ blocksFrom stop a cs := by
  induction cs generalizing a with
  | nil => exact absurd hb List.not_mem_nil
  | cons c cs ih =>
    rcases List.mem_cons.mp hb with rfl | hb
    · have hlist := hl.blockList hstop ha
      rw [hl.linkTo_cons, blocksFrom] at hlist
      rw [blocksFrom, (blockList_cons hlist).1]
      exact List.mem_cons_self
    · exact List.mem_cons_of_mem _ (ih (by omega) hl.2 hb)

theorem load_eq_of_word {m m' : Memory}
    (h : UInt32.ofNat (m'.load a 4) = UInt32.ofNat (m.load a 4)) : m.load a 4 = m'.load a 4 := by
  have hnat := congrArg UInt32.toNat h
  rw [toNat_ptr (m'.load_lt a 4), toNat_ptr (m.load_lt a 4)] at hnat
  exact hnat.symm

/-- Headers with the same fields have the same bytes. -/
theorem eqOn_headerBytes {m m' : Memory} (hb : b < 2 ^ 32)
    (hflag : blockIsFree m' (UInt32.ofNat b) = blockIsFree m (UInt32.ofNat b))
    (hnext : blockNext m' (UInt32.ofNat b) = blockNext m (UInt32.ofNat b))
    (hsize : b ∉ hidden → blockSize m' (UInt32.ofNat b) = blockSize m (UInt32.ofNat b)) :
    Set.EqOn m m' (headerBytes hidden b) := by
  rw [blockIsFree, blockIsFree, toNat_ptr hb] at hflag
  rw [blockNext, blockNext, toNat_ptr hb] at hnext
  rintro x (rfl | hx | ⟨hshown, hx⟩)
  · have hload : m.load (b + 4) 1 = m'.load (b + 4) 1 := by
      have hnat := congrArg UInt8.toNat hflag
      rw [UInt8.toNat_ofNat_of_lt' (m'.load_lt (b + 4) 1),
        UInt8.toNat_ofNat_of_lt' (m.load_lt (b + 4) 1)] at hnat
      exact hnat.symm
    exact Memory.byte_eq_of_load_eq hload (Nat.le_refl _) (Nat.lt_succ_self _)
  · exact Memory.byte_eq_of_load_eq (load_eq_of_word hnext) hx.1 (by omega)
  · have hload := hsize hshown
    rw [blockSize, blockSize, toNat_ptr hb] at hload
    exact Memory.byte_eq_of_load_eq (load_eq_of_word hload) hx.1 hx.2

/-- **The sizes of live blocks are not read.**  From any reachable heap, and from the same heap
in a memory where only the flags, the links and the sizes of blocks other than `U` need be
right, the same calls that free no block of `U` have the same results; and where the memories
agreed, they still do. -/
theorem live_sizes_unread {start size : UInt32} {mem damaged : Memory} {ops calls : List HeapOp}
    {st st' : HeapState} (hstart : 0 < start) (hsize : 12 ≤ size.toNat)
    (hfit : start.toNat + size.toNat < 2 ^ 32)
    (hrun : Run HeapStep ⟨kmallocInit mem start size, []⟩ ops st) {U : Set Ptr}
    (hU : ∀ p ∈ U, ∃ n, (p, n) ∈ st.live)
    {bs : List BlockHeader} (hbs : BlockList st.heap.mem st.heap.heapStart bs)
    (hdamaged : ∀ b ∈ bs, blockIsFree damaged b.addr = b.isFree ∧
      blockNext damaged b.addr = b.next ∧
      (b.addr + headerSize ∉ U → blockSize damaged b.addr = b.size))
    (hcalls : ∀ p ∈ U, .free p ∉ calls) (hlater : Run HeapStep st calls st') :
    ∃ mem', Run HeapStep ⟨⟨st.heap.heapStart, damaged⟩, st.live⟩ calls
        ⟨⟨st'.heap.heapStart, mem'⟩, st'.live⟩ ∧
      ∀ x, st.heap.mem x = damaged x → st'.heap.mem x = mem' x := by
  have hpos : 0 < start.toNat := UInt32.lt_iff_toNat_lt.mp hstart
  obtain ⟨cs, h⟩ := run_heapValid hstart hsize hfit hrun
  have hend := h.laid.stop_eq
  obtain rfl := hbs.unique (h.blockList hpos hfit)
  have halike : Alike start.toNat (start.toNat + size.toNat) U
      {x | st.heap.mem x = damaged x} st ⟨⟨st.heap.heapStart, damaged⟩, st.live⟩ := by
    refine ⟨rfl, rfl, hU, cs, h, Set.EqOn.union (fun x hx => hx) ?_⟩
    rintro x ⟨b, hb, hx⟩
    have hbound := headersFrom_bounds hb
    obtain ⟨hflag, hnext, hsame⟩ := hdamaged _ (h.laid.header_mem hfit hpos hb)
    refine eqOn_headerBytes (by omega) hflag hnext (fun hshown => hsame fun hp => hshown ?_) hx
    refine ⟨_, hp, ?_⟩
    rw [UInt32.toNat_add, toNat_ptr (by omega), toNat_headerSize]
    omega
  obtain ⟨⟨⟨heapStart, mem'⟩, live⟩, hrun', hstart', hlive', -, cs', -, hagree⟩ :=
    halike.run hpos hfit hcalls hlater
  obtain rfl : heapStart = st'.heap.heapStart := hstart'
  obtain rfl : live = st'.live := hlive'
  exact ⟨mem', hrun', fun x hx => hagree (Or.inl hx)⟩

/-- The entries of a block list are the fields in memory. -/
theorem BlockList.fields {m : Memory} {p : Ptr} {bs : List BlockHeader} {b : BlockHeader}
    (h : BlockList m p bs) (hb : b ∈ bs) :
    b = ⟨b.addr, blockSize m b.addr, blockIsFree m b.addr, blockNext m b.addr⟩ := by
  induction h with
  | null => exact absurd hb List.not_mem_nil
  | block _ _ ih =>
    rcases List.mem_cons.mp hb with rfl | hb
    · rfl
    · exact ih hb

/-- The block of one of two allocations is said to have 4294967295 bytes: the other one is
freed, and its memory handed out again, as before. -/
theorem live_sizes_unread_two : ∃ st st' mem',
    Run HeapStep ⟨kmallocInit (fun _ => 0) 0x1000 64, []⟩
        [.malloc 8, .malloc 4, .store 0x1013 0xFF] st ∧
      Run HeapStep st [.free 0x1020, .malloc 4] st' ∧
      Run HeapStep ⟨⟨st.heap.heapStart, setSize st.heap.mem 0x1000 0xFFFFFFFF⟩, st.live⟩
        [.free 0x1020, .malloc 4] ⟨⟨st'.heap.heapStart, mem'⟩, st'.live⟩ := by
  obtain ⟨st, hrun, hlive⟩ := exists_malloc_store
  obtain ⟨cs, h⟩ := run_heapValid (by decide) (by decide) (by decide) hrun
  have hend : 0x1000 + span 12 cs = 0x1040 := h.laid.stop_eq.symm
  have hlist := h.blockList (by decide) (by decide)
  have hsecond : ((0x1020, 4) : Ptr × UInt32) ∈ st.live := by
    rw [hlive]
    exact List.mem_cons_self
  obtain ⟨m₁, cs₁, hfreed, h₁, -⟩ := kfree_valid (by decide) (by decide) h hsecond
  obtain ⟨ptr, m₂, -, hret, -⟩ := kmalloc_valid (by decide) (by decide) h₁ 4
  have hlater := (Run.nil.snoc (HeapStep.free st hsecond hfreed)).snoc (.malloc _ hret)
  have hU : ∀ p ∈ ({0x100C} : Set Ptr), ∃ n, (p, n) ∈ st.live := by
    rintro p rfl
    exact ⟨8, by rw [hlive]; decide⟩
  -- only the size of the first block is written over
  have hdamaged : ∀ b ∈ blocksFrom 0x1040 0x1000 cs,
      blockIsFree (setSize st.heap.mem 0x1000 0xFFFFFFFF) b.addr = b.isFree ∧
      blockNext (setSize st.heap.mem 0x1000 0xFFFFFFFF) b.addr = b.next ∧
      (b.addr + headerSize ∉ ({0x100C} : Set Ptr) →
        blockSize (setSize st.heap.mem 0x1000 0xFFFFFFFF) b.addr = b.size) := by
    intro b hb
    have haddr := mem_blocksFrom hb (show 0x1000 + span 12 cs < 2 ^ 32 by omega)
    have hge : 0x1000 ≤ b.addr.toNat := (headersFrom_bounds haddr).1
    have hstart : (0x1000 : Ptr).toNat = 0x1000 := rfl
    have hfields := hlist.fields hb
    refine ⟨?_, ?_, fun hother => ?_⟩
    · rw [congrArg BlockHeader.isFree hfields, blockIsFree, setSize, hstart,
        Memory.load_store_disjoint (by omega), blockIsFree]
    · rw [congrArg BlockHeader.next hfields, blockNext, setSize, hstart,
        Memory.load_store_disjoint (by omega), blockNext]
    · have hne : b.addr.toNat ≠ 0x1000 := by
        intro heq
        exact hother (by rw [show b.addr = 0x1000 from UInt32.toNat_inj.mp heq]; rfl)
      have hbehind : 0x1000 + 12 ≤ b.addr.toNat := by
        cases hcs : cs with
        | nil => exact absurd hcs h.nonempty
        | cons c cs =>
          rw [hcs] at haddr
          rcases List.mem_cons.mp haddr with heq | hmem
          · exact absurd heq hne
          · exact (Nat.le_add_right _ _).trans (headersFrom_bounds hmem).1
      rw [congrArg BlockHeader.size hfields, blockSize, setSize, hstart,
        Memory.load_store_disjoint (by omega), blockSize]
  obtain ⟨mem', hrun', -⟩ := live_sizes_unread (by decide) (by decide) (by decide) hrun hU hlist
    hdamaged (by simp) hlater
  exact ⟨st, _, mem', hrun, hlater, hrun'⟩

end OsKernel
