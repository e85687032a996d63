import OsKernel.KmallocHeap
import OsKernel.WordExpr

/-! # The arithmetic of the heap does not wrap

Sizes and addresses of `kmalloc.c` are 32-bit words, and the sums and differences it
forms are unchecked.  `kmalloc` adds a header to a size that its caller chose, but only
once a block that large has been found; every block lies inside the heap, and the heap
ends below `2 ^ 32`.  So each expression has its integer value wherever it is evaluated,
in every turn of both loops.
-/
namespace OsKernel
open WordExpr

/-! ## The expressions -/

/-- `size - sizeof(block_header_t)` in `kmalloc_init` -/
def initSizeExpr (size : UInt32) : WordExpr := .sub (.word size) (.word headerSize)

/-- `size + sizeof(block_header_t)` in the guard of the split -/
def splitGuardExpr (size : UInt32) : WordExpr := .add (.word size) (.word headerSize)

/-- `(uint8_t *)current + sizeof(block_header_t) + size`, the address of `new_block` -/
def newBlockExpr (current : Ptr) (size : UInt32) : WordExpr :=
  .add (.add (.word current) (.word headerSize)) (.word size)

/-- `current->size - size - sizeof(block_header_t)`, the size of `new_block` -/
def newSizeExpr (mem : Memory) (current : Ptr) (size : UInt32) : WordExpr :=
  .sub (.sub (.word (blockSize mem current)) (.word size)) (.word headerSize)

/-- `(uint8_t *)current + sizeof(block_header_t)`, the pointer returned -/
def resultExpr (current : Ptr) : WordExpr := .add (.word current) (.word headerSize)

/-- `(uint8_t *)ptr - sizeof(block_header_t)` in `kfree` -/
def blockExpr (ptr : Ptr) : WordExpr := .sub (.word ptr) (.word headerSize)

/-- `current->size += sizeof(block_header_t) + current->next->size` in `kfree` -/
def joinedSizeExpr (mem : Memory) (current : Ptr) : WordExpr :=
  .add (.word (blockSize mem current))
    (.add (.word headerSize) (.word (blockSize mem (blockNext mem current))))

/-- The expressions evaluated in one turn of the loop of `kmalloc`. -/
def kmallocTurnExprs (mem : Memory) (size : UInt32) (current : Ptr) : List WordExpr :=
  if current = 0 then []
  else if blockIsFree mem current ≠ 0 ∧ blockSize mem current ≥ size then
    if blockSize mem current > (splitGuardExpr size).value then
      [splitGuardExpr size, newBlockExpr current size, newSizeExpr mem current size,
        resultExpr current]
    else [splitGuardExpr size, resultExpr current]
  else []

/-- The expressions evaluated in one turn of the loop of `kfree`. -/
def kfreeTurnExprs : Ptr × Memory → List WordExpr
  | (current, mem) =>
    if current ≠ 0 ∧ blockNext mem current ≠ 0 then
      if blockIsFree mem current ≠ 0 ∧ blockIsFree mem (blockNext mem current) ≠ 0 then
        [joinedSizeExpr mem current]
      else []
    else []

/-! The allocator computes with the values of these expressions. -/

theorem kmallocInit_value (mem : Memory) (startAddr size : UInt32) :
    kmallocInit mem startAddr size =
      ⟨startAddr, setNext (setIsFree (setSize mem startAddr (initSizeExpr size).value)
        startAddr 1) startAddr 0⟩ := rfl

theorem splitBlock_value (mem : Memory) (current : Ptr) (size : UInt32) :
    splitBlock mem current size =
      if blockSize mem current > (splitGuardExpr size).value then
        let newBlock := (newBlockExpr current size).value
        let mem := setSize mem newBlock (newSizeExpr mem current size).value
        let mem := setIsFree mem newBlock 1
        let mem := setNext mem newBlock (blockNext mem current)
        let mem := setSize mem current size
        setNext mem current newBlock
      else mem := rfl

theorem kfreeTurn_value (current : Ptr) (mem : Memory) :
    kfreeTurn (current, mem) =
      if current ≠ 0 ∧ blockNext mem current ≠ 0 then
        if blockIsFree mem current ≠ 0 ∧ blockIsFree mem (blockNext mem current) ≠ 0 then
          let mem := setSize mem current (joinedSizeExpr mem current).value
          .inl (current, setNext mem current (blockNext mem (blockNext mem current)))
        else .inl (blockNext mem current, mem)
      else .inr mem := rfl

/-! ## The loop of `kmalloc` -/

/-- The loop of `kmalloc` is at a block of the list, or at its end. -/
def AtBlock (stop : Nat) (mem : Memory) (current : Ptr) : Prop :=
  ∃ a cs, 0 < a ∧ current = UInt32.ofNat (linkTo stop a) ∧ Laid mem stop a cs

variable {m : Memory} {stop a : Nat} {c : Chunk} {cs : List Chunk} {n : UInt32} {current : Ptr}

theorem AtBlock.turn (hstop : stop < 2 ^ 32) (h : AtBlock stop m current) {current' : Ptr}
    (hturn : kmallocTurn m n current = .inl current') : AtBlock stop m current' := by
  obtain ⟨a, cs, ha, rfl, hl⟩ := h
  cases cs with
  | nil =>
    rw [linkTo, if_pos (show a = stop from hl)] at hturn
    cases hturn
  | cons c cs =>
    rw [hl.linkTo_cons] at hturn
    by_cases hfit : c.isFree ∧ n.toNat ≤ c.size
    · obtain ⟨-, m', -, htake, -⟩ := kmallocTurn_take hstop hl ha hfit
      rw [htake] at hturn
      cases hturn
    · rw [kmallocTurn_next hstop hl ha hfit] at hturn
      exact ⟨_, cs, by omega, (Sum.inl.inj hturn).symm, hl.2⟩

section Block
variable (hstop : stop < 2 ^ 32) (hl : Laid m stop a (c :: cs))
include hstop hl

/-- A block ends inside the heap, so its end is an address. -/
theorem Laid.block_lt : a + 12 + c.size < 2 ^ 32 := by
  have hend := hl.stop_eq
  rw [span_cons] at hend
  omega

theorem resultExpr_noWrap : (resultExpr (UInt32.ofNat a)).NoWrap := by
  have hlt := hl.block_lt hstop
  refine (noWrap_word _).add (noWrap_word headerSize) ?_
  simp only [exact, toNat_ptr (hl.addr_lt hstop), toNat_headerSize]
  omega

/-- The caller's size is compared with that of a block before a header is added to it. -/
theorem splitGuardExpr_noWrap (hfit : n.toNat ≤ c.size) : (splitGuardExpr n).NoWrap := by
  have hlt := hl.block_lt hstop
  refine (noWrap_word n).add (noWrap_word headerSize) ?_
  simp only [exact, toNat_headerSize]
  omega

theorem newBlockExpr_noWrap (hfit : n.toNat ≤ c.size) :
    (newBlockExpr (UInt32.ofNat a) n).NoWrap := by
  have hlt := hl.block_lt hstop
  refine NoWrap.add (resultExpr_noWrap hstop hl) (noWrap_word n) ?_
  simp only [exact, toNat_ptr (hl.addr_lt hstop), toNat_headerSize]
  omega

theorem newSizeExpr_noWrap (hsplit : n.toNat + 12 < c.size) :
    (newSizeExpr m (UInt32.ofNat a) n).NoWrap := by
  have hsize := toNat_blockSize hl.1 (hl.addr_lt hstop)
  refine ((noWrap_word _).sub (noWrap_word n) ?_).sub (noWrap_word headerSize) ?_
  · simp only [exact, hsize]
    omega
  · simp only [exact, hsize, toNat_headerSize]
    omega

end Block

theorem AtBlock.noWrap (hstop : stop < 2 ^ 32) (h : AtBlock stop m current) :
    ∀ x ∈ kmallocTurnExprs m n current, x.NoWrap := by
  obtain ⟨a, cs, ha, rfl, hl⟩ := h
  cases cs with
  | nil =>
    rw [linkTo, if_pos (show a = stop from hl), kmallocTurnExprs,
      if_pos (show UInt32.ofNat 0 = 0 from rfl)]
    exact fun x hx => absurd hx List.not_mem_nil
  | cons c cs =>
    rw [hl.linkTo_cons, kmallocTurnExprs, if_neg (ptr_ne_zero ha (hl.addr_lt hstop))]
    split
    case isFalse => exact fun x hx => absurd hx List.not_mem_nil
    case isTrue hfits =>
      have hfit := ((fits_iff hstop hl).mp hfits).2
      have hguard := splitGuardExpr_noWrap hstop hl hfit
      have hresult := resultExpr_noWrap hstop hl
      split
      case isFalse => simp [hguard, hresult]
      case isTrue hsplit =>
        have hroom := (splits_iff hl.1 (hl.block_lt hstop) hfit).mp hsplit
        have hnew := newBlockExpr_noWrap hstop hl hfit
        have hrest := newSizeExpr_noWrap hstop hl hroom
        simp [hguard, hresult, hnew, hrest]

/-! ## The loop of `kfree` -/

/-- The loop of `kfree` is at a block of the list, joined as far as it has come. -/
def AtJoined (stop : Nat) (t : Ptr × Memory) : Prop :=
  ∃ a cs, 0 < a ∧ cs ≠ [] ∧ t.1 = UInt32.ofNat a ∧ Laid t.2 stop a cs

theorem AtJoined.turn (hstop : stop < 2 ^ 32) {t t' : Ptr × Memory} (h : AtJoined stop t)
    (hturn : kfreeTurn t = .inl t') : AtJoined stop t' := by
  obtain ⟨current, m⟩ := t
  obtain ⟨a, cs, ha, hne, rfl, hl⟩ := h
  dsimp only at hl hturn
  match cs, hl with
  | [], _ => exact absurd rfl hne
  | [c], hl =>
    rw [(kfreeTurn_last hl hstop).2] at hturn
    cases hturn
  | c :: d :: cs, hl =>
    rw [kfreeTurn_laid hl hstop ha] at hturn
    obtain rfl := Sum.inl.inj hturn
    split
    case isTrue hfree =>
      exact ⟨a, _, ha, List.cons_ne_nil _ _, rfl, (merge_header hl hstop hfree.1).1⟩
    case isFalse =>
      exact ⟨_, d :: cs, by omega, List.cons_ne_nil _ _, rfl, hl.2⟩

/-- Two neighbours and their headers are inside the heap, so the joined size is. -/
theorem joinedSizeExpr_noWrap {d : Chunk} (hstop : stop < 2 ^ 32)
    (hl : Laid m stop a (c :: d :: cs)) : (joinedSizeExpr m (UInt32.ofNat a)).NoWrap := by
  have hend := hl.stop_eq
  rw [span_cons, span_cons] at hend
  have hnext : blockNext m (UInt32.ofNat a) = UInt32.ofNat (a + 12 + c.size) := by
    rw [blockNext_eq hl.1 (by omega), linkTo, if_neg (by omega)]
  have hsize := toNat_blockSize hl.1 (by omega)
  have hsize' := toNat_blockSize hl.2.1 (by omega)
  rw [joinedSizeExpr, hnext]
  refine (noWrap_word _).add ((noWrap_word headerSize).add (noWrap_word _) ?_) ?_
  · simp only [exact, toNat_headerSize, hsize']
    omega
  · simp only [exact, toNat_headerSize, hsize, hsize']
    omega

theorem AtJoined.noWrap (hstop : stop < 2 ^ 32) {t : Ptr × Memory} (h : AtJoined stop t) :
    ∀ x ∈ kfreeTurnExprs t, x.NoWrap := by
  obtain ⟨current, m⟩ := t
  obtain ⟨a, cs, ha, hne, rfl, hl⟩ := h
  dsimp only at hl
  intro x hx
  rw [kfreeTurnExprs] at hx
  match cs, hl with
  | [], _ => exact absurd rfl hne
  | [c], hl =>
    rw [if_neg fun h => h.2 (kfreeTurn_last hl hstop).1] at hx
    exact absurd hx List.not_mem_nil
  | c :: d :: cs, hl =>
    split at hx
    · split at hx
      · rw [List.mem_singleton.mp hx]
        exact joinedSizeExpr_noWrap hstop hl
      · exact absurd hx List.not_mem_nil
    · exact absurd hx List.not_mem_nil

/-! ## Runs -/

/-- **Heap arithmetic never wraps.**  In every reachable state, in every turn of
`kmalloc` for any request and in every turn of `kfree` for any live pointer, every
expression that is evaluated has its integer value; so had the size that `kmalloc_init`
computed. -/
theorem heap_arithmetic_exact {st : HeapState} {start size : UInt32} {mem : Memory}
    {ops : List HeapOp} (hstart : 0 < start) (hsize : 12 ≤ size.toNat)
    (hfit : start.toNat + size.toNat < 2 ^ 32)
    (hrun : Run HeapStep ⟨kmallocInit mem start size, []⟩ ops st) :
    (initSizeExpr size).NoWrap ∧
      (∀ n current, Visits (kmallocTurn st.heap.mem n) st.heap.heapStart current →
        ∀ x ∈ kmallocTurnExprs st.heap.mem n current, x.NoWrap) ∧
      ∀ e ∈ st.live, (blockExpr e.1).NoWrap ∧
        ∀ t, Visits kfreeTurn
            (st.heap.heapStart, setIsFree st.heap.mem (blockExpr e.1).value 1) t →
          ∀ x ∈ kfreeTurnExprs t, x.NoWrap := by
  have hpos : 0 < start.toNat := UInt32.lt_iff_toNat_lt.mp hstart
  obtain ⟨cs, h⟩ := run_heapValid hstart hsize hfit hrun
  refine ⟨?_, fun n current hvisit => ?_, fun e he => ?_⟩
  · refine (noWrap_word size).sub (noWrap_word headerSize) ?_
    simp only [exact, toNat_headerSize]
    omega
  · have hat := hvisit.invariant (AtBlock (start.toNat + size.toNat) st.heap.mem)
      ⟨_, cs, hpos, h.start_link, h.laid⟩ fun t u ht hturn => ht.turn hfit hturn
    exact hat.noWrap hfit
  · have hlow := (h.bounds he).1
    have hblock : (blockExpr e.1).NoWrap := by
      refine (noWrap_word e.1).sub (noWrap_word headerSize) ?_
      simp only [exact, toNat_headerSize]
      omega
    have haddr : (blockExpr e.1).value.toNat = e.1.toNat - 12 :=
      @toNat_sub_headerSize e.1 (by omega)
    refine ⟨hblock, fun t hvisit => ?_⟩
    have hl := (free_laid h.laid (h.mem_live he)).1
    rw [setIsFree, haddr, h.heapStart] at hvisit
    have hat := hvisit.invariant (AtJoined (start.toNat + size.toNat))
      ⟨_, _, hpos, release_ne_nil h.nonempty, rfl, hl⟩ fun t u ht hturn => ht.turn hfit hturn
    exact hat.noWrap hfit

/-- After a first allocation, a request of `2 ^ 32 - 1` bytes passes over every block
without adding a header to it. -/
theorem heap_arithmetic_exact_first : ∃ st,
    HeapStep ⟨kmallocInit (fun _ => 0) 0x1000 64, []⟩ (.malloc 8) st ∧
      (∀ current, Visits (kmallocTurn st.heap.mem 0xFFFFFFFF) st.heap.heapStart current →
        ∀ x ∈ kmallocTurnExprs st.heap.mem 0xFFFFFFFF current, x.NoWrap) ∧
      ¬ (splitGuardExpr 0xFFFFFFFF).NoWrap := by
  obtain ⟨st, hstep, -⟩ := exists_malloc_step
  refine ⟨st, hstep, (heap_arithmetic_exact (by decide) (by decide) (by decide)
    (Run.nil.snoc hstep)).2.1 _, fun h => ?_⟩
  exact absurd h.value_eq (by decide)

end OsKernel
