import OsKernel.FirstFitReuse
import OsKernel.KmallocGaps
import OsKernel.PrintfNumbers
import OsKernel.Procedures
import OsKernel.SelfTest

/-! # The allocator test of the kernel (`kernel/tests.c`, `test_phase5_allocator`)

The test borrows from the heap it is run on: two allocations, the first of them given back and
made again, eight small ones, and, once all are freed, a large one that shows that the free
blocks have been joined.  `Borrowed` says what the heap is at each of these points.
-/
namespace OsKernel

namespace Tests

/-- `log_info(msg)` -/
def info (t : Tests) (msg : String) : Tests := { t with log := t.log ++ [msg] }

/-- Bytes printed as text. -/
def printed (text : List UInt8) : String := String.ofList (text.map fun c => Char.ofNat c.toNat)

/-- `%x` -/
def hex (value : UInt32) : String := printed (hexText value.toNat)

/-- `for (int i = 0; i < 64; i++) ba[i] = (uint8_t)i;` -/
def fill (t : Tests) (ba : Ptr) : Tests :=
  let turn (mem : Memory) (i : Nat) :=
    Function.update mem (ba + UInt32.ofNat i).toNat (UInt8.ofNat i)
  { t with mem := (List.range 64).foldl turn t.mem }

/-- Whether the loop that reads them back leaves `ok` at 1. -/
def filled (t : Tests) (ba : Ptr) : Bool :=
  (List.range 64).all fun i => t.mem (ba + UInt32.ofNat i).toNat == UInt8.ofNat i

end Tests

section Program
variable (heapStart : Ptr)

/-- `kmalloc`, on the memory of the test. -/
def testKmalloc (size : UInt32) : Proc Tests Ptr := fun t ptr t' =>
  ∃ mem, KmallocReturns ⟨heapStart, t.mem⟩ size ptr mem ∧ t' = { t with mem }

/-- `kfree`, on the memory of the test. -/
def testKfree (ptr : Ptr) : Proc Tests Unit := fun t _ t' =>
  ∃ mem, KfreeReturns ⟨heapStart, t.mem⟩ ptr mem ∧ t' = { t with mem }

/-- The loop that fills `ptrs`, with `k` turns to go: what it writes, and `ok`. -/
def allocPtrs : Nat → Proc Tests (List Ptr × Bool)
  | 0 => pure ([], true)
  | k + 1 => do
    let ptr ← testKmalloc heapStart 32
    if ptr = 0 then pure ([ptr], false)
    else do
      let (ptrs, ok) ← allocPtrs k
      pure (ptr :: ptrs, ok)

/-- `for (int i = 0; i < 8; i++) kfree(ptrs[i]);` -/
def freePtrs : List Ptr → Proc Tests Unit
  | [] => pure ()
  | ptr :: ptrs => do
    testKfree heapStart ptr
    freePtrs ptrs

/-- `test_phase5_allocator`, from `Free all` on. -/
def phase5Free (ptrs : List Ptr) (b c : Ptr) : Proc Tests Unit := do
  freePtrs heapStart ptrs
  testKfree heapStart b
  testKfree heapStart c
  let big ← testKmalloc heapStart 512
  Proc.update fun t => t.check (big ≠ 0)
    "Large kmalloc(512) after many frees succeeded (coalescing works)"
    "Large kmalloc(512) failed — free blocks not coalesced"
  testKfree heapStart big

/-- From `Multiple small allocations` on; `junk` is what is in `ptrs` before. -/
def phase5Small (junk : Vector Ptr 8) (b c : Ptr) : Proc Tests Unit := do
  let (written, ok) ← allocPtrs heapStart 8
  let ptrs := written ++ junk.toList.drop written.length
  Proc.update fun t => t.check ok "8 × kmalloc(32) all succeeded"
    "One of 8 small allocations returned NULL"
  Proc.update fun t => t.check (decide ptrs.Nodup) "All 8 allocations have unique addresses"
    "Duplicate addresses — allocator bug"
  phase5Free heapStart ptrs b c

/-- From the comparison of `b` with `a` on. -/
def phase5Reuse (junk : Vector Ptr 8) (a b : Ptr) : Proc Tests Unit := do
  Proc.update fun t => t.check (b ≠ a) "Two allocations return different addresses"
    "Two allocations returned SAME address — overlap!"
  let gap := b - a
  Proc.update fun t => t.info ("  Second alloc at 0x" ++ Tests.hex b ++ " (gap = " ++
    Tests.printed (decimalText gap.toInt32.toInt) ++ " bytes)")
  Proc.update fun t => t.check (gap ≥ 64) "Gap between allocations is >= requested size"
    "Allocations are too close — header not accounted for"
  testKfree heapStart a
  let c ← testKmalloc heapStart 64
  if c = 0 then Proc.update fun t => t.fail "kmalloc after kfree returned NULL"
  else do
    Proc.update fun t =>
      if c = a then t.pass "kfree + kmalloc reuses freed block (no leak)"
      else t.pass "kfree + kmalloc got new block (allocator chose differently)"
    Proc.update fun t => t.info ("  After free(0x" ++ Tests.hex a ++ "), new alloc at 0x" ++
      Tests.hex c)
    phase5Small heapStart junk b c

/-- From the first use of `a` on. -/
def phase5Second (junk : Vector Ptr 8) (a : Ptr) : Proc Tests Unit := do
  Proc.update fun t => t.info ("  Allocated 64 bytes at 0x" ++ Tests.hex a)
  Proc.update fun t => t.fill a
  let ok ← Proc.read fun t => t.filled a
  Proc.update fun t => t.check ok "Write/read 64 bytes — no corruption"
    "Memory corruption in first allocation"
  let b ← testKmalloc heapStart 64
  if b = 0 then Proc.update fun t => t.fail "kmalloc(64) second call returned NULL"
  else phase5Reuse heapStart junk a b

/-- `test_phase5_allocator` -/
def testPhase5Allocator (junk : Vector Ptr 8) : Proc Tests Unit := do
  Proc.update fun t => t.title "PHASE 5: kmalloc / kfree"
  let a ← testKmalloc heapStart 64
  if a = 0 then Proc.update fun t => t.fail "kmalloc(64) returned NULL"
  else do
    Proc.update fun t => t.pass "kmalloc(64) returned non-NULL"
    phase5Second heapStart junk a

end Program

/-! ## What the test has borrowed -/

/-- The heap `st₀` with the allocations `ps` on top of its own: the chunks in use are those of
`st₀` and theirs, and the data of `st₀` is what it was. -/
structure Borrowed (start stop : Nat) (st₀ : HeapState) (cs₀ : List Chunk)
    (ps : List (Ptr × UInt32)) (mem : Memory) (cs : List Chunk) : Prop where
  valid : HeapValid start stop ⟨⟨st₀.heap.heapStart, mem⟩, ps ++ st₀.live⟩ cs
  used : ∀ u, u ∈ usedFrom 12 start cs₀ ↔
    u ∈ usedFrom 12 start cs ∧ ∀ e ∈ ps, u.1 ≠ e.1.toNat - 12
  kept : ∀ e ∈ st₀.live, ∀ x, e.1.toNat ≤ x → x < e.1.toNat + e.2.toNat →
    mem x = st₀.heap.mem x

/-- There is a free chunk of `r` bytes, if the condition `G` holds. -/
def Room (G : Prop) (start r : Nat) (cs : List Chunk) : Prop :=
  G → ∃ f ∈ freeFrom 12 start cs, r ≤ f.2

variable {start stop : Nat} {st₀ : HeapState} {cs₀ cs : List Chunk} {ps qs : List (Ptr × UInt32)}
  {mem mem' : Memory} {n ptr : UInt32} {e : Ptr × UInt32} {G : Prop} {r : Nat}

/-- Nothing is borrowed at the start. -/
theorem HeapValid.borrowed (h : HeapValid start stop st₀ cs₀) :
    Borrowed start stop st₀ cs₀ [] st₀.heap.mem cs₀ where
  valid := h
  used := fun _ => ⟨fun hu => ⟨hu, fun _ he => absurd he List.not_mem_nil⟩, And.left⟩
  kept := fun _ _ _ _ _ => rfl

theorem Room.place_ne_none (h : Room G start r cs) (hr : n.toNat ≤ r)
    (hnone : place 12 n.toNat cs = none) : ¬ G := by
  intro hG
  obtain ⟨f, hf, hle⟩ := h hG
  have hlt := (place_eq_none_iff start).mp hnone f hf
  omega

theorem Room.place {o : Nat} {cs' : List Chunk} (h : Room G start r cs)
    (hplace : OsKernel.place 12 n.toNat cs = some (o, cs')) {r' : Nat}
    (hr : r' + (n.toNat + 12) ≤ r) (hpos : 0 < r') : Room G start r' cs' := by
  intro hG
  obtain ⟨f, hf, hle⟩ := h hG
  obtain ⟨f', hf', hroom⟩ := place_room hplace hf (by omega)
  exact ⟨f', hf', by omega⟩

section Borrowing
variable (hstart : 0 < start) (hstop : stop < 2 ^ 32)
include hstart hstop

/-- An allocation more is borrowed. -/
theorem Borrowed.malloc (h : Borrowed start stop st₀ cs₀ ps mem cs)
    (hret : KmallocReturns ⟨st₀.heap.heapStart, mem⟩ n ptr mem') :
    (ptr = 0 ∧ mem' = mem ∧ place 12 n.toNat cs = none) ∨
    ∃ o cs', place 12 n.toNat cs = some (o, cs') ∧ ptr.toNat = start + o + 12 ∧ ptr ≠ 0 ∧
      Borrowed start stop st₀ cs₀ ((ptr, n) :: ps) mem' cs' := by
  rcases kmalloc_cases hstart hstop h.valid hret with
    hnull | ⟨o, cs', hplace, hptr, hne, hvalid, hkeeps⟩
  · exact Or.inl hnull
  · obtain ⟨⟨size, hused⟩, hfresh⟩ := place_used (by decide) hplace start
    have hblock : ptr.toNat - 12 = start + o := by omega
    refine Or.inr ⟨o, cs', hplace, hptr, hne, hvalid, fun u => ?_, fun e he x h1 h2 => ?_⟩
    · rw [h.used, hused, List.forall_mem_cons]
      dsimp only
      rw [hblock]
      constructor
      · rintro ⟨hu, hps⟩
        exact ⟨Or.inr hu, hfresh u hu, hps⟩
      · rintro ⟨rfl | hu, hne', hps⟩
        · exact absurd rfl hne'
        · exact ⟨hu, hps⟩
    · have hmem := h.valid.mem_live (List.mem_append_right ps he)
      exact (hkeeps.live _ hmem x h1 h2).trans (h.kept e he x h1 h2)

/-- A borrowed allocation is given back. -/
theorem Borrowed.free (h : Borrowed start stop st₀ cs₀ ps mem cs) (he : e ∈ ps)
    (hret : KfreeReturns ⟨st₀.heap.heapStart, mem⟩ e.1 mem') :
    Borrowed start stop st₀ cs₀ (ps.erase e) mem'
      (coalesce 12 (release 12 (e.1.toNat - 12 - start) cs)) := by
  have hlive : e ∈ ps ++ st₀.live := List.mem_append_left _ he
  obtain ⟨hvalid, hkeeps⟩ := kfree_done hstart hstop h.valid hlive hret
  refine ⟨?_, fun u => ?_, fun e' he' x h1 h2 => ?_⟩
  · rw [← List.erase_append_left _ he]
    exact hvalid
  · have hreleased := mem_usedFrom_release (by decide) (h.valid.mem_live hlive) u
    dsimp only [extent] at hreleased
    rw [h.used, coalesce_used, hreleased, and_assoc]
    refine and_congr_right fun _ => ?_
    rw [← List.forall_mem_cons (p := fun e : Ptr × UInt32 => u.1 ≠ e.1.toNat - 12)]
    exact (forall_congr' fun e' => imp_congr_left (List.perm_cons_erase he).mem_iff)
  · have hmem := h.valid.mem_live (List.mem_append_right ps he')
    exact (hkeeps.live _ hmem x h1 h2).trans (h.kept e' he' x h1 h2)

end Borrowing

/-- Borrowed allocations may be written. -/
theorem Borrowed.store (h : Borrowed start stop st₀ cs₀ (e :: ps) mem cs)
    (hmem : ∀ x, x < e.1.toNat ∨ e.1.toNat + e.2.toNat ≤ x → mem' x = mem x) :
    Borrowed start stop st₀ cs₀ (e :: ps) mem' cs := by
  refine ⟨h.valid.store_live List.mem_cons_self hmem, h.used, fun e' he' x h1 h2 => ?_⟩
  have hpair := (List.pairwise_cons.mp h.valid.pairwise_live).1 e' (List.mem_append_right ps he')
  rw [hmem x (by omega)]
  exact h.kept e' he' x h1 h2

/-- Different allocations begin at different addresses. -/
theorem Borrowed.nodup (h : Borrowed start stop st₀ cs₀ (qs ++ ps) mem cs)
    (hpos : ∀ e ∈ qs, 0 < e.2.toNat) : (qs.map Prod.fst).Nodup := by
  have hpair := h.valid.pairwise_live
  rw [List.append_assoc] at hpair
  refine List.pairwise_map.mpr ((List.pairwise_append.mp hpair).1.imp_of_mem ?_)
  intro e e' he he' happart heq
  have h1 := hpos e he
  have h2 := hpos e' he'
  rw [heq] at happart
  omega

/-- **All given back**: the heap is what it was. -/
theorem Borrowed.done (h₀ : HeapValid start stop st₀ cs₀)
    (h : Borrowed start stop st₀ cs₀ [] mem cs) (hstart : 0 < start) (hstop : stop < 2 ^ 32) :
    cs.map Chunk.shape = cs₀.map Chunk.shape ∧ HeapSurvives st₀ mem := by
  have hused : usedFrom 12 start cs = usedFrom 12 start cs₀ := by
    refine usedFrom_ext (by decide) fun u => ?_
    rw [h.used]
    exact ⟨fun hu => ⟨hu, fun e he => absurd he List.not_mem_nil⟩, And.left⟩
  have hend := h.valid.laid.stop_eq
  have hend₀ := h₀.laid.stop_eq
  refine ⟨settled_determined (by decide) h.valid.settled h₀.settled (by omega) hused, ?_, h.kept⟩
  intro bs hbs
  have hlist := h.valid.blockList hstart hstop
  rw [h.valid.blocksFrom_eq h₀ hused] at hlist
  exact hbs.unique (h₀.blockList hstart hstop) ▸ hlist

/-! ## The calls of the test -/

section Calls
variable {t : Tests}

section Valid
variable (hstart : 0 < start) (hstop : stop < 2 ^ 32)
  (h : Borrowed start stop st₀ cs₀ ps t.mem cs)
include hstart hstop h

theorem testKmalloc_correct (n : UInt32) :
    Correct G (testKmalloc st₀.heap.heapStart n) t fun ptr t' =>
      ∃ mem', t' = { t with mem := mem' } ∧
        ((ptr = 0 ∧ mem' = t.mem ∧ place 12 n.toNat cs = none) ∨
          ∃ o cs', place 12 n.toNat cs = some (o, cs') ∧ ptr.toNat = start + o + 12 ∧ ptr ≠ 0 ∧
            Borrowed start stop st₀ cs₀ ((ptr, n) :: ps) mem' cs') := by
  refine ⟨fun _ => ?_, ?_⟩
  · obtain ⟨ptr, mem', -, hret, -⟩ := kmalloc_valid hstart hstop h.valid n
    exact ⟨ptr, _, mem', hret, rfl⟩
  · rintro ptr t' ⟨mem', hret, rfl⟩
    exact ⟨mem', rfl, h.malloc hstart hstop hret⟩

theorem testKfree_correct (he : e ∈ ps) :
    Correct G (testKfree st₀.heap.heapStart e.1) t fun _ t' =>
      ∃ mem', t' = { t with mem := mem' } ∧ Borrowed start stop st₀ cs₀ (ps.erase e) mem'
        (coalesce 12 (release 12 (e.1.toNat - 12 - start) cs)) := by
  refine ⟨fun _ => ?_, ?_⟩
  · obtain ⟨mem', -, hret, -⟩ := kfree_valid hstart hstop h.valid (List.mem_append_left _ he)
    exact ⟨(), _, mem', hret, rfl⟩
  · rintro _ t' ⟨mem', hret, rfl⟩
    exact ⟨mem', rfl, h.free hstart hstop he hret⟩

end Valid

/-- Only the memory changes, also in a call that need not return. -/
theorem testKmalloc_any (hG : ¬ G) (hs : Ptr) (n : UInt32) :
    Correct G (testKmalloc hs n) t fun _ t' => ∃ mem', t' = { t with mem := mem' } :=
  ⟨fun h => absurd h hG, fun _ _ ⟨mem', _, heq⟩ => ⟨mem', heq⟩⟩

theorem testKfree_any (hG : ¬ G) (hs p : Ptr) :
    Correct G (testKfree hs p) t fun _ t' => ∃ mem', t' = { t with mem := mem' } :=
  ⟨fun h => absurd h hG, fun _ _ ⟨mem', _, heq⟩ => ⟨mem', heq⟩⟩

theorem freePtrs_any (hG : ¬ G) (hs : Ptr) (ptrs : List Ptr) :
    Correct G (freePtrs hs ptrs) t fun _ t' => ∃ mem', t' = { t with mem := mem' } := by
  induction ptrs generalizing t with
  | nil => exact Correct.pure ⟨t.mem, rfl⟩
  | cons p ptrs ih =>
    refine (testKfree_any hG hs p).bind ?_
    rintro - _ ⟨mem', rfl⟩
    refine ih.mono ?_
    rintro - _ ⟨mem'', rfl⟩
    exact ⟨mem'', rfl⟩

/-- `kfree(NULL)` -/
theorem testKfree_null (hs : Ptr) : Correct G (testKfree hs 0) t fun _ t' => t' = t := by
  have hnull : ∀ mem, KfreeReturns ⟨hs, t.mem⟩ 0 mem ↔ mem = t.mem := fun mem => by
    rw [KfreeReturns, if_pos rfl]
  refine ⟨fun _ => ⟨(), t, t.mem, (hnull _).mpr rfl, rfl⟩, ?_⟩
  rintro - _ ⟨mem, hret, rfl⟩
  rw [(hnull mem).mp hret]

end Calls

/-! ## The loops of the test -/

section Loops
variable (hstart : 0 < start) (hstop : stop < 2 ^ 32) {t : Tests}
include hstart hstop

/-- Eight small allocations, or as many as the loop is asked for: they are borrowed, or there
was no room for them. -/
theorem allocPtrs_correct (k : Nat) (h : Borrowed start stop st₀ cs₀ ps t.mem cs)
    (hroom : Room G start r cs) (hr : 44 * k < r) :
    Correct G (allocPtrs st₀.heap.heapStart k) t fun written t' =>
      ∃ mem', t' = { t with mem := mem' } ∧
        ((written.2 = true ∧ written.1.length = k ∧ ∃ qs cs',
            qs.Perm (written.1.map fun p => (p, 32)) ∧
            Borrowed start stop st₀ cs₀ (qs ++ ps) mem' cs') ∨
          (written.2 = false ∧ ¬ G)) := by
  induction k generalizing t ps cs r with
  | zero => exact Correct.pure ⟨t.mem, rfl, Or.inl ⟨rfl, rfl, [], cs, .nil, h⟩⟩
  | succ k ih =>
    refine (testKmalloc_correct hstart hstop h 32).bind ?_
    rintro ptr _ ⟨mem', rfl, ⟨rfl, -, hnone⟩ | ⟨o, cs', hplace, -, hne, hb⟩⟩
    · rw [if_pos rfl]
      exact Correct.pure ⟨mem', rfl, Or.inr ⟨rfl, hroom.place_ne_none (n := 32)
        (show 32 ≤ r by omega) hnone⟩⟩
    · rw [if_neg hne]
      have hroom' : Room G start (r - 44) cs' :=
        hroom.place hplace (show r - 44 + (32 + 12) ≤ r by omega) (by omega)
      refine (ih (t := { t with mem := mem' }) hb hroom' (by omega)).bind ?_
      rintro ⟨ptrs, ok⟩ _ ⟨mem'', rfl, hcase⟩
      refine Correct.pure ⟨mem'', rfl, hcase.imp_left ?_⟩
      rintro ⟨hok, hlen, qs, cs'', hperm, hb'⟩
      refine ⟨hok, congrArg Nat.succ hlen, qs ++ [(ptr, 32)], cs'', ?_, ?_⟩
      · exact (List.perm_append_singleton _ _).trans (hperm.cons _)
      · rw [List.append_assoc]
        exact hb'

/-- Freeing them. -/
theorem freePtrs_correct {ptrs : List Ptr} (hperm : qs.Perm (ptrs.map fun p => (p, 32)))
    (h : Borrowed start stop st₀ cs₀ (qs ++ ps) t.mem cs) :
    Correct G (freePtrs st₀.heap.heapStart ptrs) t fun _ t' =>
      ∃ mem' cs', t' = { t with mem := mem' } ∧ Borrowed start stop st₀ cs₀ ps mem' cs' := by
  induction ptrs generalizing t qs cs with
  | nil =>
    obtain rfl := hperm.eq_nil
    exact Correct.pure ⟨t.mem, cs, rfl, h⟩
  | cons p ptrs ih =>
    have hp : ((p, 32) : Ptr × UInt32) ∈ qs := hperm.mem_iff.mpr List.mem_cons_self
    refine (testKfree_correct hstart hstop h (List.mem_append_left ps hp)).bind ?_
    rintro - _ ⟨mem', rfl, hb⟩
    rw [List.erase_append_left _ hp] at hb
    have hperm' := hperm.erase (p, 32)
    rw [List.map_cons, List.erase_cons_head] at hperm'
    refine (ih (t := { t with mem := mem' }) hperm' hb).mono ?_
    rintro - _ ⟨mem'', cs', rfl, hb'⟩
    exact ⟨mem'', cs', rfl, hb'⟩

end Loops

/-! ## The test -/

/-- There is a free block large enough for the last allocation. -/
def Spacious (start : Nat) (cs₀ : List Chunk) : Prop := ∃ f ∈ freeFrom 12 start cs₀, 512 ≤ f.2

/-- How the test ends: without a failure, and with the heap it was given; or there was too
little room, and it has reported so. -/
def Verdict (start : Nat) (st₀ : HeapState) (cs₀ : List Chunk) (fails : Nat) (t : Tests) : Prop :=
  (Spacious start cs₀ ∧ t.totalFail = fails ∧ HeapSurvives st₀ t.mem) ∨
    (¬ Spacious start cs₀ ∧ fails < t.totalFail)

theorem freeFrom_congr {a : Nat} {cs' : List Chunk}
    (h : cs.map Chunk.shape = cs'.map Chunk.shape) : freeFrom 12 a cs = freeFrom 12 a cs' := by
  induction cs generalizing a cs' with
  | nil => rw [List.map_eq_nil_iff.mp h.symm]
  | cons c cs ih =>
    cases cs' with
    | nil => cases h
    | cons c' cs' =>
      obtain ⟨hshape, hrest⟩ := List.cons.inj h
      obtain ⟨hsize, hfree⟩ := Prod.mk.inj hshape
      rw [freeFrom, freeFrom, hsize, hfree, ih hrest]

/-- The messages of the test, as long as it reports no failure. -/
structure Unfailed (t t' : Tests) : Prop where
  mem : t'.mem = t.mem
  totalFail : t'.totalFail = t.totalFail

theorem Unfailed.trans {t t' t'' : Tests} (h : Unfailed t t') (h' : Unfailed t' t'') :
    Unfailed t t'' := ⟨h'.mem.trans h.mem, h'.totalFail.trans h.totalFail⟩

theorem unfailed_info (t : Tests) (msg : String) : Unfailed t (t.info msg) := ⟨rfl, rfl⟩

theorem unfailed_pass (t : Tests) (msg : String) : Unfailed t (t.pass msg) := ⟨rfl, rfl⟩

theorem unfailed_check (t : Tests) {ok : Bool} (h : ok = true) (yes no : String) :
    Unfailed t (t.check ok yes no) := by
  rw [Tests.check, if_pos h]
  exact unfailed_pass t yes

/-- **The rule for a message.** -/
theorem Correct.message {t : Tests} {g : Tests → Tests} {α : Type} {f : Unit → Proc Tests α}
    {Q : α → Tests → Prop} (hg : Unfailed t (g t))
    (h : ∀ t', Unfailed t t' → Correct G (f ()) t' Q) : Correct G (Proc.update g >>= f) t Q :=
  Correct.update_bind g (h (g t) hg)

@[simp] theorem Tests.check_totalFail (t : Tests) (ok : Bool) (yes no : String) :
    (t.check ok yes no).totalFail = t.totalFail + if ok then 0 else 1 := by
  cases ok <;> rfl

section Segments
variable (hstart : 0 < start) (hstop : stop < 2 ^ 32) (h₀ : HeapValid start stop st₀ cs₀)
  {t : Tests} {fails : Nat} {a b c : Ptr}

section Failed
variable (hG : ¬ Spacious start cs₀) (hfails : fails < t.totalFail)
include hG hfails

/-- Nothing takes a failure back. -/
theorem phase5Free_failed (hs : Ptr) (ptrs : List Ptr) :
    Correct (Spacious start cs₀) (phase5Free hs ptrs b c) t
      fun _ t' => Verdict start st₀ cs₀ fails t' := by
  refine (freePtrs_any hG hs ptrs).bind ?_
  rintro - _ ⟨mem₁, rfl⟩
  refine (testKfree_any hG hs b).bind ?_
  rintro - _ ⟨mem₂, rfl⟩
  refine (testKfree_any hG hs c).bind ?_
  rintro - _ ⟨mem₃, rfl⟩
  refine (testKmalloc_any hG hs 512).bind ?_
  rintro big _ ⟨mem₄, rfl⟩
  refine Correct.update_bind _ ((testKfree_any hG hs big).mono ?_)
  rintro - _ ⟨mem₅, rfl⟩
  refine Or.inr ⟨hG, ?_⟩
  simp only [Tests.check_totalFail]
  omega

end Failed

include hstart hstop h₀

/-- Once all is given back, the large allocation shows how much room there was. -/
theorem phase5Free_correct {ptrs : List Ptr} (hperm : qs.Perm (ptrs.map fun p => (p, 32)))
    (h : Borrowed start stop st₀ cs₀ (qs ++ [(c, 64), (b, 64)]) t.mem cs)
    (hfails : t.totalFail = fails) :
    Correct (Spacious start cs₀) (phase5Free st₀.heap.heapStart ptrs b c) t
      fun _ t' => Verdict start st₀ cs₀ fails t' := by
  refine (freePtrs_correct hstart hstop hperm h).bind ?_
  rintro - _ ⟨mem₁, cs₁, rfl, h₁⟩
  have hb : ((b, 64) : Ptr × UInt32) ∈ [(c, 64), (b, 64)] :=
    List.mem_cons_of_mem _ (List.mem_singleton_self _)
  have herase : [((c, 64) : Ptr × UInt32), (b, 64)].erase (b, 64) = [(c, 64)] := by
    by_cases hcb : c = b
    · rw [hcb, List.erase_cons_head]
    · rw [List.erase_cons_tail (by simpa using hcb), List.erase_cons_head]
  refine (testKfree_correct hstart hstop (t := { t with mem := mem₁ }) h₁ hb).bind ?_
  rintro - _ ⟨mem₂, rfl, h₂⟩
  rw [herase] at h₂
  refine (testKfree_correct hstart hstop (t := { t with mem := mem₂ }) h₂
    (List.mem_singleton_self _)).bind ?_
  rintro - _ ⟨mem₃, rfl, h₃⟩
  rw [List.erase_cons_head] at h₃
  obtain ⟨hshape, hsurvives⟩ := h₃.done h₀ hstart hstop
  have hfree := @freeFrom_congr _ start _ hshape
  refine (testKmalloc_correct hstart hstop (t := { t with mem := mem₃ }) h₃ 512).bind ?_
  rintro big _ ⟨mem₄, rfl, ⟨rfl, rfl, hnone⟩ | ⟨o, cs', hplace, -, hne, h₄⟩⟩
  · refine Correct.update_bind _ ((testKfree_null _).mono ?_)
    rintro - _ rfl
    refine Or.inr ⟨?_, ?_⟩
    · rintro ⟨f, hf, hlarge⟩
      have hlt := (place_eq_none_iff start).mp hnone f (hfree ▸ hf)
      change f.2 < 512 at hlt
      omega
    · simp [hfails]
  · have hspacious : Spacious start cs₀ := by
      obtain ⟨⟨size, hf, hlarge⟩, -⟩ := place_lowest hplace start
      exact ⟨(start + o, size), hfree ▸ hf, hlarge⟩
    refine Correct.update_bind _ ((testKfree_correct hstart hstop
      (t := Tests.check { t with mem := mem₄ } (decide (big ≠ 0)) _ _) (by simpa using h₄)
      (List.mem_singleton_self _)).mono ?_)
    rintro - _ ⟨mem₅, rfl, h₅⟩
    rw [List.erase_cons_head] at h₅
    exact Or.inl ⟨hspacious, by simpa [hne] using hfails, (h₅.done h₀ hstart hstop).2⟩

/-- From the eight small allocations on. -/
theorem phase5Small_correct (junk : Vector Ptr 8)
    (h : Borrowed start stop st₀ cs₀ [(c, 64), (b, 64)] t.mem cs)
    (hroom : Room (Spacious start cs₀) start 360 cs) (hfails : t.totalFail = fails) :
    Correct (Spacious start cs₀) (phase5Small st₀.heap.heapStart junk b c) t
      fun _ t' => Verdict start st₀ cs₀ fails t' := by
  refine (allocPtrs_correct hstart hstop 8 h hroom (by decide)).bind ?_
  rintro ⟨written, ok⟩ _ ⟨mem', rfl, ⟨rfl, hlen, qs, cs', hperm, hb⟩ | ⟨rfl, hG⟩⟩
  · dsimp only at hlen hperm ⊢
    have hptrs : written ++ junk.toList.drop written.length = written := by
      rw [hlen, List.drop_of_length_le (by simp), List.append_nil]
    have hnodup : written.Nodup := by
      have hdistinct := hb.nodup fun e he => by
        obtain ⟨p, -, rfl⟩ := List.mem_map.mp (hperm.mem_iff.mp he)
        exact Nat.succ_pos 31
      have hfst := (hperm.map Prod.fst).nodup_iff.mp hdistinct
      rwa [List.map_map, show Prod.fst ∘ (fun p : Ptr => (p, (32 : UInt32))) = id from rfl,
        List.map_id] at hfst
    rw [hptrs]
    refine Correct.update_bind _ (Correct.update_bind _ ?_)
    refine phase5Free_correct hstart hstop h₀ hperm (by simpa using hb) ?_
    simpa [hnodup] using hfails
  · refine Correct.update_bind _ (Correct.update_bind _ ?_)
    refine phase5Free_failed hG ?_ _ _
    simp only [Tests.check_totalFail, hfails, Bool.false_eq_true, if_false]
    omega

/-- From the comparison of the two allocations on: the first is given back and made again, and
the heap is what it was before. -/
theorem phase5Reuse_correct (junk : Vector Ptr 8) {o o' : Nat} {cs₁ cs₂ : List Chunk}
    (hfirst : place 12 64 cs₀ = some (o, cs₁)) (hsecond : place 12 64 cs₁ = some (o', cs₂))
    (ha : a.toNat = start + o + 12)
    (h : Borrowed start stop st₀ cs₀ [(b, 64), (a, 64)] t.mem cs₂)
    (hroom : Room (Spacious start cs₀) start 360 cs₂) (hfails : t.totalFail = fails) :
    Correct (Spacious start cs₀) (phase5Reuse st₀.heap.heapStart junk a b) t
      fun _ t' => Verdict start st₀ cs₀ fails t' := by
  have hpair := (List.pairwise_cons.mp h.valid.pairwise_live).1 (a, 64) List.mem_cons_self
  have hbounds : a.toNat + 64 ≤ stop :=
    (h.valid.bounds (List.mem_append_left _ (List.mem_cons_of_mem _ (List.mem_singleton_self _)))).2
  have hne : b ≠ a := by
    rintro rfl
    exact absurd hpair (by change ¬ (b.toNat + 64 ≤ b.toNat ∨ b.toNat + 64 ≤ b.toNat); omega)
  have hgap : b - a ≥ 64 := by
    change b.toNat + 64 ≤ a.toNat ∨ a.toNat + 64 ≤ b.toNat at hpair
    rw [ge_iff_le, UInt32.le_iff_toNat_le, UInt32.toNat_sub]
    change 64 ≤ _
    have hb := b.toNat_lt
    omega
  refine Correct.message (unfailed_check t (by simpa using hne) _ _) fun t₁ h₁ => ?_
  refine Correct.message (unfailed_info t₁ _) fun t₂ h₂ => ?_
  refine Correct.message (unfailed_check t₂ (by simpa using hgap) _ _) fun t₃ h₃ => ?_
  have hsame := (h₁.trans h₂).trans h₃
  rw [← hsame.mem] at h
  have hmem : ((a, 64) : Ptr × UInt32) ∈ [(b, 64), (a, 64)] :=
    List.mem_cons_of_mem _ (List.mem_singleton_self _)
  have herase : [((b, 64) : Ptr × UInt32), (a, 64)].erase (a, 64) = [(b, 64)] := by
    rw [List.erase_cons_tail (by simpa using hne), List.erase_cons_head]
  refine (testKfree_correct hstart hstop h hmem).bind ?_
  rintro - _ ⟨mem₁, rfl, hfreed⟩
  have hagain : place 12 64 (coalesce 12 (release 12 (a.toNat - 12 - start) cs₂)) =
      some (o, cs₂) := by
    rw [ha, Nat.add_sub_cancel, Nat.add_sub_cancel_left]
    exact place_again (by decide) h₀.settled hfirst hsecond
  rw [herase] at hfreed
  refine (testKmalloc_correct hstart hstop (t := { t₃ with mem := mem₁ }) hfreed 64).bind ?_
  rintro c _ ⟨mem₂, rfl, ⟨rfl, -, hnone⟩ | ⟨o'', cs', hplace, -, hc, hb⟩⟩
  · cases hagain.symm.trans hnone
  · obtain ⟨-, rfl⟩ := Prod.mk.inj (Option.some.inj (hagain.symm.trans hplace))
    rw [if_neg hc]
    have hpass : Unfailed { t₃ with mem := mem₂ }
        (if c = a then Tests.pass { t₃ with mem := mem₂ }
            "kfree + kmalloc reuses freed block (no leak)"
          else Tests.pass { t₃ with mem := mem₂ }
            "kfree + kmalloc got new block (allocator chose differently)") := by
      split <;> exact unfailed_pass _ _
    refine Correct.message hpass fun t₄ h₄ => ?_
    refine Correct.message (unfailed_info t₄ _) fun t₅ h₅ => ?_
    have hsame' := h₄.trans h₅
    exact phase5Small_correct hstart hstop h₀ junk (hsame'.mem ▸ hb) hroom
      (hsame'.totalFail.trans (hsame.totalFail.trans hfails))

end Segments

/-! ## The data of the first allocation -/

/-- The loop writes its bytes, and no others. -/
theorem Tests.fill_mem (t : Tests) {ba : Ptr} (hba : ba.toNat + 64 ≤ 2 ^ 32) (x : Nat) :
    (t.fill ba).mem x = if ba.toNat ≤ x ∧ x < ba.toNat + 64 then UInt8.ofNat (x - ba.toNat)
      else t.mem x :=
  Memory.foldl_update t.mem UInt8.ofNat hba x

theorem Tests.filled_fill (t : Tests) {ba : Ptr} (hba : ba.toNat + 64 ≤ 2 ^ 32) :
    (t.fill ba).filled ba = true := by
  refine List.all_eq_true.mpr fun i hi => ?_
  have hlt := List.mem_range.mp hi
  rw [Memory.toNat_add_ofNat hba hlt, t.fill_mem hba, if_pos (by omega), Nat.add_sub_cancel_left]
  exact beq_self_eq_true _

/-! ## The whole test -/

section Whole
variable (hstart : 0 < start) (hstop : stop < 2 ^ 32) (h₀ : HeapValid start stop st₀ cs₀)
  {t : Tests} {fails : Nat}
include hstart hstop h₀

/-- From the first use of `a` on. -/
theorem phase5Second_correct (junk : Vector Ptr 8) {a : Ptr} {o : Nat} {cs₁ : List Chunk}
    (hfirst : place 12 64 cs₀ = some (o, cs₁)) (ha : a.toNat = start + o + 12)
    (h : Borrowed start stop st₀ cs₀ [(a, 64)] t.mem cs₁)
    (hroom : Room (Spacious start cs₀) start 436 cs₁) (hfails : t.totalFail = fails) :
    Correct (Spacious start cs₀) (phase5Second st₀.heap.heapStart junk a) t
      fun _ t' => Verdict start st₀ cs₀ fails t' := by
  have hbound : a.toNat + 64 ≤ stop := (h.valid.bounds List.mem_cons_self).2
  refine Correct.message (unfailed_info t _) fun t₁ h₁ => ?_
  rw [← h₁.mem] at h
  refine Correct.update_bind _ (Correct.read_bind _ ?_)
  have hfilled : (t₁.fill a).filled a = true := t₁.filled_fill (by omega)
  have hb : Borrowed start stop st₀ cs₀ [(a, 64)] (t₁.fill a).mem cs₁ := by
    refine h.store fun x hx => ?_
    change x < a.toNat ∨ a.toNat + 64 ≤ x at hx
    rw [t₁.fill_mem (by omega), if_neg (by omega)]
  refine Correct.message (unfailed_check _ hfilled _ _) fun t₂ h₂ => ?_
  rw [← h₂.mem] at hb
  have hfails₂ : t₂.totalFail = fails := h₂.totalFail.trans (h₁.totalFail.trans hfails)
  refine (testKmalloc_correct hstart hstop hb 64).bind ?_
  rintro b _ ⟨mem', rfl, ⟨rfl, -, hnone⟩ | ⟨o', cs₂, hsecond, -, hne, hb'⟩⟩
  · rw [if_pos rfl]
    have hG := hroom.place_ne_none (n := 64) (show 64 ≤ 436 by decide) hnone
    exact Correct.update _ (Or.inr ⟨hG, by rw [← hfails₂]; exact Nat.lt_succ_self _⟩)
  · rw [if_neg hne]
    have hroom' : Room (Spacious start cs₀) start 360 cs₂ :=
      hroom.place hsecond (show 360 + (64 + 12) ≤ 436 by decide) (by decide)
    exact phase5Reuse_correct hstart hstop h₀ junk hfirst hsecond ha hb' hroom' hfails₂

theorem testPhase5Allocator_correct (junk : Vector Ptr 8) (hmem : t.mem = st₀.heap.mem) :
    Correct (Spacious start cs₀) (testPhase5Allocator st₀.heap.heapStart junk) t
      fun _ t' => Verdict start st₀ cs₀ t.totalFail t' := by
  refine Correct.message (g := fun t => t.title _) ⟨rfl, rfl⟩ fun t₁ h₁ => ?_
  have hb : Borrowed start stop st₀ cs₀ [] t₁.mem cs₀ := (h₁.mem.trans hmem) ▸ h₀.borrowed
  have hroom : Room (Spacious start cs₀) start 512 cs₀ := id
  refine (testKmalloc_correct hstart hstop hb 64).bind ?_
  rintro a _ ⟨mem', rfl, ⟨rfl, -, hnone⟩ | ⟨o, cs₁, hfirst, ha, hne, hb'⟩⟩
  · rw [if_pos rfl]
    have hG := hroom.place_ne_none (n := 64) (show 64 ≤ 512 by decide) hnone
    exact Correct.update _ (Or.inr ⟨hG, by rw [← h₁.totalFail]; exact Nat.lt_succ_self _⟩)
  · rw [if_neg hne]
    have hroom' : Room (Spacious start cs₀) start 436 cs₁ :=
      hroom.place hfirst (show 436 + (64 + 12) ≤ 512 by decide) (by decide)
    refine Correct.message (unfailed_pass _ _) fun t₂ h₂ => ?_
    exact phase5Second_correct hstart hstop h₀ junk hfirst ha (h₂.mem ▸ hb') hroom'
      (h₂.totalFail.trans h₁.totalFail)

end Whole

/-- **The allocator test is exact, and leaves no trace.**  On every reachable heap, whatever its
array of pointers holds at first: if some gap between live blocks has 524 bytes, the test
returns; where it returns, it reports no failure if and only if there is such a gap, and then
it leaves the block list and the data of all clients as it found them. -/
theorem allocator_test_exact {start size : UInt32} {mem : Memory} {ops : List HeapOp}
    {st : HeapState} (hstart : 0 < start) (hsize : 12 ≤ size.toNat)
    (hfit : start.toNat + size.toNat < 2 ^ 32)
    (hrun : Run HeapStep ⟨kmallocInit mem start size, []⟩ ops st) (junk : Vector Ptr 8)
    (passes fails : Nat) (log : List String) :
    ((∃ x y, HeapGap start size st x y ∧ 524 ≤ y - x) →
      ∃ t, testPhase5Allocator st.heap.heapStart junk ⟨st.heap.mem, passes, fails, log⟩ () t) ∧
    ∀ t, testPhase5Allocator st.heap.heapStart junk ⟨st.heap.mem, passes, fails, log⟩ () t →
      (t.totalFail = fails ↔ ∃ x y, HeapGap start size st x y ∧ 524 ≤ y - x) ∧
      (t.totalFail = fails → HeapSurvives st t.mem) := by
  have hpos : 0 < start.toNat := UInt32.lt_iff_toNat_lt.mp hstart
  obtain ⟨cs, h⟩ := run_heapValid hstart hsize hfit hrun
  have hspacious : Spacious start.toNat cs ↔ ∃ x y, HeapGap start size st x y ∧ 524 ≤ y - x := by
    constructor
    · rintro ⟨⟨x, n⟩, hf, hlarge⟩
      exact ⟨x, x + 12 + n, h.gap_iff.mpr ⟨n, hf, rfl⟩, by dsimp only at hlarge; omega⟩
    · rintro ⟨x, y, hgap, hlarge⟩
      obtain ⟨n, hf, rfl⟩ := h.gap_iff.mp hgap
      exact ⟨(x, n), hf, by dsimp only; omega⟩
  have hcorrect := testPhase5Allocator_correct (t := ⟨st.heap.mem, passes, fails, log⟩) hpos hfit h
    junk rfl
  refine ⟨fun hgap => ?_, fun t ht => ?_⟩
  · obtain ⟨_, t, ht⟩ := hcorrect.returns (hspacious.mpr hgap)
    exact ⟨t, ht⟩
  · rw [← hspacious]
    rcases hcorrect.result () t ht with ⟨hG, hsame, hsurvives⟩ | ⟨hG, hlt⟩
    · exact ⟨iff_of_true hsame hG, fun _ => hsurvives⟩
    · have hne : t.totalFail ≠ fails := Nat.ne_of_gt hlt
      exact ⟨iff_of_false hne hG, fun hsame => absurd hsame hne⟩

/-- The test on the heap of `kernel_main`, where a client has stored a byte into its
allocation: it reports no failure, and the client still has its byte. -/
theorem allocator_test_exact_client :
    ∃ st t, Run HeapStep ⟨bootHeap, []⟩ [.malloc 100, .store 0x00200010 0xAB] st ∧
      st.live = [(0x0020000C, 100)] ∧
      testPhase5Allocator st.heap.heapStart (Vector.replicate 8 0) ⟨st.heap.mem, 0, 0, []⟩ () t ∧
      t.totalFail = 0 ∧ t.mem 0x00200010 = 0xAB := by
  have hinit := kernelHeap_valid fun _ => 0
  obtain ⟨mem, hmalloc, hvalid⟩ :=
    @exists_malloc _ _ _ _ (by decide) (by decide) hinit 100 0x0020000C _ _ rfl rfl
  have hlive : ((0x0020000C, 100) : Ptr × UInt32) ∈ [((0x0020000C, 100) : Ptr × UInt32)] :=
    List.mem_singleton_self _
  obtain ⟨st, hst⟩ : ∃ st : HeapState,
      st = ⟨⟨bootHeap.heapStart, Function.update mem 0x00200010 0xAB⟩, [(0x0020000C, 100)]⟩ :=
    ⟨_, rfl⟩
  have hrun : Run HeapStep ⟨bootHeap, []⟩ [.malloc 100, .store 0x00200010 0xAB] st := by
    rw [hst]
    exact (Run.nil.snoc hmalloc).snoc (.store _ hlive (by decide) (by decide))
  have hbyte : st.heap.mem 0x00200010 = 0xAB := by
    rw [hst]
    exact Function.update_self 0x00200010 0xAB mem
  have hkept : st.live = [(0x0020000C, 100)] := by rw [hst]
  have hstored : HeapValid 0x00200000 0x00300000 st [.used 100 100 (Nat.le_refl 100),
      .avail 1048452] := by
    have hsame : ∀ x, x < 0x0020000C ∨ 0x0020000C + 100 ≤ x →
        Function.update mem 0x00200010 0xAB x = mem x :=
      fun x hx => Function.update_of_ne (by omega) _ _
    rw [hst]
    exact hvalid.store_live hlive hsame
  have hgap : ∃ x y, HeapGap 0x00200000 0x00100000 st x y ∧ 524 ≤ y - x :=
    ⟨0x00200070, 0x00300000, hstored.gap_iff.mpr ⟨1048452, List.mem_cons_self, rfl⟩, by decide⟩
  obtain ⟨hreturns, hexact⟩ := @allocator_test_exact 0x00200000 0x00100000 (fun _ => 0) _ st
    (by decide) (by decide) (by decide) hrun (Vector.replicate 8 0) 0 0 []
  obtain ⟨t, ht⟩ := hreturns hgap
  obtain ⟨hiff, hsurvives⟩ := hexact t ht
  refine ⟨st, t, hrun, hkept, ht, hiff.mpr hgap, ?_⟩
  rw [← hbyte]
  exact (hsurvives (hiff.mpr hgap)).2 _ (hkept ▸ hlive) _ (by decide) (by decide)

end OsKernel
