import OsKernel.Types
import Mathlib.Data.Finset.Card
import Mathlib.Tactic.IntervalCases

/-! # The page bitmap (`pmm/pmm.c`, bitmap helpers)

One bit a page, packed eight to a byte: `1` is used, `0` is free.  The three
helpers are translated as they stand; what the rest of the development uses is
the set of pages whose bit is clear (`freeSet`), which `bitmapSet` shrinks and
`bitmapClear` grows by exactly the named page.
-/
namespace OsKernel

/-- `PHYS_MEM_SIZE`: the simulated physical memory is 64 MB. -/
def physMemSize : UInt64 := mb 64

/-- `PMM_MAX_PAGES` -/
def pmmMaxPages : Nat := (physMemSize / pageSize).toNat

/-- `PMM_BITMAP_BYTES` -/
def pmmBitmapBytes : Nat := pmmMaxPages / 8

/-- `u8 bitmap[PMM_BITMAP_BYTES]` -/
abbrev Bitmap := Vector UInt8 pmmBitmapBytes

/-- `bitmap_set` -/
def bitmapSet (bitmap : Bitmap) (bit : Nat) : Bitmap :=
  bitmap.set! (bit >>> 3) (bitmap[bit >>> 3]! ||| (1 <<< UInt8.ofNat (bit &&& 7)))

/-- `bitmap_clear` -/
def bitmapClear (bitmap : Bitmap) (bit : Nat) : Bitmap :=
  bitmap.set! (bit >>> 3) (bitmap[bit >>> 3]! &&& ~~~(1 <<< UInt8.ofNat (bit &&& 7)))

/-- `bitmap_test` -/
def bitmapTest (bitmap : Bitmap) (bit : Nat) : Bool :=
  ((bitmap[bit >>> 3]! >>> UInt8.ofNat (bit &&& 7)) &&& 1) != 0

theorem toNat_physMemSize : physMemSize.toNat = 67108864 := by decide

theorem pmmMaxPages_eq : pmmMaxPages = 16384 := by decide

theorem pmmBitmapBytes_eq : pmmBitmapBytes = 2048 := by decide

/-! ## Bits of a byte -/

/-- Bit `k` of a byte. -/
def byteBit (x : UInt8) (k : Nat) : Bool := x.toBitVec.getLsbD k

theorem byteBit_eq (x : UInt8) (k : Nat) : byteBit x k = decide (x.toNat / 2 ^ k % 2 = 1) := by
  rw [byteBit, ← BitVec.testBit_toNat, Nat.testBit_eq_decide_div_mod_eq]
  rfl

theorem byteBit_read (x : UInt8) {k : Nat} (hk : k < 8) :
    (((x >>> UInt8.ofNat k) &&& 1) != 0) = byteBit x k := by
  have hshift : ((x >>> UInt8.ofNat k) &&& 1).toNat = x.toNat / 2 ^ k % 2 := by
    rw [UInt8.toNat_and, UInt8.toNat_shiftRight, UInt8.toNat_ofNat',
      Nat.mod_eq_of_lt (show k < 2 ^ 8 by omega), Nat.mod_eq_of_lt hk, UInt8.toNat_one,
      Nat.and_one_is_mod, Nat.shiftRight_eq_div_pow]
  rw [byteBit_eq, Bool.eq_iff_iff, bne_iff_ne, decide_eq_true_iff, Ne, ← UInt8.toNat_inj, hshift,
    UInt8.toNat_zero]
  omega

theorem byteBit_mask {k l : Nat} (hk : k < 8) (hl : l < 8) :
    byteBit (1 <<< UInt8.ofNat k) l = decide (k = l) := by
  interval_cases k <;> interval_cases l <;> decide

theorem byteBit_set (x : UInt8) {k l : Nat} (hk : k < 8) (hl : l < 8) :
    byteBit (x ||| (1 <<< UInt8.ofNat k)) l = (byteBit x l || decide (k = l)) := by
  rw [← byteBit_mask hk hl, byteBit, UInt8.toBitVec_or, BitVec.getLsbD_or]
  rfl

theorem byteBit_clear (x : UInt8) {k l : Nat} (hk : k < 8) (hl : l < 8) :
    byteBit (x &&& ~~~(1 <<< UInt8.ofNat k)) l = (byteBit x l && !decide (k = l)) := by
  rw [← byteBit_mask hk hl, byteBit, UInt8.toBitVec_and, BitVec.getLsbD_and,
    UInt8.toBitVec_not, BitVec.getLsbD_not, decide_eq_true hl, Bool.true_and]
  rfl

/-! ## The bitmap, page by page -/

variable {bitmap : Bitmap} {p q : Nat}

theorem bit_index (p : Nat) : p >>> 3 = p / 8 ∧ p &&& 7 = p % 8 :=
  ⟨Nat.shiftRight_eq_div_pow p 3, Nat.and_two_pow_sub_one_eq_mod p 3⟩

theorem bit_lt (p : Nat) : p % 8 < 8 := Nat.mod_lt p (Nat.succ_pos 7)

theorem byte_index_lt (hp : p < pmmMaxPages) : p / 8 < pmmBitmapBytes := by
  rw [pmmMaxPages_eq] at hp
  rw [pmmBitmapBytes_eq]
  omega

theorem bitmapTest_eq (bitmap : Bitmap) (p : Nat) :
    bitmapTest bitmap p = byteBit bitmap[p / 8]! (p % 8) := by
  rw [bitmapTest, (bit_index p).1, (bit_index p).2]
  exact byteBit_read _ (bit_lt p)

theorem getElem!_bitmap_set (bitmap : Bitmap) (i : Nat) (x : UInt8) {j : Nat}
    (hj : j < pmmBitmapBytes) :
    (bitmap.set! i x)[j]! = if i = j then x else bitmap[j]! := by
  rw [getElem!_pos _ j hj, getElem!_pos bitmap j hj, Vector.getElem_set!]

/-- Setting a page's bit changes what is tested at that page only. -/
theorem bitmapTest_bitmapSet (bitmap : Bitmap) (p : Nat) (hq : q < pmmMaxPages) :
    bitmapTest (bitmapSet bitmap p) q = (bitmapTest bitmap q || decide (p = q)) := by
  rw [bitmapTest_eq, bitmapTest_eq, bitmapSet, (bit_index p).1, (bit_index p).2,
    getElem!_bitmap_set _ _ _ (byte_index_lt hq)]
  by_cases hbyte : p / 8 = q / 8
  · have hbit : (p % 8 = q % 8) ↔ p = q := by omega
    rw [if_pos hbyte, byteBit_set _ (bit_lt p) (bit_lt q), hbyte,
      decide_eq_decide.mpr hbit]
  · have hne : p ≠ q := fun h => hbyte (by rw [h])
    rw [if_neg hbyte, decide_eq_false hne, Bool.or_false]

/-- Clearing a page's bit changes what is tested at that page only. -/
theorem bitmapTest_bitmapClear (bitmap : Bitmap) (p : Nat) (hq : q < pmmMaxPages) :
    bitmapTest (bitmapClear bitmap p) q = (bitmapTest bitmap q && !decide (p = q)) := by
  rw [bitmapTest_eq, bitmapTest_eq, bitmapClear, (bit_index p).1, (bit_index p).2,
    getElem!_bitmap_set _ _ _ (byte_index_lt hq)]
  by_cases hbyte : p / 8 = q / 8
  · have hbit : (p % 8 = q % 8) ↔ p = q := by omega
    rw [if_pos hbyte, byteBit_clear _ (bit_lt p) (bit_lt q), hbyte,
      decide_eq_decide.mpr hbit]
  · have hne : p ≠ q := fun h => hbyte (by rw [h])
    rw [if_neg hbyte, decide_eq_false hne, Bool.not_false, Bool.and_true]

/-! ## The set of free pages -/

/-- The pages whose bit is clear. -/
def freeSet (bitmap : Bitmap) : Finset Nat :=
  (Finset.range pmmMaxPages).filter (fun p => bitmapTest bitmap p = false)

theorem mem_freeSet : p ∈ freeSet bitmap ↔ p < pmmMaxPages ∧ bitmapTest bitmap p = false := by
  simp [freeSet]

theorem freeSet_lt (h : p ∈ freeSet bitmap) : p < pmmMaxPages := (mem_freeSet.mp h).1

theorem notMem_freeSet (h : bitmapTest bitmap p = true) : p ∉ freeSet bitmap := by
  intro hmem
  rw [(mem_freeSet.mp hmem).2] at h
  cases h

/-- Inside the memory a bit is set exactly when its page is not free. -/
theorem bitmapTest_eq_decide (bitmap : Bitmap) (hp : p < pmmMaxPages) :
    bitmapTest bitmap p = decide (p ∉ freeSet bitmap) := by
  rw [Bool.eq_iff_iff, decide_eq_true_iff, mem_freeSet, not_and, Bool.not_eq_false]
  exact ⟨fun h _ => h, fun h => h hp⟩

theorem card_freeSet_le (bitmap : Bitmap) : (freeSet bitmap).card ≤ pmmMaxPages :=
  (Finset.card_filter_le _ _).trans (Finset.card_range _).le

theorem freeSet_bitmapSet (bitmap : Bitmap) (p : Nat) :
    freeSet (bitmapSet bitmap p) = (freeSet bitmap).erase p := by
  ext q
  simp only [Finset.mem_erase, mem_freeSet]
  constructor
  · rintro ⟨hq, htest⟩
    rw [bitmapTest_bitmapSet bitmap p hq] at htest
    simp only [Bool.or_eq_false_iff, decide_eq_false_iff_not] at htest
    exact ⟨fun h => htest.2 h.symm, hq, htest.1⟩
  · rintro ⟨hne, hq, htest⟩
    refine ⟨hq, ?_⟩
    rw [bitmapTest_bitmapSet bitmap p hq, htest, Bool.false_or]
    exact decide_eq_false fun h => hne h.symm

theorem freeSet_bitmapClear (hp : p < pmmMaxPages) :
    freeSet (bitmapClear bitmap p) = insert p (freeSet bitmap) := by
  ext q
  simp only [Finset.mem_insert, mem_freeSet]
  constructor
  · rintro ⟨hq, htest⟩
    rw [bitmapTest_bitmapClear bitmap p hq] at htest
    by_cases hpq : p = q
    · exact Or.inl hpq.symm
    · exact Or.inr ⟨hq, by simpa [hpq] using htest⟩
  · rintro (rfl | ⟨hq, htest⟩)
    · exact ⟨hp, by rw [bitmapTest_bitmapClear bitmap q hp]; simp⟩
    · exact ⟨hq, by rw [bitmapTest_bitmapClear bitmap p hq, htest, Bool.false_and]⟩

/-- With every bit set no page is free. -/
theorem freeSet_all_used : freeSet (Vector.replicate _ 0xFF) = ∅ := by
  refine Finset.filter_false_of_mem fun p hp => ?_
  have hbyte : (Vector.replicate pmmBitmapBytes (0xFF : UInt8))[p / 8]! = 0xFF := by
    rw [getElem!_pos (Vector.replicate pmmBitmapBytes (0xFF : UInt8)) _
      (byte_index_lt (Finset.mem_range.mp hp))]
    exact Vector.getElem_replicate _
  have hbit : ∀ k < 8, byteBit 0xFF k = true := by decide
  rw [bitmapTest_eq, hbyte, hbit _ (bit_lt p)]
  decide

end OsKernel
