import Mathlib.Algebra.Ring.Nat
import Mathlib.Data.Set.Function
import Mathlib.Logic.Function.Basic
import Mathlib.Order.Interval.Set.Defs

/-! # Byte-addressed memory

Memories are total functions from addresses to bytes.  Words of any width are
read and written little-endian, one byte at a time, so that two words may
overlap and a word may be read back at another width than it was written.
Nothing here is about one program: the page tables, the heap headers and the
interrupt frames of this development are all words in such a memory.
-/
namespace OsKernel

/-- A byte-addressed memory. -/
abbrev Memory := Nat → UInt8

namespace Memory

/-- The little-endian value of the `n` bytes at `a`. -/
def load (m : Memory) : Nat → Nat → Nat
  | _, 0 => 0
  | a, n + 1 => (m a).toNat + 256 * load m (a + 1) n

/-- `m` with the `n` low-order bytes of `v` written at `a`, little-endian. -/
def store (m : Memory) : Nat → Nat → Nat → Memory
  | _, 0, _ => m
  | a, n + 1, v => Function.update (store m (a + 1) n (v / 256)) a (UInt8.ofNat v)

/-- `memset`: the `n` bytes at `a` become `b`. -/
def fill (m : Memory) (a n : Nat) (b : UInt8) : Memory :=
  fun x => if a ≤ x ∧ x < a + n then b else m x

/-- `memmove`: the `n` bytes at `a` become those that are at `b`. -/
def copy (m : Memory) (a b n : Nat) : Memory :=
  fun x => if a ≤ x ∧ x < a + n then m (b + (x - a)) else m x

variable {m m' : Memory} {a b n k v x : Nat}

/-- A load only sees the bytes it covers. -/
theorem load_congr (h : ∀ x, a ≤ x → x < a + n → m x = m' x) : m.load a n = m'.load a n := by
  induction n generalizing a with
  | zero => rfl
  | succ n ih =>
    have hrest : m.load (a + 1) n = m'.load (a + 1) n :=
      ih fun x h1 h2 => h x (by omega) (by omega)
    simp only [load, hrest, h a (Nat.le_refl a) (by omega)]

/-- A load tells all bytes it covers. -/
theorem byte_eq_of_load_eq (h : m.load a n = m'.load a n) (h1 : a ≤ x) (h2 : x < a + n) :
    m x = m' x := by
  induction n generalizing a with
  | zero => omega
  | succ n ih =>
    have hm : (m a).toNat < 256 := (m a).toNat_lt
    have hm' : (m' a).toNat < 256 := (m' a).toNat_lt
    simp only [load] at h
    have hrest : m.load (a + 1) n = m'.load (a + 1) n := by omega
    by_cases hxa : x = a
    · rw [hxa]
      exact UInt8.toNat_inj.mp (by omega)
    · exact ih hrest (by omega) (by omega)

theorem load_lt (m : Memory) (a n : Nat) : m.load a n < 256 ^ n := by
  induction n generalizing a with
  | zero => simp [load]
  | succ n ih =>
    have hbyte : (m a).toNat < 256 := (m a).toNat_lt
    have hrest := ih (a + 1)
    rw [load, Nat.pow_succ]
    omega

/-- A store changes no byte outside the ones it covers. -/
theorem store_outside (h : x < a ∨ a + n ≤ x) : m.store a n v x = m x := by
  induction n generalizing a v with
  | zero => rfl
  | succ n ih =>
    have hne : x ≠ a := by omega
    rw [store, Function.update_of_ne hne]
    exact ih (by omega)

/-- A word reads back as it was written, up to its width. -/
@[simp] theorem load_store (m : Memory) (a n v : Nat) :
    (m.store a n v).load a n = v % 256 ^ n := by
  induction n generalizing a v with
  | zero => simp [load, Nat.mod_one]
  | succ n ih =>
    have hrest : (m.store a (n + 1) v).load (a + 1) n = v / 256 % 256 ^ n := by
      rw [← ih (a + 1) (v / 256)]
      refine load_congr fun x h1 _ => ?_
      rw [store, Function.update_of_ne (by omega)]
    have hhead : m.store a (n + 1) v a = UInt8.ofNat v := by
      rw [store, Function.update_self]
    have hpow : 256 ^ (n + 1) = 256 * 256 ^ n := by rw [Nat.pow_succ, Nat.mul_comm]
    rw [load, hrest, hhead, UInt8.toNat_ofNat', hpow, Nat.mod_mul]

/-- A word disjoint from a written one is unchanged. -/
theorem load_store_disjoint (h : b + k ≤ a ∨ a + n ≤ b) :
    (m.store a n v).load b k = m.load b k :=
  load_congr fun x h1 h2 => store_outside (by omega)

/-- Writing back what is there changes nothing. -/
theorem store_load (m : Memory) (a n : Nat) : m.store a n (m.load a n) = m := by
  induction n generalizing a with
  | zero => rfl
  | succ n ih =>
    have hbyte : (m a).toNat < 256 := (m a).toNat_lt
    have hrest : m.load a (n + 1) / 256 = m.load (a + 1) n := by
      rw [load]
      omega
    have hhead : UInt8.ofNat (m.load a (n + 1)) = m a := by
      apply UInt8.toNat_inj.mp
      rw [UInt8.toNat_ofNat', load]
      omega
    rw [store, hrest, ih, hhead, Function.update_eq_self]

theorem fill_inside (h1 : a ≤ x) (h2 : x < a + n) (c : UInt8) : m.fill a n c x = c := by
  rw [fill, if_pos ⟨h1, h2⟩]

theorem fill_outside (h : x < a ∨ a + n ≤ x) (c : UInt8) : m.fill a n c x = m x := by
  rw [fill, if_neg (by omega)]

theorem copy_zero (m : Memory) (a b : Nat) : m.copy a b 0 = m :=
  funext fun x => if_neg (by omega)

theorem copy_inside (h : k < n) : m.copy a b n (a + k) = m (b + k) := by
  rw [copy, if_pos (by omega), Nat.add_sub_cancel_left]

theorem copy_outside (h : x < a ∨ a + n ≤ x) : m.copy a b n x = m x := by
  rw [copy, if_neg (by omega)]

/-- One byte behind those copied, which must not have overwritten its source. -/
theorem copy_snoc (h : a ≤ b ∨ b + n < a) :
    Function.update (m.copy a b n) (a + n) (m.copy a b n (b + n)) = m.copy a b (n + 1) := by
  have hsource : m.copy a b n (b + n) = m (b + n) := copy_outside (by omega)
  funext x
  by_cases hx : x = a + n
  · rw [hx, Function.update_self, hsource, copy_inside (Nat.lt_succ_self n)]
  · rw [Function.update_of_ne hx]
    simp only [copy]
    congr 1
    exact propext (by omega)

/-- The first byte before the others, none of whose sources it may overwrite. -/
theorem copy_cons (h : a ≤ b ∨ b + n < a) :
    copy (Function.update m a (m b)) (a + 1) (b + 1) n = m.copy a b (n + 1) := by
  funext x
  by_cases hin : a ≤ x ∧ x < a + (n + 1)
  · obtain ⟨k, rfl⟩ := Nat.exists_eq_add_of_le hin.1
    rw [copy_inside (by omega)]
    cases k with
    | zero => rw [copy_outside (by omega), Nat.add_zero, Function.update_self, Nat.add_zero]
    | succ k =>
      rw [← Nat.add_assoc, Nat.add_right_comm a, copy_inside (by omega),
        Function.update_of_ne (by omega), Nat.add_right_comm b, ← Nat.add_assoc]
  · rw [copy_outside (by omega), copy_outside (by omega), Function.update_of_ne (by omega)]

/-- The last byte before the others, none of whose sources it may overwrite. -/
theorem copy_last (h : b ≤ a ∨ a + n < b) :
    copy (Function.update m (a + n) (m (b + n))) a b n = m.copy a b (n + 1) := by
  funext x
  by_cases hin : a ≤ x ∧ x < a + (n + 1)
  · obtain ⟨k, rfl⟩ := Nat.exists_eq_add_of_le hin.1
    rw [copy_inside (n := n + 1) (by omega)]
    by_cases hk : k = n
    · rw [hk, copy_outside (by omega), Function.update_self]
    · rw [copy_inside (by omega), Function.update_of_ne (by omega)]
  · rw [copy_outside (by omega), copy_outside (by omega), Function.update_of_ne (by omega)]

/-- The address of the `i`-th byte behind a pointer. -/
theorem toNat_add_ofNat {p : UInt32} (hn : p.toNat + n ≤ 2 ^ 32) (hk : k < n) :
    (p + UInt32.ofNat k).toNat = p.toNat + k := by
  have hp := p.toNat_lt
  rw [UInt32.toNat_add, UInt32.toNat_ofNat_of_lt' (show k < 2 ^ 32 by omega)]
  exact Nat.mod_eq_of_lt (by omega)

/-- A loop that writes one byte after the other. -/
theorem foldl_update (m : Memory) (f : Nat → UInt8) {p : UInt32} (hn : p.toNat + n ≤ 2 ^ 32)
    (x : Nat) :
    (List.range n).foldl
        (fun m i => Function.update m (p + UInt32.ofNat i).toNat (f i)) m x =
      if p.toNat ≤ x ∧ x < p.toNat + n then f (x - p.toNat) else m x := by
  induction n with
  | zero => exact (if_neg (by omega)).symm
  | succ n ih =>
    rw [List.range_succ, List.foldl_append, List.foldl_cons, List.foldl_nil,
      toNat_add_ofNat hn (Nat.lt_succ_self n)]
    by_cases hx : x = p.toNat + n
    · rw [hx, Function.update_self, if_pos (by omega), Nat.add_sub_cancel_left]
    · rw [Function.update_of_ne hx, ih (by omega)]
      congr 1
      exact propext (by omega)

/-! ### Two memories that agree on some bytes -/

section Agree
variable {S : Set Nat} (h : Set.EqOn m m' S)
include h

theorem load_eqOn (hsub : Set.Ico a (a + n) ⊆ S) : m.load a n = m'.load a n :=
  load_congr fun _ h1 h2 => h (hsub ⟨h1, h2⟩)

/-- The same store to both makes them agree on what it writes as well. -/
theorem eqOn_store (a n v : Nat) :
    Set.EqOn (m.store a n v) (m'.store a n v) (S ∪ Set.Ico a (a + n)) := by
  intro x hx
  by_cases hin : a ≤ x ∧ x < a + n
  · have hload : (m.store a n v).load a n = (m'.store a n v).load a n := by
      rw [load_store, load_store]
    exact byte_eq_of_load_eq hload hin.1 hin.2
  · rw [store_outside (by omega), store_outside (by omega)]
    exact h (hx.resolve_right fun hmem => hin ⟨hmem.1, hmem.2⟩)

theorem eqOn_store_self (a n v : Nat) : Set.EqOn (m.store a n v) (m'.store a n v) S :=
  (eqOn_store h a n v).mono Set.subset_union_left

end Agree

/-- Every word inside a zeroed range is zero. -/
theorem load_zero (h : ∀ x, a ≤ x → x < a + n → m x = 0) : m.load a n = 0 := by
  induction n generalizing a with
  | zero => rfl
  | succ n ih =>
    rw [load, h a (Nat.le_refl a) (by omega), ih fun x h1 h2 => h x (by omega) (by omega)]
    rfl

end Memory
end OsKernel
