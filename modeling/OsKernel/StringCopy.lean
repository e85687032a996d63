import OsKernel.MemoryCompare
import OsKernel.MemoryCopy

/-! # Filling memory and copying strings (`lib/memory.c`, `memset` and `strcpy`)

`strcpy` looks for the `NUL` in the memory it is writing.  When the target begins inside the
source, the `NUL` is overwritten before it is reached, and what is copied then is the copy
itself: the loop never ends.  From any other target the loop copies the string and nothing
else, also when the target overlaps the source from below.
-/
namespace OsKernel

/-- `memset`: what it returns, and the memory. -/
def memset (mem : Memory) (dest : Ptr) (value n : UInt32) : Ptr × Memory :=
  (dest, (List.range n.toNat).foldl
    (fun mem i => Function.update mem (dest + UInt32.ofNat i).toNat value.toUInt8) mem)

/-- The pointers of `strcpy`, and the memory. -/
structure StrcpyState where
  d : Ptr
  s : Ptr
  mem : Memory

/-- `while ((*d++ = *s++));`, one turn: the loop ends with the memory. -/
def strcpyTurn (st : StrcpyState) : StrcpyState ⊕ Memory :=
  let mem := copyByte st.mem st.d st.s
  if charAt st.mem st.s ≠ 0 then .inl ⟨st.d + 1, st.s + 1, mem⟩ else .inr mem

/-- `strcpy` returns its target, and leaves the memory `mem'`. -/
def StrcpyReturns (mem : Memory) (dest src : Ptr) (mem' : Memory) : Prop :=
  Returns strcpyTurn ⟨dest, src, mem⟩ mem'

variable {mem mem' : Memory} {dest src p q : Ptr} {cs : List UInt8} {n : UInt32} {k : Nat}

/-! ## Filling -/

/-- **`memset`** fills its bytes and no others. -/
theorem memset_eq (mem : Memory) (value : UInt32) (hdest : dest.toNat + n.toNat ≤ 2 ^ 32) :
    memset mem dest value n = (dest, mem.fill dest.toNat n.toNat value.toUInt8) := by
  refine Prod.ext rfl (funext fun x => ?_)
  exact Memory.foldl_update mem (fun _ => value.toUInt8) hdest x

/-! ## Strings in changing memory -/

theorem toNat_sub_one (x : UInt32) : (x - 1).toNat = if x = 0 then 2 ^ 32 - 1 else x.toNat - 1 := by
  have hone : (1 : UInt32).toNat = 1 := rfl
  have hlt := x.toNat_lt
  rw [UInt32.toNat_sub, hone]
  split_ifs with h
  · rw [h]
    rfl
  · have hpos : x.toNat ≠ 0 := fun h0 => h (UInt32.toNat_inj.mp h0)
    omega

theorem mem_addresses : q ∈ addresses p k ↔ ∃ i < k, q = p + UInt32.ofNat i := by
  induction k generalizing p with
  | zero => simp [addresses]
  | succ k ih =>
    rw [addresses, List.mem_cons, ih]
    constructor
    · rintro (rfl | ⟨i, hi, rfl⟩)
      · exact ⟨0, Nat.succ_pos k, (UInt32.add_zero _).symm⟩
      · refine ⟨i + 1, Nat.succ_lt_succ hi, ?_⟩
        rw [UInt32.add_assoc, UInt32.ofNat_add, UInt32.add_comm 1]
        rfl
    · rintro ⟨i, hi, rfl⟩
      cases i with
      | zero => exact Or.inl (UInt32.add_zero _)
      | succ i =>
        refine Or.inr ⟨i, Nat.lt_of_succ_lt_succ hi, ?_⟩
        rw [UInt32.add_assoc, UInt32.ofNat_add, UInt32.add_comm 1]
        rfl

/-- Addresses by their distance from the first one. -/
theorem mem_addresses_iff (hk : k ≤ 2 ^ 32) : q ∈ addresses p k ↔ (q - p).toNat < k := by
  rw [mem_addresses]
  constructor
  · rintro ⟨i, hi, rfl⟩
    rw [UInt32.add_comm, UInt32.add_sub_cancel,
      UInt32.toNat_ofNat_of_lt' (show i < 2 ^ 32 by omega)]
    exact hi
  · intro h
    refine ⟨_, h, ?_⟩
    rw [UInt32.ofNat_toNat, UInt32.add_comm, UInt32.sub_add_cancel]

/-- A string is its bytes. -/
theorem StringAt.congr (h : StringAt mem p cs)
    (hsame : ∀ q ∈ addresses p (cs.length + 1), mem' q.toNat = mem q.toNat) :
    StringAt mem' p cs := by
  have hbytes : bytesAt mem' p (cs.length + 1) = bytesAt mem p (cs.length + 1) :=
    List.map_congr_left hsame
  exact ⟨hbytes.trans h.bytes, h.noNul⟩

theorem StringAt.cons {c : UInt8} (h : StringAt mem (p + 1) cs) (hbyte : mem p.toNat = c)
    (hc : c ≠ 0) : StringAt mem p (c :: cs) := by
  refine ⟨?_, List.forall_mem_cons.mpr ⟨hc, h.noNul⟩⟩
  rw [List.length_cons, bytesAt_succ, h.bytes, hbyte]
  rfl

/-! ## Copying -/

theorem copyByte_self (mem : Memory) (d s : Ptr) : copyByte mem d s d.toNat = mem s.toNat :=
  Function.update_self _ _ _

theorem copyByte_of_ne (mem : Memory) (s : Ptr) (h : q ≠ dest) :
    copyByte mem dest s q.toNat = mem q.toNat :=
  Function.update_of_ne (fun heq => h (UInt32.toNat_inj.mp heq)) _ _

/-- A target that is not inside the source: the string is copied, and nothing else changes. -/
theorem strcpy_copies (h : StringAt mem src cs)
    (hapart : dest = src ∨ cs.length < (dest - src).toNat) :
    ∃ mem', StrcpyReturns mem dest src mem' ∧ StringAt mem' dest cs ∧
      ∀ q ∉ addresses dest (cs.length + 1), mem' q.toNat = mem q.toNat := by
  induction cs generalizing mem dest src with
  | nil =>
    have hnul := h.head_nul
    refine ⟨copyByte mem dest src, .of_done (if_neg (not_not.mpr (charAt_eq_zero.mpr hnul))),
      ⟨?_, fun _ hc => absurd hc List.not_mem_nil⟩, fun q hq => ?_⟩
    · rw [List.length_nil, bytesAt_succ, copyByte_self, hnul]
      rfl
    · exact copyByte_of_ne _ _ fun heq => hq (heq ▸ List.mem_cons_self)
  | cons c cs ih =>
    obtain ⟨hbyte, hc⟩ := h.head
    have hlen := h.length_lt
    rw [List.length_cons] at hlen hapart
    -- the byte that is written is none of those still to be read
    have hahead : dest ∉ addresses (src + 1) (cs.length + 1) := by
      have hnext : dest - (src + 1) = dest - src - 1 := by grind
      rw [mem_addresses_iff hlen.le, hnext, toNat_sub_one]
      rcases hapart with rfl | hfar
      · rw [if_pos (UInt32.sub_self _)]
        omega
      · rw [if_neg (by rintro heq; rw [heq] at hfar; exact absurd hfar (Nat.not_lt_zero _))]
        omega
    have htail : StringAt (copyByte mem dest src) (src + 1) cs :=
      h.tail.congr fun q hq => copyByte_of_ne _ _ fun heq => hahead (heq ▸ hq)
    have hstep : dest + 1 - (src + 1) = dest - src := by grind
    obtain ⟨mem', hreturns, hstring, hframe⟩ := ih htail (by
      rw [hstep]
      exact hapart.imp (congrArg (· + 1)) (Nat.lt_of_succ_lt))
    have hbehind : dest ∉ addresses (dest + 1) (cs.length + 1) := by
      have hback : dest - (dest + 1) = 0 - 1 := by grind
      rw [mem_addresses_iff hlen.le, hback, toNat_sub_one, if_pos rfl]
      omega
    have hnul : charAt mem src ≠ 0 := mt charAt_eq_zero.mp (hbyte ▸ hc)
    refine ⟨mem', .of_turn (if_pos hnul) hreturns, hstring.cons ?_ hc, fun q hq => ?_⟩
    · rw [hframe dest hbehind, copyByte_self, hbyte]
    · rw [List.length_cons, addresses, List.mem_cons, not_or] at hq
      rw [hframe q hq.2, copyByte_of_ne _ _ hq.1]

/-- A target inside the source: in front of `s` there are always as many characters as lie
between the two pointers, and the last of them is the one that has just been copied. -/
theorem strcpy_diverges (h : StringAt mem src cs) (hne : dest ≠ src)
    (hinside : (dest - src).toNat ≤ cs.length) (mem' : Memory) :
    ¬ StrcpyReturns mem dest src mem' := by
  obtain ⟨δ, rfl⟩ : ∃ δ, dest = src + δ := ⟨dest - src, by grind⟩
  have hback : src + δ - src = δ := by grind
  rw [hback] at hinside
  have hpos : 0 < δ.toNat := by
    refine Nat.pos_of_ne_zero fun h0 => hne ?_
    rw [UInt32.toNat_inj.mp (h0.trans UInt32.toNat_zero.symm), UInt32.add_zero]
  refine not_returns_of_invariant
    (fun st => st.d = st.s + δ ∧ ∀ i < δ.toNat, st.mem (st.s + UInt32.ofNat i).toNat ≠ 0) ?_
    ⟨rfl, fun i hi => h.byte_ne (hi.trans_le hinside)⟩ mem'
  rintro ⟨d, s, mem⟩ ⟨hd, hahead⟩
  dsimp only at hd hahead
  subst hd
  have hfirst : mem s.toNat ≠ 0 := by
    rw [← UInt32.add_zero s]
    exact hahead 0 hpos
  have hchar : charAt mem s ≠ 0 := mt charAt_eq_zero.mp hfirst
  refine ⟨_, if_pos hchar, by grind, fun i hi => ?_⟩
  have hnext : s + 1 + UInt32.ofNat i = s + UInt32.ofNat (i + 1) := by
    rw [UInt32.add_assoc, UInt32.ofNat_add, UInt32.add_comm 1]
    rfl
  dsimp only
  rw [hnext]
  by_cases hlast : i + 1 = δ.toNat
  · rw [hlast, UInt32.ofNat_toNat, copyByte_self]
    exact hfirst
  · rw [copyByte_of_ne]
    · exact hahead (i + 1) (by omega)
    · intro heq
      have hsame := congrArg UInt32.toNat ((UInt32.add_right_inj s).mp heq)
      rw [UInt32.toNat_ofNat_of_lt' (show i + 1 < 2 ^ 32 by have := δ.toNat_lt; omega)] at hsame
      exact hlast hsame

/-- **When `strcpy` works.**  From a string, `strcpy` returns if and only if its target is the
string itself or does not begin inside the string and its `NUL`; then the string is at the
target, and no other byte has changed. -/
theorem strcpy_correct_iff (mem : Memory) (dest src : Ptr) (cs : List UInt8)
    (h : StringAt mem src cs) :
    ((∃ mem', StrcpyReturns mem dest src mem') ↔
      dest = src ∨ cs.length < (dest - src).toNat) ∧
    ∀ mem', StrcpyReturns mem dest src mem' → StringAt mem' dest cs ∧
      ∀ q ∉ addresses dest (cs.length + 1), mem' q.toNat = mem q.toNat := by
  have hiff : (∃ mem', StrcpyReturns mem dest src mem') ↔
      dest = src ∨ cs.length < (dest - src).toNat := by
    constructor
    · rintro ⟨mem', hreturns⟩
      by_contra hno
      obtain ⟨hne, hinside⟩ := not_or.mp hno
      exact strcpy_diverges h hne (Nat.not_lt.mp hinside) mem' hreturns
    · intro hapart
      obtain ⟨mem', hreturns, -⟩ := strcpy_copies h hapart
      exact ⟨mem', hreturns⟩
  refine ⟨hiff, fun mem' hreturns => ?_⟩
  obtain ⟨mem'', hreturns', hstring, hframe⟩ := strcpy_copies h (hiff.mp ⟨mem', hreturns⟩)
  obtain rfl := hreturns'.unique hreturns
  exact ⟨hstring, hframe⟩

/-- A string of the test is copied to a page of its own, but not to its second character. -/
theorem strcpy_correct_iff_two :
    StringAt twoStrings 0x1000 [0x41, 0x80] ∧
      (∃ mem', StrcpyReturns twoStrings 0x3000 0x1000 mem') ∧
      ¬ ∃ mem', StrcpyReturns twoStrings 0x1001 0x1000 mem' := by
  have h : StringAt twoStrings 0x1000 [0x41, 0x80] := ⟨by decide, by simp⟩
  refine ⟨h, (strcpy_correct_iff twoStrings 0x3000 0x1000 _ h).1.mpr (Or.inr ?_),
    fun hreturns => ?_⟩
  · decide
  · have hno := (strcpy_correct_iff twoStrings 0x1001 0x1000 _ h).1.mp hreturns
    revert hno
    decide

end OsKernel
