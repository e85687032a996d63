import OsKernel.Kmalloc
import OsKernel.Lexicographic

/-! # Comparing memory and strings (`lib/memory.c`, `strlen`, `strcmp` and `memcmp`)

A byte is an `int` in two ways: as a plain `char`, which is signed, and as an
`unsigned char`.  `strcmp` finds the first difference with the one and answers with the
other.  Its loop keeps the addresses it reads through each of its pointers.
-/
namespace OsKernel

/-- A `char` as an `int`. -/
def charValue (c : UInt8) : Int := c.toInt8.toInt

/-- An `unsigned char` as an `int`. -/
def ucharValue (c : UInt8) : Int := c.toNat

/-- `*p` of a `char *` -/
def charAt (mem : Memory) (p : Ptr) : Int := charValue (mem p.toNat)

/-- `*p` of an `unsigned char *` -/
def ucharAt (mem : Memory) (p : Ptr) : Int := ucharValue (mem p.toNat)

/-- `strlen`, one turn of the loop: the value is `len`. -/
def strlenTurn (mem : Memory) (str : Ptr) (len : UInt32) : UInt32 ⊕ UInt32 :=
  if charAt mem (str + len) ≠ 0 then .inl (len + 1) else .inr len

/-- The pointers of `strcmp`, and the addresses read through each so far. -/
structure StrcmpState where
  a : Ptr
  b : Ptr
  readA : List Ptr
  readB : List Ptr

/-- What `strcmp` returns, and the addresses it has read through each pointer. -/
structure StrcmpReturn where
  value : Int
  readA : List Ptr
  readB : List Ptr

/-- `return *(unsigned char *)a - *(unsigned char *)b;` -/
def strcmpExit (mem : Memory) (st : StrcmpState) : StrcmpReturn where
  value := ucharAt mem st.a - ucharAt mem st.b
  readA := st.readA ++ [st.a]
  readB := st.readB ++ [st.b]

/-- `strcmp`, one turn of the loop. -/
def strcmpTurn (mem : Memory) (st : StrcmpState) : StrcmpState ⊕ StrcmpReturn :=
  let { a, b, readA, readB } := st
  if charAt mem a = 0 then .inr (strcmpExit mem ⟨a, b, readA ++ [a], readB⟩)
  else if charAt mem a = charAt mem b then
    .inl ⟨a + 1, b + 1, readA ++ [a, a], readB ++ [b]⟩
  else .inr (strcmpExit mem ⟨a, b, readA ++ [a, a], readB ++ [b]⟩)

/-- The loop of `memcmp` from index `i` on, with `k` bytes left. -/
def memcmpFrom (mem : Memory) (p1 p2 : Ptr) : Nat → UInt32 → Int
  | 0, _ => 0
  | k + 1, i =>
    if ucharAt mem (p1 + i) ≠ ucharAt mem (p2 + i) then
      ucharAt mem (p1 + i) - ucharAt mem (p2 + i)
    else memcmpFrom mem p1 p2 k (i + 1)

/-- `memcmp` -/
def memcmp (mem : Memory) (a b : Ptr) (n : UInt32) : Int := memcmpFrom mem a b n.toNat 0

/-! ## Bytes and strings in memory -/

/-- `k` addresses from `p` on. -/
def addresses : Ptr → Nat → List Ptr
  | _, 0 => []
  | p, k + 1 => p :: addresses (p + 1) k

/-- The bytes there. -/
def bytesAt (mem : Memory) (p : Ptr) (k : Nat) : List UInt8 :=
  (addresses p k).map fun q => mem q.toNat

/-- The string at `p`: its characters, and the `NUL` behind them. -/
structure StringAt (mem : Memory) (p : Ptr) (cs : List UInt8) : Prop where
  bytes : bytesAt mem p (cs.length + 1) = cs ++ [0]
  noNul : ∀ c ∈ cs, c ≠ 0

variable {mem : Memory} {a b p : Ptr} {c : UInt8} {cs xs ys : List UInt8} {i k : Nat}

theorem bytesAt_succ (mem : Memory) (p : Ptr) (k : Nat) :
    bytesAt mem p (k + 1) = mem p.toNat :: bytesAt mem (p + 1) k := rfl

theorem length_bytesAt (mem : Memory) (p : Ptr) (k : Nat) : (bytesAt mem p k).length = k := by
  induction k generalizing p with
  | zero => rfl
  | succ k ih => rw [bytesAt_succ, List.length_cons, ih]

theorem getElem?_bytesAt (hi : i < k) :
    (bytesAt mem p k)[i]? = some (mem (p + UInt32.ofNat i).toNat) := by
  induction k generalizing p i with
  | zero => cases hi
  | succ k ih =>
    rw [bytesAt_succ]
    cases i with
    | zero => simp
    | succ i =>
      have hnext : p + 1 + UInt32.ofNat i = p + UInt32.ofNat (i + 1) := by
        rw [UInt32.add_assoc, UInt32.ofNat_add, UInt32.add_comm 1]
        rfl
      rw [List.getElem?_cons_succ, ih (Nat.lt_of_succ_lt_succ hi), hnext]

theorem take_bytesAt (h : i ≤ k) : (bytesAt mem p k).take i = bytesAt mem p i := by
  induction k generalizing p i with
  | zero =>
    obtain rfl := Nat.le_zero.mp h
    rfl
  | succ k ih =>
    cases i with
    | zero => rfl
    | succ i =>
      rw [bytesAt_succ, List.take_succ_cons, ih (Nat.le_of_succ_le_succ h), bytesAt_succ]

theorem StringAt.head_nul (h : StringAt mem p []) : mem p.toNat = 0 :=
  (List.cons.inj h.bytes).1

theorem StringAt.head (h : StringAt mem p (c :: cs)) : mem p.toNat = c ∧ c ≠ 0 :=
  ⟨(List.cons.inj h.bytes).1, h.noNul c List.mem_cons_self⟩

theorem StringAt.tail (h : StringAt mem p (c :: cs)) : StringAt mem (p + 1) cs :=
  ⟨(List.cons.inj h.bytes).2, fun d hd => h.noNul d (List.mem_cons_of_mem c hd)⟩

/-- The bytes of a string, up to its `NUL`. -/
theorem StringAt.byte (h : StringAt mem p cs) (hi : i ≤ cs.length) :
    (cs ++ [0])[i]? = some (mem (p + UInt32.ofNat i).toNat) := by
  rw [← h.bytes]
  exact getElem?_bytesAt (Nat.lt_succ_of_le hi)

theorem StringAt.byte_ne (h : StringAt mem p cs) (hi : i < cs.length) :
    mem (p + UInt32.ofNat i).toNat ≠ 0 := by
  have hbyte := h.byte hi.le
  rw [List.getElem?_append_left hi] at hbyte
  exact h.noNul _ (List.mem_of_getElem? hbyte)

theorem StringAt.byte_end (h : StringAt mem p cs) :
    mem (p + UInt32.ofNat cs.length).toNat = 0 := by
  have hbyte := h.byte (Nat.le_refl cs.length)
  rw [List.getElem?_concat_length] at hbyte
  exact (Option.some.inj hbyte).symm

/-- A string is in the address space. -/
theorem StringAt.length_lt (h : StringAt mem p cs) : cs.length < 2 ^ 32 := by
  by_contra hlong
  have hend := h.byte_end
  have hagain : UInt32.ofNat (cs.length % 2 ^ 32) = UInt32.ofNat cs.length :=
    UInt32.ofNat_mod_size
  rw [← hagain] at hend
  exact h.byte_ne (by omega) hend

/-- Two strings that fill the address space are one. -/
theorem StringAt.eq_of_full (ha : StringAt mem a xs) (hb : StringAt mem b ys)
    (hxs : xs.length = 2 ^ 32 - 1) (hys : ys.length = 2 ^ 32 - 1) : xs = ys := by
  -- the `NUL` of the second is none of the characters of the first
  have haddr : a + UInt32.ofNat (b + UInt32.ofNat ys.length - a).toNat =
      b + UInt32.ofNat ys.length := by
    rw [UInt32.ofNat_toNat, UInt32.add_comm, UInt32.sub_add_cancel]
  have hlast : ¬ (b + UInt32.ofNat ys.length - a).toNat < xs.length := by
    intro hi
    apply ha.byte_ne hi
    rw [haddr]
    exact hb.byte_end
  have hlt := (b + UInt32.ofNat ys.length - a).toNat_lt
  have hindex : (b + UInt32.ofNat ys.length - a).toNat = ys.length := by omega
  rw [hindex, UInt32.add_left_inj] at haddr
  have hbytes := ha.bytes
  rw [haddr, hxs, ← hys, hb.bytes] at hbytes
  exact (List.append_cancel_right hbytes).symm

/-! ## The loops -/

theorem charValue_injective : Function.Injective charValue := by
  intro c d h
  have hint : c.toInt8 = d.toInt8 := Int8.toInt_inj.mp h
  rw [← UInt8.toUInt8_toInt8 c, hint, UInt8.toUInt8_toInt8]

theorem ucharValue_injective : Function.Injective ucharValue := by
  intro c d h
  exact UInt8.toNat_inj.mp (Int.ofNat_inj.mp h)

theorem ucharValue_lt (c d : UInt8) : ucharValue c < ucharValue d ↔ c < d :=
  Int.ofNat_lt.trans UInt8.lt_iff_toNat_lt.symm

theorem charAt_eq : charAt mem a = charAt mem b ↔ mem a.toNat = mem b.toNat :=
  charValue_injective.eq_iff

theorem charAt_eq_zero : charAt mem p = 0 ↔ mem p.toNat = 0 :=
  charValue_injective.eq_iff (b := 0)

theorem ucharAt_eq : ucharAt mem a = ucharAt mem b ↔ mem a.toNat = mem b.toNat :=
  ucharValue_injective.eq_iff

/-- `strlen` counts the characters. -/
theorem strlen_returns (h : StringAt mem p cs) :
    Returns (strlenTurn mem p) 0 (UInt32.ofNat cs.length) := by
  have hfrom : ∀ k i, i + k = cs.length →
      Returns (strlenTurn mem p) (UInt32.ofNat i) (UInt32.ofNat cs.length) := by
    intro k
    induction k with
    | zero =>
      rintro i rfl
      exact .of_done (if_neg (not_not.mpr (charAt_eq_zero.mpr h.byte_end)))
    | succ k ih =>
      intro i hi
      have hchar := mt charAt_eq_zero.mp (h.byte_ne (show i < cs.length by omega))
      refine .of_turn (if_pos hchar) ?_
      exact UInt32.ofNat_add i 1 ▸ ih (i + 1) (by omega)
  exact hfrom cs.length 0 (Nat.zero_add _)

/-- `memcmp` finds the first difference of the bytes. -/
theorem memcmpFrom_eq (mem : Memory) (p1 p2 : Ptr) (k : Nat) (i : UInt32) :
    memcmpFrom mem p1 p2 k i =
      lexDiff ucharValue (bytesAt mem (p1 + i) k) (bytesAt mem (p2 + i) k) := by
  induction k generalizing i with
  | zero => rfl
  | succ k ih =>
    rw [memcmpFrom, bytesAt_succ, bytesAt_succ, ih, ← UInt32.add_assoc, ← UInt32.add_assoc]
    by_cases h : mem (p1 + i).toNat = mem (p2 + i).toNat
    · rw [if_neg (not_not.mpr (ucharAt_eq.mpr h)), h, lexDiff_cons_self]
    · rw [if_pos (mt ucharAt_eq.mp h), lexDiff_cons_ne _ h]
      rfl

theorem memcmp_eq (mem : Memory) (a b : Ptr) (n : UInt32) :
    memcmp mem a b n = lexDiff ucharValue (bytesAt mem a n.toNat) (bytesAt mem b n.toNat) := by
  rw [memcmp, memcmpFrom_eq, UInt32.add_zero, UInt32.add_zero]

variable {readA readB : List Ptr}

theorem strcmpTurn_nul (h : mem a.toNat = 0) :
    strcmpTurn mem ⟨a, b, readA, readB⟩ =
      .inr ⟨ucharAt mem a - ucharAt mem b, readA ++ [a] ++ [a], readB ++ [b]⟩ :=
  if_pos (charAt_eq_zero.mpr h)

theorem strcmpTurn_same (h : mem a.toNat ≠ 0) (hsame : mem a.toNat = mem b.toNat) :
    strcmpTurn mem ⟨a, b, readA, readB⟩ = .inl ⟨a + 1, b + 1, readA ++ [a, a], readB ++ [b]⟩ :=
  (if_neg (mt charAt_eq_zero.mp h)).trans (if_pos (charAt_eq.mpr hsame))

theorem strcmpTurn_differ (h : mem a.toNat ≠ 0) (hdiffer : mem a.toNat ≠ mem b.toNat) :
    strcmpTurn mem ⟨a, b, readA, readB⟩ =
      .inr ⟨ucharAt mem a - ucharAt mem b, readA ++ [a, a] ++ [a], readB ++ [b] ++ [b]⟩ :=
  (if_neg (mt charAt_eq_zero.mp h)).trans (if_neg (mt charAt_eq.mp hdiffer))

/-- **`strcmp` finds the first difference of the strings with their `NUL`s**, and reads no
other bytes. -/
theorem strcmp_returns (ha : StringAt mem a xs) (hb : StringAt mem b ys) (readA readB : List Ptr) :
    ∃ ret, Returns (strcmpTurn mem) ⟨a, b, readA, readB⟩ ret ∧
      ret.value = lexDiff ucharValue (xs ++ [0]) (ys ++ [0]) ∧
      ret.readA ⊆ readA ++ addresses a (xs.length + 1) ∧
      ret.readB ⊆ readB ++ addresses b (ys.length + 1) := by
  induction xs generalizing a b ys readA readB with
  | nil =>
    refine ⟨_, .of_done (strcmpTurn_nul ha.head_nul), ?_, ?_, ?_⟩
    · rw [← hb.bytes, bytesAt_succ, List.nil_append, lexDiff_singleton, ← ha.head_nul]
      rfl
    · simp [addresses]
    · simp [addresses]
  | cons c xs ih =>
    obtain ⟨hc, hne⟩ := ha.head
    have hnul : mem a.toNat ≠ 0 := hc ▸ hne
    by_cases hsame : mem a.toNat = mem b.toNat
    · cases ys with
      | nil => exact absurd (hsame.trans hb.head_nul) hnul
      | cons d ys =>
        obtain ⟨hd, -⟩ := hb.head
        obtain ⟨ret, hret, hvalue, hreadA, hreadB⟩ :=
          ih ha.tail hb.tail (readA ++ [a, a]) (readB ++ [b])
        have hcd : c = d := hc.symm.trans (hsame.trans hd)
        refine ⟨ret, .of_turn (strcmpTurn_same hnul hsame) hret, ?_, ?_, ?_⟩
        · rw [hvalue, hcd, List.cons_append, List.cons_append, lexDiff_cons_self]
        · refine List.Subset.trans hreadA ?_
          simp [addresses]
        · refine List.Subset.trans hreadB ?_
          simp [addresses]
    · refine ⟨_, .of_done (strcmpTurn_differ hnul hsame), ?_, ?_, ?_⟩
      · rw [← ha.bytes, ← hb.bytes, bytesAt_succ, bytesAt_succ, lexDiff_cons_ne _ hsame]
        rfl
      · simp [addresses]
      · simp [addresses]

/-! ## One order -/

/-- The lexicographic comparison of `n` bytes. -/
theorem lexSign_memcmp (mem : Memory) (a b : Ptr) (n : UInt32) :
    LexSign (memcmp mem a b n) (bytesAt mem a n.toNat) (bytesAt mem b n.toNat) := by
  rw [memcmp_eq]
  apply lexSign_lexDiff ucharValue_lt ucharValue_injective
  rw [length_bytesAt, length_bytesAt]

/-- Of two strings `memcmp` need not look behind the `NUL` of the shorter one. -/
theorem memcmp_strings (ha : StringAt mem a xs) (hb : StringAt mem b ys) :
    memcmp mem a b (UInt32.ofNat (min xs.length ys.length) + 1) =
      lexDiff ucharValue (xs ++ [0]) (ys ++ [0]) := by
  have hxs := ha.length_lt
  have hys := hb.length_lt
  by_cases hfull : min xs.length ys.length = 2 ^ 32 - 1
  · -- the number of bytes wraps to 0
    have hsame : xs = ys := ha.eq_of_full hb (by omega) (by omega)
    rw [hfull, hsame, lexDiff_self]
    rfl
  · have hn : (UInt32.ofNat (min xs.length ys.length) + 1).toNat =
        min xs.length ys.length + 1 := by
      rw [← UInt32.toNat_ofNat_of_lt' (show min xs.length ys.length + 1 < 2 ^ 32 by omega),
        UInt32.ofNat_add]
      rfl
    have hshort : min (xs ++ [0]).length (ys ++ [0]).length ≤ min xs.length ys.length + 1 := by
      rw [List.length_append, List.length_append, List.length_singleton]
      omega
    rw [memcmp_eq, hn, ← lexDiff_take hshort, ← ha.bytes, ← hb.bytes,
      take_bytesAt (by omega), take_bytesAt (by omega)]

/-- The smaller of two `size_t`. -/
theorem ofNat_min {m n : Nat} (hm : m < 2 ^ 32) (hn : n < 2 ^ 32) :
    (if UInt32.ofNat m ≤ UInt32.ofNat n then UInt32.ofNat m else UInt32.ofNat n) =
      UInt32.ofNat (min m n) := by
  have hle : UInt32.ofNat m ≤ UInt32.ofNat n ↔ m ≤ n := by
    rw [UInt32.le_iff_toNat_le, UInt32.toNat_ofNat_of_lt' hm, UInt32.toNat_ofNat_of_lt' hn]
  by_cases h : m ≤ n
  · rw [if_pos (hle.mpr h), Nat.min_eq_left h]
  · rw [if_neg (mt hle.mp h), Nat.min_eq_right (Nat.le_of_not_le h)]

/-- **`strcmp` and `memcmp` implement one order.**  On two strings `strcmp` returns; the sign
of its value is the lexicographic order of the characters as unsigned numbers, and the sign
of what `memcmp` returns for one byte more than the shorter string has characters; and it
reads no byte behind the `NUL` of either string.  The sign of `memcmp` is the
lexicographic order of the bytes for every number of bytes. -/
theorem strings_one_order (mem : Memory) (a b : Ptr) :
    (∀ xs ys, StringAt mem a xs → StringAt mem b ys →
      ∃ ret la lb, Returns (strcmpTurn mem) ⟨a, b, [], []⟩ ret ∧
        Returns (strlenTurn mem a) 0 la ∧ Returns (strlenTurn mem b) 0 lb ∧
        la.toNat = xs.length ∧ lb.toNat = ys.length ∧
        LexSign ret.value xs ys ∧
        ret.value.sign = (memcmp mem a b ((if la ≤ lb then la else lb) + 1)).sign ∧
        ret.readA ⊆ addresses a (xs.length + 1) ∧ ret.readB ⊆ addresses b (ys.length + 1)) ∧
    ∀ n : UInt32,
      LexSign (memcmp mem a b n) (bytesAt mem a n.toNat) (bytesAt mem b n.toNat) := by
  refine ⟨?_, lexSign_memcmp mem a b⟩
  intro xs ys ha hb
  obtain ⟨ret, hret, hvalue, hreadA, hreadB⟩ := strcmp_returns ha hb [] []
  have hla := UInt32.toNat_ofNat_of_lt' ha.length_lt
  have hlb := UInt32.toNat_ofNat_of_lt' hb.length_lt
  have hpos : ∀ cs : List UInt8, (∀ c ∈ cs, c ≠ 0) → ∀ c ∈ cs, 0 < c := by
    intro cs hcs c hc
    exact UInt8.pos_iff_ne_zero.mpr (hcs c hc)
  refine ⟨ret, _, _, hret, strlen_returns ha, strlen_returns hb, hla, hlb, ?_, ?_, hreadA, hreadB⟩
  · rw [hvalue]
    exact lexSign_terminated ucharValue_lt ucharValue_injective (hpos xs ha.noNul)
      (hpos ys hb.noNul)
  · rw [ofNat_min ha.length_lt hb.length_lt, memcmp_strings ha hb, hvalue]

/-- The strings 41 80 and 41 7F: a byte above 0x7F is a negative `char`, and the greater of
the two here. -/
def twoStrings : Memory := fun x =>
  if x = 0x1000 ∨ x = 0x2000 then 0x41 else if x = 0x1001 then 0x80 else if x = 0x2001 then 0x7F
  else 0

theorem strings_one_order_signed :
    StringAt twoStrings 0x1000 [0x41, 0x80] ∧ StringAt twoStrings 0x2000 [0x41, 0x7F] ∧
      ∃ ret, Returns (strcmpTurn twoStrings) ⟨0x1000, 0x2000, [], []⟩ ret ∧ 0 < ret.value := by
  have ha : StringAt twoStrings 0x1000 [0x41, 0x80] := ⟨by decide, by simp⟩
  have hb : StringAt twoStrings 0x2000 [0x41, 0x7F] := ⟨by decide, by simp⟩
  obtain ⟨ret, -, -, hret, -, -, -, -, hsign, -⟩ :=
    (strings_one_order twoStrings 0x1000 0x2000).1 _ _ ha hb
  exact ⟨ha, hb, ret, hret, hsign.pos.mpr (by decide)⟩

end OsKernel
