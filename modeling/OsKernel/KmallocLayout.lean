import OsKernel.FirstFit
import OsKernel.Kmalloc

/-! # The heap in memory is a list of chunks

`Laid m stop a cs` says that the bytes of `m` from `a` up to `stop` are the chunks
`cs`: a header for each of them, in order, linked to the next.  On such a memory
the loop of `kmalloc` computes `place` and the loop of `kfree` computes `coalesce`;
both end, and both leave the bytes of live requests alone.
-/
namespace OsKernel

/-- The fields of the header at `a`. -/
structure HeaderAt (m : Memory) (a size : Nat) (isFree : Bool) (next : Nat) : Prop where
  size : m.load a 4 = size
  isFree : m.load (a + 4) 1 = isFree.toNat
  next : m.load (a + 8) 4 = next

/-- The pointer to what follows a block: nothing follows the last one. -/
def linkTo (stop a : Nat) : Nat := if a = stop then 0 else a

/-- The memory from `a` to `stop` holds the chunks `cs`. -/
def Laid (m : Memory) (stop : Nat) : Nat → List Chunk → Prop
  | a, [] => a = stop
  | a, c :: cs => HeaderAt m a c.size c.isFree (linkTo stop (a + 12 + c.size)) ∧
      Laid m stop (a + 12 + c.size) cs

/-- `m'` differs from `m` inside `[a, stop)` only, and not in the bytes of the live
requests. -/
structure Keeps (m m' : Memory) (a stop : Nat) (live : List (Nat × Nat)) : Prop where
  outside : ∀ x, x < a ∨ stop ≤ x → m' x = m x
  live : ∀ e ∈ live, ∀ x, e.1 ≤ x → x < e.1 + e.2 → m' x = m x

/-- `m'` differs from `m` in header bytes only. -/
def OnlyHeaders (m m' : Memory) (a : Nat) (cs : List Chunk) : Prop :=
  ∀ x, m' x ≠ m x → ∃ b ∈ headersFrom 12 a cs, b ≤ x ∧ x < b + 12

variable {m m' m'' : Memory} {stop a b n size next : Nat} {isFree : Bool} {c : Chunk}
  {cs cs' : List Chunk} {live : List (Nat × Nat)}

theorem HeaderAt.congr (h : HeaderAt m a size isFree next)
    (hmem : ∀ x, a ≤ x → x < a + 12 → m' x = m x) : HeaderAt m' a size isFree next where
  size := (Memory.load_congr fun x h1 h2 => hmem x h1 (by omega)).trans h.size
  isFree := (Memory.load_congr fun x h1 h2 => hmem x (by omega) (by omega)).trans h.isFree
  next := (Memory.load_congr fun x h1 h2 => hmem x (by omega) (by omega)).trans h.next

theorem Laid.stop_eq (h : Laid m stop a cs) : stop = a + span 12 cs := by
  induction cs generalizing a with
  | nil => rw [Laid] at h; rw [span_nil, h, Nat.add_zero]
  | cons c cs ih =>
    have := ih h.2
    rw [span_cons]
    omega

/-- The list is in the headers: a memory that agrees on them holds the same chunks. -/
theorem Laid.congr (h : Laid m stop a cs)
    (hmem : ∀ b ∈ headersFrom 12 a cs, ∀ x, b ≤ x → x < b + 12 → m' x = m x) :
    Laid m' stop a cs := by
  induction cs generalizing a with
  | nil => exact h
  | cons c cs ih =>
    exact ⟨h.1.congr (hmem a List.mem_cons_self),
      ih h.2 fun b hb => hmem b (List.mem_cons_of_mem _ hb)⟩

theorem Keeps.refl (m : Memory) (a stop : Nat) (live : List (Nat × Nat)) : Keeps m m a stop live :=
  ⟨fun _ _ => rfl, fun _ _ _ _ _ => rfl⟩

theorem OnlyHeaders.trans (h : OnlyHeaders m m' a cs) (h' : OnlyHeaders m' m'' a cs) :
    OnlyHeaders m m'' a cs := by
  intro x hx
  by_cases hxm : m' x = m x
  · exact h' x (by rwa [hxm])
  · exact h x hxm

/-- Header bytes are no bytes of live requests. -/
theorem OnlyHeaders.keeps (h : OnlyHeaders m m' a cs) (hl : Laid m stop a cs) :
    Keeps m m' a stop (liveFrom 12 a cs) where
  outside := by
    intro x hx
    by_contra hne
    obtain ⟨b, hb, h1, h2⟩ := h x hne
    have hbound := headersFrom_bounds hb
    rw [← hl.stop_eq] at hbound
    omega
  live := by
    intro e he x h1 h2
    by_contra hne
    obtain ⟨b, hb, h3, h4⟩ := h x hne
    have := headersFrom_live hb he
    omega

theorem OnlyHeaders.cons
    (h : OnlyHeaders m m' (a + 12 + c.size) cs) : OnlyHeaders m m' a (c :: cs) := by
  intro x hx
  obtain ⟨b, hb, hx⟩ := h x hx
  exact ⟨b, List.mem_cons_of_mem _ hb, hx⟩

theorem OnlyHeaders.head (h : ∀ x, x < a ∨ a + 12 ≤ x → m' x = m x) :
    OnlyHeaders m m' a (c :: cs) := by
  intro x hx
  refine ⟨a, List.mem_cons_self, ?_⟩
  by_contra hout
  exact hx (h x (by omega))

/-! ## Reading a header through a pointer -/

theorem toNat_ptr (ha : a < 2 ^ 32) : (UInt32.ofNat a).toNat = a := UInt32.toNat_ofNat_of_lt' ha

theorem toNat_headerSize : headerSize.toNat = 12 := rfl

/-- The header in front of a pointer. -/
theorem toNat_sub_headerSize {p : Ptr} (hp : 12 ≤ p.toNat) :
    (p - headerSize).toNat = p.toNat - 12 := by
  have hle : headerSize ≤ p := UInt32.le_iff_toNat_le.mpr hp
  rw [UInt32.toNat_sub_of_le _ _ hle, toNat_headerSize]

theorem ptr_ne_zero (hpos : 0 < a) (ha : a < 2 ^ 32) : UInt32.ofNat a ≠ 0 := by
  intro h0
  have hzero := toNat_ptr ha
  rw [h0, UInt32.toNat_zero] at hzero
  omega

section Read
variable (h : HeaderAt m a size isFree next) (ha : a < 2 ^ 32)
include h ha

theorem blockSize_eq : blockSize m (UInt32.ofNat a) = UInt32.ofNat size := by
  rw [blockSize, toNat_ptr ha, h.size]

theorem toNat_blockSize : (blockSize m (UInt32.ofNat a)).toNat = size := by
  have hlt : size < 2 ^ 32 := h.size ▸ m.load_lt a 4
  rw [blockSize_eq h ha, toNat_ptr hlt]

theorem blockNext_eq : blockNext m (UInt32.ofNat a) = UInt32.ofNat next := by
  rw [blockNext, toNat_ptr ha, h.next]

theorem blockIsFree_ne : blockIsFree m (UInt32.ofNat a) ≠ 0 ↔ isFree = true := by
  rw [blockIsFree, toNat_ptr ha, h.isFree]
  cases isFree <;> decide

end Read

theorem HeaderAt.size_lt (h : HeaderAt m a size isFree next) : size < 2 ^ 32 :=
  h.size ▸ m.load_lt a 4

theorem HeaderAt.next_lt (h : HeaderAt m a size isFree next) : next < 2 ^ 32 :=
  h.next ▸ m.load_lt (a + 8) 4

/-! ## Taking a block -/

section Take
variable {k : UInt32} (h : HeaderAt m a size isFree next) (hstop : a + 12 + size < 2 ^ 32)
include h hstop

/-- The test of the split, which does not overflow on a block that fits. -/
theorem splits_iff (hfit : k.toNat ≤ size) :
    blockSize m (UInt32.ofNat a) > k + headerSize ↔ k.toNat + 12 < size := by
  rw [blockSize_eq h (by omega), gt_iff_lt, UInt32.lt_iff_toNat_lt, UInt32.toNat_add,
    toNat_ptr (by omega), toNat_headerSize]
  omega

/-- Taking a block without splitting it clears its flag. -/
theorem take_whole (hfit : k.toNat ≤ size) (hsplit : ¬ k.toNat + 12 < size) :
    let m' := setIsFree (splitBlock m (UInt32.ofNat a) k) (UInt32.ofNat a) 0
    HeaderAt m' a size false next ∧ ∀ x, x ≠ a + 4 → m' x = m x := by
  have hno : ¬ blockSize m (UInt32.ofNat a) > k + headerSize :=
    mt (splits_iff h hstop hfit).mp hsplit
  have hm' : setIsFree (splitBlock m (UInt32.ofNat a) k) (UInt32.ofNat a) 0 =
      m.store (a + 4) 1 0 := by
    rw [splitBlock, if_neg hno, setIsFree, toNat_ptr (by omega)]
    rfl
  rw [hm']
  refine ⟨⟨?_, ?_, ?_⟩, fun x hx => Memory.store_outside (by omega)⟩
  · rw [Memory.load_store_disjoint (by omega), h.size]
  · rw [Memory.load_store]
    rfl
  · rw [Memory.load_store_disjoint (by omega), h.next]

/-- What splitting a block writes: the header of the rest, then its own. -/
theorem take_split_mem (hsplit : k.toNat + 12 < size) :
    setIsFree (splitBlock m (UInt32.ofNat a) k) (UInt32.ofNat a) 0 =
      (((((m.store (a + 12 + k.toNat) 4 (size - k.toNat - 12)).store
        (a + 12 + k.toNat + 4) 1 1).store (a + 12 + k.toNat + 8) 4 next).store
          a 4 k.toNat).store (a + 8) 4 (a + 12 + k.toNat)).store (a + 4) 1 0 := by
  have hyes : blockSize m (UInt32.ofNat a) > k + headerSize :=
    (splits_iff h hstop (by omega)).mpr hsplit
  have hnew : (UInt32.ofNat a + headerSize + k).toNat = a + 12 + k.toNat := by
    rw [UInt32.toNat_add, UInt32.toNat_add, toNat_ptr (by omega), toNat_headerSize]
    omega
  have hrest : (UInt32.ofNat size - k - headerSize).toNat = size - k.toNat - 12 := by
    rw [UInt32.toNat_sub, UInt32.toNat_sub, toNat_ptr (by omega), toNat_headerSize]
    omega
  rw [splitBlock, if_pos hyes]
  simp only [setIsFree, setNext, setSize, blockNext, hnew, toNat_ptr (show a < 2 ^ 32 by omega),
    blockSize_eq h (show a < 2 ^ 32 by omega), hrest]
  rw [Memory.load_store_disjoint (by omega), Memory.load_store_disjoint (by omega), h.next,
    toNat_ptr h.next_lt]
  rfl

/-- Splitting a block makes two blocks of it. -/
theorem take_split (hsplit : k.toNat + 12 < size) :
    let m' := setIsFree (splitBlock m (UInt32.ofNat a) k) (UInt32.ofNat a) 0
    HeaderAt m' a k.toNat false (a + 12 + k.toNat) ∧
      HeaderAt m' (a + 12 + k.toNat) (size - k.toNat - 12) true next ∧
      ∀ x, (x < a ∨ a + 12 ≤ x) → (x < a + 12 + k.toNat ∨ a + 12 + k.toNat + 12 ≤ x) →
        m' x = m x := by
  have hnext := h.next_lt
  have hm' := take_split_mem h hstop hsplit
  set b := a + 12 + k.toNat with hb
  rw [hm']
  refine ⟨⟨?_, ?_, ?_⟩, ⟨?_, ?_, ?_⟩, fun x h1 h2 => ?_⟩
  · rw [Memory.load_store_disjoint (by omega), Memory.load_store_disjoint (by omega),
      Memory.load_store]
    omega
  · rw [Memory.load_store]
    rfl
  · rw [Memory.load_store_disjoint (by omega), Memory.load_store]
    omega
  · simp (disch := omega) only [Memory.load_store_disjoint, Memory.load_store]
    omega
  · simp (disch := omega) only [Memory.load_store_disjoint, Memory.load_store]
    rfl
  · simp (disch := omega) only [Memory.load_store_disjoint, Memory.load_store]
    omega
  · simp (disch := omega) only [Memory.store_outside]

end Take

/-! ## The loop of `kmalloc` -/

theorem Laid.linkTo_cons (h : Laid m stop a (c :: cs)) : linkTo stop a = a := by
  have := h.stop_eq
  rw [span_cons] at this
  rw [linkTo, if_neg (by omega)]

/-- A change in front of a block, or in the block itself, leaves the blocks after it. -/
theorem Laid.tail_congr (h : Laid m stop a cs) (hmem : ∀ x, a ≤ x → m' x = m x) :
    Laid m' stop a cs :=
  h.congr fun _ hb x h1 _ => hmem x ((headersFrom_bounds hb).1.trans h1)

/-- What follows a block is kept when only bytes up to the end of the block change. -/
theorem Keeps.of_block (hl : Laid m stop a (c :: cs)) (hreq : c.request = none)
    (hmem : ∀ x, x < a ∨ a + 12 + c.size ≤ x → m' x = m x) :
    Keeps m m' a stop (liveFrom 12 a (c :: cs)) := by
  have hstop := hl.stop_eq
  rw [span_cons] at hstop
  refine ⟨fun x hx => hmem x (by omega), fun e he x h1 h2 => hmem x (Or.inr ?_)⟩
  rw [liveFrom_none hreq] at he
  have := (liveFrom_bounds he).1
  omega

/-- A block that is passed over keeps its header and its live request. -/
theorem Keeps.cons
    (hk : Keeps m m' (a + 12 + c.size) stop (liveFrom 12 (a + 12 + c.size) cs)) :
    Keeps m m' a stop (liveFrom 12 a (c :: cs)) := by
  refine ⟨fun x hx => hk.outside x (by omega), fun e he x h1 h2 => ?_⟩
  cases hreq : c.request with
  | none =>
    rw [liveFrom_none hreq] at he
    exact hk.live e he x h1 h2
  | some n =>
    rw [liveFrom_some hreq, List.mem_cons] at he
    rcases he with rfl | he
    · have := c.fits n hreq
      dsimp only at h1 h2
      exact hk.outside x (by omega)
    · exact hk.live e he x h1 h2

section Turn
variable {k : UInt32} (hstop : stop < 2 ^ 32) (hl : Laid m stop a (c :: cs))
include hstop hl

theorem Laid.addr_lt : a < 2 ^ 32 := by
  have hend := hl.stop_eq
  rw [span_cons] at hend
  omega

/-- The test of `kmalloc` on a block, in terms of its chunk. -/
theorem fits_iff : blockIsFree m (UInt32.ofNat a) ≠ 0 ∧ blockSize m (UInt32.ofNat a) ≥ k ↔
    c.isFree = true ∧ k.toNat ≤ c.size := by
  have halt := hl.addr_lt hstop
  rw [blockIsFree_ne hl.1 halt, blockSize_eq hl.1 halt, ge_iff_le, UInt32.le_iff_toNat_le,
    toNat_ptr hl.1.size_lt]

variable (ha : 0 < a)
include ha

/-- A block that does not fit is passed over. -/
theorem kmallocTurn_next (hfit : ¬ (c.isFree ∧ k.toNat ≤ c.size)) :
    kmallocTurn m k (UInt32.ofNat a) = .inl (UInt32.ofNat (linkTo stop (a + 12 + c.size))) := by
  have halt := hl.addr_lt hstop
  rw [kmallocTurn, if_neg (ptr_ne_zero ha halt), if_neg (mt (fits_iff hstop hl).mp hfit),
    blockNext_eq hl.1 halt]

/-- A block that fits is split, if the rest can hold another block, and handed out. -/
theorem kmallocTurn_take (hfit : c.isFree ∧ k.toNat ≤ c.size) :
    ∃ cs' m', place 12 k.toNat (c :: cs) = some (0, cs') ∧
      kmallocTurn m k (UInt32.ofNat a) = .inr (UInt32.ofNat (a + 0 + 12), m') ∧
      Laid m' stop a cs' ∧ Keeps m m' a stop (liveFrom 12 a (c :: cs)) := by
  have hend := hl.stop_eq
  rw [span_cons] at hend
  have hnone := Chunk.isFree_iff.mp hfit.1
  have hturn : kmallocTurn m k (UInt32.ofNat a) = .inr (UInt32.ofNat (a + 0 + 12),
      setIsFree (splitBlock m (UInt32.ofNat a) k) (UInt32.ofNat a) 0) := by
    rw [kmallocTurn, if_neg (ptr_ne_zero ha (hl.addr_lt hstop)),
      if_pos ((fits_iff hstop hl).mpr hfit), UInt32.ofNat_add, Nat.add_zero]
    rfl
  by_cases hsplit : k.toNat + 12 < c.size
  · obtain ⟨hcur, hnew, hmem⟩ := take_split hl.1 (by omega) hsplit
    have hsame : a + 12 + k.toNat + 12 + (c.size - k.toNat - 12) = a + 12 + c.size := by omega
    refine ⟨.used k.toNat k.toNat (Nat.le_refl _) :: .avail (c.size - k.toNat - 12) :: cs, _,
      ?_, hturn, ⟨?_, ?_, ?_⟩, Keeps.of_block hl hnone fun x hx => hmem x (by omega) (by omega)⟩
    · rw [place, dif_pos hfit, if_pos hsplit]
    · change HeaderAt _ a k.toNat false (linkTo stop (a + 12 + k.toNat))
      rw [linkTo, if_neg (by omega)]
      exact hcur
    · change HeaderAt _ (a + 12 + k.toNat) (c.size - k.toNat - 12) true
        (linkTo stop (a + 12 + k.toNat + 12 + (c.size - k.toNat - 12)))
      rw [hsame]
      exact hnew
    · change Laid _ stop (a + 12 + k.toNat + 12 + (c.size - k.toNat - 12)) cs
      rw [hsame]
      exact hl.2.tail_congr fun x hx => hmem x (by omega) (by omega)
  · obtain ⟨hcur, hmem⟩ := take_whole hl.1 (by omega) hfit.2 hsplit
    refine ⟨.used c.size k.toNat hfit.2 :: cs, _, ?_, hturn, ⟨hcur, ?_⟩,
      Keeps.of_block hl hnone fun x hx => hmem x (by omega)⟩
    · rw [place, dif_pos hfit, if_neg hsplit]
    · exact hl.2.tail_congr fun x hx => hmem x (by omega)

end Turn

/-- **The loop of `kmalloc` computes `place`**, and ends. -/
theorem kmalloc_laid (hstop : stop < 2 ^ 32) (ha : 0 < a) (hl : Laid m stop a cs) (k : UInt32) :
    (place 12 k.toNat cs = none ∧
      Returns (kmallocTurn m k) (UInt32.ofNat (linkTo stop a)) (0, m)) ∨
    ∃ o cs' m', place 12 k.toNat cs = some (o, cs') ∧
      Returns (kmallocTurn m k) (UInt32.ofNat (linkTo stop a)) (UInt32.ofNat (a + o + 12), m') ∧
      Laid m' stop a cs' ∧ Keeps m m' a stop (liveFrom 12 a cs) := by
  induction cs generalizing a with
  | nil =>
    refine Or.inl ⟨rfl, Returns.of_done ?_⟩
    rw [linkTo, if_pos (show a = stop from hl)]
    rfl
  | cons c cs ih =>
    rw [hl.linkTo_cons]
    by_cases hfit : c.isFree ∧ k.toNat ≤ c.size
    · obtain ⟨cs', m', hplace, hturn, hl', hk⟩ := kmallocTurn_take hstop hl ha hfit
      exact Or.inr ⟨0, cs', m', hplace, Returns.of_done hturn, hl', hk⟩
    · have hturn := kmallocTurn_next hstop hl ha hfit
      have hplace : place 12 k.toNat (c :: cs) =
          (place 12 k.toNat cs).map fun r => (12 + c.size + r.1, c :: r.2) := by
        rw [place, dif_neg hfit]
      rcases ih (by omega) hl.2 with ⟨hp, hr⟩ | ⟨o, cs', m', hp, hr, hl', hk⟩
      · exact Or.inl ⟨by rw [hplace, hp]; rfl, Returns.of_turn hturn hr⟩
      · refine Or.inr ⟨12 + c.size + o, c :: cs', m', by rw [hplace, hp]; rfl, ?_, ⟨?_, hl'⟩,
          hk.cons⟩
        · rw [show a + (12 + c.size + o) + 12 = a + 12 + c.size + o + 12 by omega]
          exact Returns.of_turn hturn hr
        · exact hl.1.congr fun x h1 h2 => hk.outside x (by omega)

/-! ## Marking a block free -/

/-- `kfree` marks the block of a live request free. -/
theorem free_laid (hl : Laid m stop a cs) {e : Nat × Nat} (he : e ∈ liveFrom 12 a cs) :
    Laid (m.store (e.1 - 12 + 4) 1 1) stop a (release 12 (e.1 - 12 - a) cs) ∧
      OnlyHeaders m (m.store (e.1 - 12 + 4) 1 1) a cs := by
  induction cs generalizing a with
  | nil => exact absurd he List.not_mem_nil
  | cons c cs ih =>
    have hpast : e ∈ liveFrom 12 (a + 12 + c.size) cs → Laid (m.store (e.1 - 12 + 4) 1 1) stop a
        (release 12 (e.1 - 12 - a) (c :: cs)) ∧
        OnlyHeaders m (m.store (e.1 - 12 + 4) 1 1) a (c :: cs) := by
      intro he
      obtain ⟨hl', hk⟩ := ih hl.2 he
      have hge := (liveFrom_bounds he).1
      rw [release, if_neg (by omega),
        show e.1 - 12 - a - (12 + c.size) = e.1 - 12 - (a + 12 + c.size) by omega]
      exact ⟨⟨hl.1.congr fun x h1 h2 => Memory.store_outside (by omega), hl'⟩, hk.cons⟩
    cases hreq : c.request with
    | none =>
      rw [liveFrom_none hreq] at he
      exact hpast he
    | some n =>
      rw [liveFrom_some hreq, List.mem_cons] at he
      rcases he with rfl | he
      · rw [release, if_pos (by dsimp only; omega)]
        simp only [Nat.add_sub_cancel]
        refine ⟨⟨⟨?_, ?_, ?_⟩, ?_⟩, OnlyHeaders.head fun x hx => Memory.store_outside (by omega)⟩
        · rw [Memory.load_store_disjoint (by omega), hl.1.size]
          rfl
        · rw [Memory.load_store]
          rfl
        · rw [Memory.load_store_disjoint (by omega), hl.1.next]
          rfl
        · exact hl.2.tail_congr fun x hx => Memory.store_outside (by omega)
      · exact hpast he

theorem headersFrom_release (o : Nat) :
    headersFrom 12 a (release 12 o cs) = headersFrom 12 a cs := by
  induction cs generalizing a o with
  | nil => rfl
  | cons c cs ih =>
    rw [release]
    split
    · rfl
    · rw [headersFrom, headersFrom, ih]

/-! ## The loop of `kfree` -/

/-- Joining a block with the one after it rewrites its header. -/
theorem merge_header {d : Chunk} (hl : Laid m stop a (c :: d :: cs)) (hstop : stop < 2 ^ 32)
    (hc : c.isFree = true) :
    let m' := (m.store a 4 (c.size + (12 + d.size))).store (a + 8) 4
      (linkTo stop (a + 12 + c.size + 12 + d.size))
    Laid m' stop a (.avail (c.size + (12 + d.size)) :: cs) ∧
      ∀ x, x < a ∨ a + 12 ≤ x → m' x = m x := by
  have hend := hl.stop_eq
  rw [span_cons, span_cons] at hend
  have hlink : linkTo stop (a + 12 + c.size + 12 + d.size) < 2 ^ 32 := by
    rw [linkTo]
    split <;> omega
  refine ⟨⟨⟨?_, ?_, ?_⟩, ?_⟩, fun x hx => ?_⟩
  · rw [Memory.load_store_disjoint (by omega), Memory.load_store]
    exact Nat.mod_eq_of_lt (by omega)
  · rw [Memory.load_store_disjoint (by omega), Memory.load_store_disjoint (by omega),
      hl.1.isFree, hc]
    rfl
  · rw [Memory.load_store, Nat.mod_eq_of_lt (by omega)]
    congr 1
    simp only [Chunk.avail]
    omega
  · change Laid _ stop (a + 12 + (c.size + (12 + d.size))) cs
    rw [show a + 12 + (c.size + (12 + d.size)) = a + 12 + c.size + 12 + d.size by omega]
    exact hl.2.2.tail_congr fun x hx => by
      rw [Memory.store_outside (by omega), Memory.store_outside (by omega)]
  · rw [Memory.store_outside (by omega), Memory.store_outside (by omega)]

/-- Two free blocks, one after the other, are joined. -/
theorem kfreeTurn_join {size' : Nat} (ha : 0 < a) (hstop : a + 12 + size + 12 + size' < 2 ^ 32)
    (hc : HeaderAt m a size true (a + 12 + size))
    (hd : HeaderAt m (a + 12 + size) size' true next) :
    kfreeTurn (UInt32.ofNat a, m) = .inl (UInt32.ofNat a,
      (m.store a 4 (size + (12 + size'))).store (a + 8) 4 next) := by
  set b := a + 12 + size with hb
  have halt : a < 2 ^ 32 := by omega
  have hblt : b < 2 ^ 32 := by omega
  have hnext : blockNext m (UInt32.ofNat a) = UInt32.ofNat b := blockNext_eq hc halt
  have hsize : (blockSize m (UInt32.ofNat a) + (headerSize + blockSize m (UInt32.ofNat b))).toNat =
      size + (12 + size') := by
    rw [blockSize_eq hc halt, blockSize_eq hd hblt, UInt32.toNat_add, UInt32.toNat_add,
      toNat_ptr (by omega), toNat_ptr (by omega), toNat_headerSize]
    omega
  have hcond : (UInt32.ofNat a ≠ 0 ∧ blockNext m (UInt32.ofNat a) ≠ 0) :=
    ⟨ptr_ne_zero ha halt, by rw [hnext]; exact ptr_ne_zero (by omega) hblt⟩
  have hflags : blockIsFree m (UInt32.ofNat a) ≠ 0 ∧ blockIsFree m (UInt32.ofNat b) ≠ 0 :=
    ⟨(blockIsFree_ne hc halt).mpr rfl, (blockIsFree_ne hd hblt).mpr rfl⟩
  rw [kfreeTurn, if_pos hcond, hnext, if_pos hflags]
  -- the size field just written is not part of either link
  have hfirst : (m.store a 4 (size + (12 + size'))).load (a + 8) 4 = b := by
    rw [Memory.load_store_disjoint (by omega), hc.next]
  have hsecond : (m.store a 4 (size + (12 + size'))).load (b + 8) 4 = next := by
    rw [Memory.load_store_disjoint (by omega), hd.next]
  have hlast : (UInt32.ofNat next).toNat = next := toNat_ptr hd.next_lt
  simp only [setNext, setSize, blockNext, hsize, toNat_ptr halt, hfirst, toNat_ptr hblt, hsecond,
    hlast]

/-- What the loop of `kfree` sees at a block that is not the last. -/
theorem kfreeTurn_laid {d : Chunk} (hl : Laid m stop a (c :: d :: cs)) (hstop : stop < 2 ^ 32)
    (ha : 0 < a) :
    kfreeTurn (UInt32.ofNat a, m) = .inl
      (if c.isFree ∧ d.isFree then
        (UInt32.ofNat a, (m.store a 4 (c.size + (12 + d.size))).store (a + 8) 4
          (linkTo stop (a + 12 + c.size + 12 + d.size)))
      else (UInt32.ofNat (a + 12 + c.size), m)) := by
  have hend := hl.stop_eq
  rw [span_cons, span_cons] at hend
  set b := a + 12 + c.size with hb
  have halt : a < 2 ^ 32 := by omega
  have hblt : b < 2 ^ 32 := by omega
  have hlink : linkTo stop b = b := by rw [linkTo, if_neg (by omega)]
  have hnext : blockNext m (UInt32.ofNat a) = UInt32.ofNat b := by
    rw [blockNext_eq hl.1 halt, hlink]
  have hcond : (UInt32.ofNat a ≠ 0 ∧ blockNext m (UInt32.ofNat a) ≠ 0) :=
    ⟨ptr_ne_zero ha halt, by rw [hnext]; exact ptr_ne_zero (by omega) hblt⟩
  have hflags : (blockIsFree m (UInt32.ofNat a) ≠ 0 ∧ blockIsFree m (UInt32.ofNat b) ≠ 0) ↔
      (c.isFree = true ∧ d.isFree = true) :=
    and_congr (blockIsFree_ne hl.1 halt) (blockIsFree_ne hl.2.1 hblt)
  by_cases hfree : c.isFree = true ∧ d.isFree = true
  · have hc := hl.1
    have hd := hl.2.1
    rw [hfree.1, hlink] at hc
    rw [hfree.2] at hd
    rw [if_pos hfree]
    exact kfreeTurn_join ha (by omega) hc hd
  · rw [kfreeTurn, if_pos hcond, hnext, if_neg (mt hflags.mp hfree), if_neg hfree]

/-- The loop of `kfree` ends at the last block. -/
theorem kfreeTurn_last (hl : Laid m stop a [c]) (hstop : stop < 2 ^ 32) :
    blockNext m (UInt32.ofNat a) = 0 ∧ kfreeTurn (UInt32.ofNat a, m) = .inr m := by
  have hend := hl.stop_eq
  rw [span_cons, span_nil] at hend
  have hnext : blockNext m (UInt32.ofNat a) = 0 := by
    rw [blockNext_eq hl.1 (by omega), linkTo, if_pos (by omega)]
    rfl
  exact ⟨hnext, by rw [kfreeTurn, if_neg fun h => h.2 hnext]⟩

/-- **The loop of `kfree` computes `coalesce`**, and ends. -/
theorem kfree_laid (hstop : stop < 2 ^ 32) (ha : 0 < a) (hl : Laid m stop a cs) (hne : cs ≠ []) :
    ∃ m', Returns kfreeTurn (UInt32.ofNat a, m) m' ∧ Laid m' stop a (coalesce 12 cs) ∧
      OnlyHeaders m m' a cs := by
  induction cs using coalesce.induct 12 generalizing a m with
  | case1 => exact absurd rfl hne
  | case2 c =>
    refine ⟨m, Returns.of_done (kfreeTurn_last hl hstop).2, ?_, fun x hx => absurd rfl hx⟩
    rw [coalesce]
    exact hl
  | case3 c d cs hfree ih =>
    have hturn := kfreeTurn_laid hl hstop ha
    rw [if_pos hfree] at hturn
    obtain ⟨hl', hmem⟩ := merge_header hl hstop hfree.1
    obtain ⟨m', hr, hlaid, hk⟩ := ih ha hl' (List.cons_ne_nil _ _)
    rw [coalesce, if_pos hfree]
    refine ⟨m', Returns.of_turn hturn hr, hlaid, OnlyHeaders.trans (OnlyHeaders.head hmem) ?_⟩
    -- the header of `d` is gone, the others are where they were
    intro x hx
    obtain ⟨b, hb, hx⟩ := hk x hx
    refine ⟨b, ?_, hx⟩
    rcases List.mem_cons.mp hb with rfl | hb
    · exact List.mem_cons_self
    · refine List.mem_cons_of_mem _ (List.mem_cons_of_mem _ ?_)
      rwa [show a + 12 + (Chunk.avail (c.size + (12 + d.size))).size =
        a + 12 + c.size + 12 + d.size by simp only [Chunk.avail]; omega] at hb
  | case4 c d cs hfree ih =>
    have hturn := kfreeTurn_laid hl hstop ha
    rw [if_neg hfree] at hturn
    obtain ⟨m', hr, hlaid, hk⟩ := ih (by omega) hl.2 (List.cons_ne_nil _ _)
    rw [coalesce, if_neg hfree]
    refine ⟨m', Returns.of_turn hturn hr, ⟨?_, hlaid⟩, hk.cons⟩
    exact hl.1.congr fun x h1 h2 => (hk.keeps hl.2).outside x (by omega)

end OsKernel
