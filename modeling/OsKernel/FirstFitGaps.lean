import OsKernel.FirstFit

/-! # What is free in a first-fit heap

A gap is a maximal stretch of a range none of whose points is covered.  In a heap with no
two free neighbours the gaps between the chunks in use are exactly the free chunks with
their headers, so a request that looks at one chunk at a time finds the lowest gap that is
large enough, or there is none.  What is free stays free until a request takes it:
`FreeAt` follows the header of a chunk given back through all joins to come.
-/
namespace OsKernel

/-! ## Gaps -/

/-- `[x, y)` is a maximal stretch of `[lo, hi)` with no covered point. -/
structure Gap (covered : Nat → Prop) (lo hi x y : Nat) : Prop where
  lower : lo ≤ x
  nonempty : x < y
  upper : y ≤ hi
  clear : ∀ z, x ≤ z → z < y → ¬ covered z
  left : x = lo ∨ covered (x - 1)
  right : y = hi ∨ covered y

section Gap
variable {covered covered' : Nat → Prop} {lo hi x y x' y' : Nat}

/-- A gap is not extended by another that shares a point with it. -/
theorem Gap.le_of_overlap (h : Gap covered lo hi x y) (h' : Gap covered lo hi x' y')
    (hlt : x' < y) : x' ≤ x ∧ y' ≤ y := by
  constructor
  · by_contra hgt
    rcases h'.left with heq | hcov
    · have := h.lower
      omega
    · exact h.clear (x' - 1) (by omega) (by omega) hcov
  · by_contra hgt
    rcases h.right with heq | hcov
    · have := h'.upper
      omega
    · exact h'.clear y (by omega) (by omega) hcov

/-- **Gaps that share a point are the same gap.** -/
theorem Gap.eq_of_overlap (h : Gap covered lo hi x y) (h' : Gap covered lo hi x' y')
    (hlt : x < y') (hlt' : x' < y) : x = x' ∧ y = y' := by
  have h1 := h.le_of_overlap h' hlt'
  have h2 := h'.le_of_overlap h hlt
  omega

theorem Gap.congr (h : Gap covered lo hi x y) (hcov : ∀ z, covered' z ↔ covered z) :
    Gap covered' lo hi x y where
  lower := h.lower
  nonempty := h.nonempty
  upper := h.upper
  clear := fun z h1 h2 hz => h.clear z h1 h2 ((hcov z).mp hz)
  left := h.left.imp_right (hcov _).mpr
  right := h.right.imp_right (hcov _).mpr

end Gap

/-! ## Free chunks -/

/-- The free chunks of a heap at `a`: header address and size. -/
def freeFrom (hdr : Nat) : Nat → List Chunk → List (Nat × Nat)
  | _, [] => []
  | a, c :: cs =>
    if c.isFree then (a, c.size) :: freeFrom hdr (a + hdr + c.size) cs
    else freeFrom hdr (a + hdr + c.size) cs

/-- A byte of a chunk in use or of its header. -/
def InUse (hdr a : Nat) (cs : List Chunk) (x : Nat) : Prop :=
  ∃ u ∈ usedFrom hdr a cs, u.1 ≤ x ∧ x < u.1 + hdr + u.2

variable {hdr a n o x y : Nat} {c : Chunk} {cs cs' : List Chunk} {f : Nat × Nat}

theorem freeFrom_free (h : c.isFree = true) :
    freeFrom hdr a (c :: cs) = (a, c.size) :: freeFrom hdr (a + hdr + c.size) cs := by
  rw [freeFrom, if_pos h]

theorem freeFrom_used (h : ¬ c.isFree = true) :
    freeFrom hdr a (c :: cs) = freeFrom hdr (a + hdr + c.size) cs := by
  rw [freeFrom, if_neg h]

theorem mem_freeFrom_tail (h : f ∈ freeFrom hdr (a + hdr + c.size) cs) :
    f ∈ freeFrom hdr a (c :: cs) := by
  rw [freeFrom]
  split
  · exact List.mem_cons_of_mem _ h
  · exact h

theorem mem_freeFrom_cons (h : f ∈ freeFrom hdr a (c :: cs)) :
    (c.isFree = true ∧ f = (a, c.size)) ∨ f ∈ freeFrom hdr (a + hdr + c.size) cs := by
  rw [freeFrom] at h
  split at h
  case isTrue hc => exact (List.mem_cons.mp h).imp_left fun hf => ⟨hc, hf⟩
  case isFalse => exact Or.inr h

theorem freeFrom_append (a : Nat) (pre post : List Chunk) :
    freeFrom hdr a (pre ++ post) = freeFrom hdr a pre ++ freeFrom hdr (a + span hdr pre) post := by
  induction pre generalizing a with
  | nil => rfl
  | cons c pre ih =>
    rw [span_cons, List.cons_append]
    by_cases hc : c.isFree = true
    · rw [freeFrom_free hc, freeFrom_free hc, ih, Nat.add_assoc a, Nat.add_assoc]
      rfl
    · rw [freeFrom_used hc, freeFrom_used hc, ih, Nat.add_assoc a, Nat.add_assoc]

theorem freeFrom_bounds (hf : f ∈ freeFrom hdr a cs) :
    a ≤ f.1 ∧ f.1 + hdr + f.2 ≤ a + span hdr cs := by
  induction cs generalizing a with
  | nil => exact absurd hf List.not_mem_nil
  | cons c cs ih =>
    rw [span_cons]
    rcases mem_freeFrom_cons hf with ⟨-, rfl⟩ | hf
    · dsimp only
      omega
    · have := ih hf
      omega

/-- A header other than that of a free chunk lies outside of it. -/
theorem freeFrom_headers {b : Nat} (hf : f ∈ freeFrom hdr a cs) (hb : b ∈ headersFrom hdr a cs) :
    b = f.1 ∨ b + hdr ≤ f.1 ∨ f.1 + hdr + f.2 ≤ b := by
  induction cs generalizing a with
  | nil => exact absurd hf List.not_mem_nil
  | cons c cs ih =>
    rcases mem_freeFrom_cons hf with ⟨-, rfl⟩ | hf <;> rcases List.mem_cons.mp hb with rfl | hb
    · exact Or.inl rfl
    · exact Or.inr (Or.inr (headersFrom_bounds hb).1)
    · have := (freeFrom_bounds hf).1
      exact Or.inr (Or.inl (by omega))
    · exact ih hf hb

/-- A live request lies outside of every free chunk. -/
theorem freeFrom_live {e : Nat × Nat} (hf : f ∈ freeFrom hdr a cs)
    (he : e ∈ liveFrom hdr a cs) : e.1 + e.2 ≤ f.1 ∨ f.1 + hdr + f.2 ≤ e.1 := by
  induction cs generalizing a with
  | nil => exact absurd hf List.not_mem_nil
  | cons c cs ih =>
    cases hreq : c.request with
    | none =>
      rw [liveFrom_none hreq] at he
      rcases mem_freeFrom_cons hf with ⟨-, rfl⟩ | hf
      · have := (liveFrom_bounds he).1
        exact Or.inr (by dsimp only; omega)
      · exact ih hf he
    | some n =>
      rw [liveFrom_some hreq, List.mem_cons] at he
      rw [freeFrom_used (by simp [Chunk.isFree, hreq])] at hf
      rcases he with rfl | he
      · have h1 := c.fits n hreq
        have h2 := (freeFrom_bounds hf).1
        exact Or.inl (by dsimp only; omega)
      · exact ih hf he

/-! ## Free chunks are the gaps -/

theorem inUse_bounds (h : InUse hdr a cs x) : a ≤ x := by
  obtain ⟨u, hu, hle, -⟩ := h
  exact (usedFrom_bounds hu).trans hle

theorem InUse.cons (h : InUse hdr (a + hdr + c.size) cs x) : InUse hdr a (c :: cs) x := by
  obtain ⟨u, hu, hx⟩ := h
  refine ⟨u, ?_, hx⟩
  rw [usedFrom]
  split
  · exact hu
  · exact List.mem_cons_of_mem _ hu

/-- The first chunk covers its own bytes, if it is in use. -/
theorem inUse_head (hc : ¬ c.isFree = true) (h1 : a ≤ x) (h2 : x < a + hdr + c.size) :
    InUse hdr a (c :: cs) x := by
  refine ⟨(a, c.size), ?_, h1, h2⟩
  rw [usedFrom_used hc]
  exact List.mem_cons_self

/-- A byte in use is a byte of the first chunk, or of one after it. -/
theorem InUse.cases (h : InUse hdr a (c :: cs) x) :
    (¬ c.isFree = true ∧ a ≤ x ∧ x < a + hdr + c.size) ∨
      InUse hdr (a + hdr + c.size) cs x := by
  obtain ⟨u, hu, h1, h2⟩ := h
  by_cases hc : c.isFree = true
  · rw [usedFrom_free hc] at hu
    exact Or.inr ⟨u, hu, h1, h2⟩
  · rw [usedFrom_used hc, List.mem_cons] at hu
    rcases hu with rfl | hu
    · exact Or.inl ⟨hc, h1, h2⟩
    · exact Or.inr ⟨u, hu, h1, h2⟩

/-- Behind a chunk in use, or at the end: the first byte of a heap that does not start
with a free chunk. -/
theorem inUse_of_not_headFree (hhdr : 0 < hdr) (h : ¬ HeadFree cs) :
    a = a + span hdr cs ∨ InUse hdr a cs a := by
  cases cs with
  | nil => exact Or.inl rfl
  | cons c cs =>
    rw [headFree_cons] at h
    exact Or.inr (inUse_head h (Nat.le_refl a) (by omega))

/-- No byte of a free chunk or of its header is in use. -/
theorem freeFrom_clear (hf : f ∈ freeFrom hdr a cs) (h1 : f.1 ≤ x) (h2 : x < f.1 + hdr + f.2) :
    ¬ InUse hdr a cs x := by
  induction cs generalizing a with
  | nil => exact absurd hf List.not_mem_nil
  | cons c cs ih =>
    intro huse
    rcases mem_freeFrom_cons hf with ⟨hc, rfl⟩ | hf <;>
      rcases huse.cases with ⟨hused, h3, h4⟩ | htail
    · exact hused hc
    · have := inUse_bounds htail
      dsimp only at h2
      omega
    · have := (freeFrom_bounds hf).1
      omega
    · exact ih hf htail

/-- A byte of the heap that is not in use belongs to a free chunk. -/
theorem exists_freeFrom (h1 : a ≤ x) (h2 : x < a + span hdr cs) (hno : ¬ InUse hdr a cs x) :
    ∃ f ∈ freeFrom hdr a cs, f.1 ≤ x ∧ x < f.1 + hdr + f.2 := by
  induction cs generalizing a with
  | nil =>
    rw [span_nil] at h2
    omega
  | cons c cs ih =>
    rw [span_cons] at h2
    by_cases hin : x < a + hdr + c.size
    · have hc : c.isFree = true := by
        by_contra hc
        exact hno (inUse_head hc h1 hin)
      refine ⟨(a, c.size), ?_, h1, hin⟩
      rw [freeFrom_free hc]
      exact List.mem_cons_self
    · obtain ⟨f, hf, hx⟩ := ih (by omega) (by omega) fun h => hno h.cons
      exact ⟨f, mem_freeFrom_tail hf, hx⟩

/-- A free chunk at the very start is the first chunk. -/
theorem headFree_of_mem (hhdr : 0 < hdr) (hf : f ∈ freeFrom hdr a cs) (ha : f.1 = a) :
    HeadFree cs := by
  cases cs with
  | nil => exact absurd hf List.not_mem_nil
  | cons c cs =>
    rw [headFree_cons]
    rcases mem_freeFrom_cons hf with ⟨hc, -⟩ | hf
    · exact hc
    · have := (freeFrom_bounds hf).1
      omega

/-- A free chunk of a settled heap is a gap. -/
theorem freeFrom_gap (hhdr : 0 < hdr) (hs : Settled cs) (hf : f ∈ freeFrom hdr a cs) :
    Gap (InUse hdr a cs) a (a + span hdr cs) f.1 (f.1 + hdr + f.2) := by
  have hbound := freeFrom_bounds hf
  refine ⟨hbound.1, by omega, hbound.2, fun z => freeFrom_clear hf, ?_, ?_⟩
  · -- to the left: the chunk before it is in use, since no two free ones are neighbours
    induction cs generalizing a with
    | nil => exact absurd hf List.not_mem_nil
    | cons c cs ih =>
      rw [settled_cons] at hs
      rcases mem_freeFrom_cons hf with ⟨-, rfl⟩ | hf
      · exact Or.inl rfl
      · rcases ih hs.2 hf (freeFrom_bounds hf) with heq | hcov
        · have hc : ¬ c.isFree = true := fun hc => hs.1 hc (headFree_of_mem hhdr hf heq)
          exact Or.inr (inUse_head hc (by omega) (by omega))
        · exact Or.inr hcov.cons
  · induction cs generalizing a with
    | nil => exact absurd hf List.not_mem_nil
    | cons c cs ih =>
      rw [settled_cons] at hs
      rw [span_cons]
      rcases mem_freeFrom_cons hf with ⟨hc, rfl⟩ | hf
      · rcases @inUse_of_not_headFree hdr (a + hdr + c.size) cs hhdr (hs.1 hc) with heq | huse
        · exact Or.inl (by dsimp only; omega)
        · exact Or.inr huse.cons
      · rcases ih hs.2 hf (freeFrom_bounds hf) with heq | huse
        · exact Or.inl (by omega)
        · exact Or.inr huse.cons

/-- **The gaps of a settled heap are its free chunks.** -/
theorem gap_iff_freeFrom (hhdr : 0 < hdr) (hs : Settled cs) :
    Gap (InUse hdr a cs) a (a + span hdr cs) x y ↔
      ∃ size, (x, size) ∈ freeFrom hdr a cs ∧ y = x + hdr + size := by
  constructor
  · intro h
    have hlast := h.upper
    have hnonempty := h.nonempty
    obtain ⟨f, hf, h1, h2⟩ :=
      exists_freeFrom h.lower (by omega) (h.clear x (Nat.le_refl x) h.nonempty)
    obtain ⟨rfl, rfl⟩ := h.eq_of_overlap (freeFrom_gap hhdr hs hf) h2 (by omega)
    exact ⟨f.2, hf, rfl⟩
  · rintro ⟨size, hf, rfl⟩
    exact freeFrom_gap hhdr hs hf

/-! ## First fit -/

/-- A request fails exactly if no free chunk is large enough. -/
theorem place_eq_none_iff (a : Nat) :
    place hdr n cs = none ↔ ∀ f ∈ freeFrom hdr a cs, f.2 < n := by
  induction cs generalizing a with
  | nil => exact ⟨fun _ f hf => absurd hf List.not_mem_nil, fun _ => rfl⟩
  | cons c cs ih =>
    by_cases hc : c.isFree = true
    · rw [freeFrom_free hc, List.forall_mem_cons]
      by_cases hn : n ≤ c.size
      · rw [place, dif_pos ⟨hc, hn⟩]
        exact ⟨fun h => (by cases h), fun h => absurd h.1 (by dsimp only; omega)⟩
      · rw [place, dif_neg fun h => hn h.2, Option.map_eq_none_iff, ih (a + hdr + c.size)]
        exact ⟨fun h => ⟨by dsimp only; omega, h⟩, And.right⟩
    · rw [place, dif_neg fun h => hc h.1, Option.map_eq_none_iff, freeFrom_used hc]
      exact ih _

/-- **A request takes the lowest free chunk that is large enough.** -/
theorem place_lowest (h : place hdr n cs = some (o, cs')) (a : Nat) :
    (∃ size, (a + o, size) ∈ freeFrom hdr a cs ∧ n ≤ size) ∧
      ∀ f ∈ freeFrom hdr a cs, n ≤ f.2 → a + o ≤ f.1 := by
  induction cs generalizing a o cs' with
  | nil => cases h
  | cons c cs ih =>
    rw [place] at h
    split at h
    case isTrue hfit =>
      obtain ⟨rfl, -⟩ := Prod.mk.inj (Option.some.inj h)
      refine ⟨⟨c.size, ?_, hfit.2⟩, fun f hf _ => (freeFrom_bounds hf).1⟩
      rw [freeFrom_free hfit.1]
      exact List.mem_cons_self
    case isFalse hfit =>
      obtain ⟨⟨o', cs''⟩, hplace, heq⟩ := Option.map_eq_some_iff.mp h
      obtain ⟨rfl, -⟩ := Prod.mk.inj heq
      obtain ⟨⟨size, hf, hn⟩, hlow⟩ := ih hplace (a + hdr + c.size)
      dsimp only
      rw [show a + (hdr + c.size + o') = a + hdr + c.size + o' by omega]
      refine ⟨⟨size, mem_freeFrom_tail hf, hn⟩, fun f hf hn => ?_⟩
      rcases mem_freeFrom_cons hf with ⟨hc, rfl⟩ | hf
      · exact absurd ⟨hc, hn⟩ hfit
      · exact hlow f hf hn

/-- The chunk a request is served from: the first free one that is large enough. -/
def fitting (n : Nat) (cs : List Chunk) : Option Chunk :=
  cs.find? fun c => decide (c.isFree ∧ n ≤ c.size)

theorem fitting_pos (h : c.isFree ∧ n ≤ c.size) : fitting n (c :: cs) = some c :=
  List.find?_cons_of_pos (decide_eq_true h)

theorem fitting_neg (h : ¬ (c.isFree ∧ n ≤ c.size)) : fitting n (c :: cs) = fitting n cs :=
  List.find?_cons_of_neg (by rw [decide_eq_true_iff]; exact h)

theorem fitting_eq_none (h : place hdr n cs = none) : fitting n cs = none := by
  induction cs with
  | nil => rfl
  | cons c cs ih =>
    rw [place] at h
    split at h
    case isTrue => cases h
    case isFalse hfit =>
      rw [fitting_neg hfit]
      exact ih (Option.map_eq_none_iff.mp h)

/-- The headers after a request: one more if it splits a chunk, behind what it took. -/
theorem place_headers (h : place hdr n cs = some (o, cs')) (a : Nat) :
    a + o ∈ headersFrom hdr a cs ∧ ∃ c, fitting n cs = some c ∧
      ∀ x, x ∈ headersFrom hdr a cs' ↔
        x ∈ headersFrom hdr a cs ∨ (n + hdr < c.size ∧ x = a + o + hdr + n) := by
  induction cs generalizing a o cs' with
  | nil => cases h
  | cons c cs ih =>
    rw [place] at h
    split at h
    case isTrue hfit =>
      obtain ⟨rfl, rfl⟩ := Prod.mk.inj (Option.some.inj h)
      refine ⟨List.mem_cons_self, c, fitting_pos hfit, fun x => ?_⟩
      split
      case isTrue hsplit =>
        simp only [headersFrom, Chunk.used, Chunk.avail, List.mem_cons, Nat.add_zero]
        rw [show a + hdr + n + hdr + (c.size - n - hdr) = a + hdr + c.size by omega, or_assoc]
        exact or_congr_right (Or.comm.trans (or_congr_right (and_iff_right hsplit).symm))
      case isFalse hsplit =>
        simp [headersFrom, Chunk.used, hsplit]
    case isFalse hfit =>
      obtain ⟨⟨o', cs''⟩, hplace, heq⟩ := Option.map_eq_some_iff.mp h
      obtain ⟨rfl, rfl⟩ := Prod.mk.inj heq
      obtain ⟨hmem, d, hd, hiff⟩ := ih hplace (a + hdr + c.size)
      dsimp only
      rw [show a + (hdr + c.size + o') = a + hdr + c.size + o' by omega, fitting_neg hfit]
      refine ⟨List.mem_cons_of_mem _ hmem, d, hd, fun x => ?_⟩
      rw [headersFrom, headersFrom, List.mem_cons, List.mem_cons, hiff, or_assoc]

/-- A join drops headers, and makes none. -/
theorem headersFrom_coalesce (h : x ∈ headersFrom hdr a (coalesce hdr cs)) :
    x ∈ headersFrom hdr a cs := by
  induction cs using coalesce.induct hdr generalizing a with
  | case1 => rwa [coalesce] at h
  | case2 c => rwa [coalesce] at h
  | case3 c d cs hfree ih =>
    rw [coalesce, if_pos hfree] at h
    rcases List.mem_cons.mp (ih h) with rfl | htail
    · exact List.mem_cons_self
    · refine List.mem_cons_of_mem _ (List.mem_cons_of_mem _ ?_)
      rwa [show a + hdr + (Chunk.avail (c.size + (hdr + d.size))).size =
        a + hdr + c.size + hdr + d.size by simp only [Chunk.avail]; omega] at htail
  | case4 c d cs hfree ih =>
    rw [coalesce, if_neg hfree] at h
    rcases List.mem_cons.mp h with rfl | htail
    · exact List.mem_cons_self
    · exact List.mem_cons_of_mem _ (ih htail)

/-! ## What is free stays free -/

/-- The chunk `f` lies inside the chunk `f'`: it starts where `f'` does or behind the
header of `f'`, and ends no later. -/
def Within (hdr : Nat) (f f' : Nat × Nat) : Prop :=
  (f'.1 = f.1 ∨ f'.1 + hdr ≤ f.1) ∧ f.1 + f.2 ≤ f'.1 + f'.2

theorem Within.refl (f : Nat × Nat) : Within hdr f f := ⟨Or.inl rfl, Nat.le_refl _⟩

theorem Within.trans {f' f'' : Nat × Nat} (h : Within hdr f f') (h' : Within hdr f' f'') :
    Within hdr f f'' := by
  obtain ⟨hstart, hend⟩ := h
  obtain ⟨hstart', hend'⟩ := h'
  exact ⟨by omega, by omega⟩

theorem Within.size_le {f' : Nat × Nat} (h : Within hdr f f') : f.2 ≤ f'.2 := by
  obtain ⟨hstart, hend⟩ := h
  omega

/-- The chunk `f`, once a chunk of the heap, lies inside a free one. -/
def FreeAt (hdr a : Nat) (cs : List Chunk) (f : Nat × Nat) : Prop :=
  ∃ f' ∈ freeFrom hdr a cs, Within hdr f f'

theorem freeAt_of_mem (h : f ∈ freeFrom hdr a cs) : FreeAt hdr a cs f := ⟨f, h, .refl f⟩

/-- A request fails only if no free stretch has room for it. -/
theorem FreeAt.place_ne_none (h : FreeAt hdr a cs f) (hn : n ≤ f.2) : place hdr n cs ≠ none := by
  obtain ⟨f', hf', hin⟩ := h
  intro hnone
  have hlt := (place_eq_none_iff a).mp hnone f' hf'
  have hle := hin.size_le
  omega

/-- Giving a chunk back leaves the others free that were free. -/
theorem release_free (o : Nat) (h : f ∈ freeFrom hdr a cs) :
    f ∈ freeFrom hdr a (release hdr o cs) := by
  induction cs generalizing a o with
  | nil => exact absurd h List.not_mem_nil
  | cons c cs ih =>
    rw [release]
    split
    · rw [freeFrom_free (Chunk.isFree_avail _)]
      rcases mem_freeFrom_cons h with ⟨-, rfl⟩ | h
      · exact List.mem_cons_self
      · exact List.mem_cons_of_mem _ h
    · rcases mem_freeFrom_cons h with ⟨hc, rfl⟩ | h
      · rw [freeFrom_free hc]
        exact List.mem_cons_self
      · exact mem_freeFrom_tail (ih _ h)

/-- The chunk of a live request is free once it is given back. -/
theorem release_free_self (hhdr : 0 < hdr) {e : Nat × Nat} (he : e ∈ liveFrom hdr a cs) :
    FreeAt hdr a (release hdr (e.1 - hdr - a) cs) (e.1 - hdr, e.2) := by
  obtain ⟨pre, c, post, rfl, hreq, heq, hrel⟩ := release_live_chunk hhdr he
  have hfits := c.fits _ hreq
  refine ⟨(a + span hdr pre, c.size), ?_, ?_⟩
  · rw [hrel, freeFrom_append, freeFrom_free (Chunk.isFree_avail _)]
    exact List.mem_append_right _ List.mem_cons_self
  · rw [heq, Nat.add_sub_cancel]
    exact ⟨Or.inl rfl, Nat.add_le_add_left hfits _⟩

/-- **A join keeps what is free inside a free chunk.** -/
theorem coalesce_free (h : f ∈ freeFrom hdr a cs) : FreeAt hdr a (coalesce hdr cs) f := by
  induction cs using coalesce.induct hdr generalizing a f with
  | case1 => exact absurd h List.not_mem_nil
  | case2 c =>
    rw [coalesce]
    exact freeAt_of_mem h
  | case3 c d cs hfree ih =>
    rw [coalesce, if_pos hfree]
    -- each of the two chunks lies in the joined one
    have hjoin : ∀ g, g ∈ freeFrom hdr a (.avail (c.size + (hdr + d.size)) :: cs) →
        Within hdr f g → FreeAt hdr a
          (coalesce hdr (.avail (c.size + (hdr + d.size)) :: cs)) f := by
      intro g hg hin
      obtain ⟨f', hf', hin'⟩ := ih hg
      exact ⟨f', hf', hin.trans hin'⟩
    rw [freeFrom_free (Chunk.isFree_avail _)] at hjoin
    simp only [Chunk.avail] at hjoin
    rw [freeFrom_free hfree.1, freeFrom_free hfree.2, List.mem_cons, List.mem_cons] at h
    rcases h with rfl | rfl | h
    · exact hjoin _ List.mem_cons_self ⟨Or.inl rfl, by dsimp only; omega⟩
    · exact hjoin _ List.mem_cons_self ⟨Or.inr (by dsimp only; omega), by dsimp only; omega⟩
    · refine hjoin f (List.mem_cons_of_mem _ ?_) (.refl f)
      rw [show a + hdr + (c.size + (hdr + d.size)) = a + hdr + c.size + hdr + d.size by omega]
      exact h
  | case4 c d cs hfree ih =>
    rw [coalesce, if_neg hfree]
    rcases mem_freeFrom_cons h with ⟨hc, rfl⟩ | h
    · rw [FreeAt, freeFrom_free hc]
      exact ⟨_, List.mem_cons_self, .refl _⟩
    · obtain ⟨f', hf', hin⟩ := ih h
      exact ⟨f', mem_freeFrom_tail hf', hin⟩

theorem FreeAt.release (h : FreeAt hdr a cs f) (o : Nat) :
    FreeAt hdr a (release hdr o cs) f := by
  obtain ⟨f', hf', hin⟩ := h
  exact ⟨f', release_free o hf', hin⟩

theorem FreeAt.coalesce (h : FreeAt hdr a cs f) : FreeAt hdr a (coalesce hdr cs) f := by
  obtain ⟨f', hf', hin⟩ := h
  obtain ⟨f'', hf'', hin'⟩ := coalesce_free hf'
  exact ⟨f'', hf'', hin.trans hin'⟩

end OsKernel
