import Mathlib.Algebra.Ring.Nat
import Mathlib.Data.List.Chain
import Mathlib.Data.List.Perm.Basic

/-! # First-fit heaps

A heap is a list of chunks that lie one after the other, each a header of `hdr`
bytes followed by its payload.  A request takes the first free chunk that is large
enough and splits off the rest when a header and more fits into it (`place`);
a chunk is given back by its offset (`release`); and one pass from the left joins
neighbouring free chunks (`coalesce`).  The three operations keep the total size,
account for the live requests exactly, and the pass leaves no two free neighbours.
-/
namespace OsKernel

/-- A chunk: the size of its payload and, if it is in use, the size that was asked
for. -/
structure Chunk where
  size : Nat
  request : Option Nat
  fits : ∀ n, request = some n → n ≤ size

namespace Chunk

/-- A free chunk. -/
def avail (size : Nat) : Chunk := ⟨size, none, by simp⟩

/-- A chunk in use for a request of `n` bytes. -/
def used (size n : Nat) (h : n ≤ size) : Chunk := ⟨size, some n, by simpa using h⟩

/-- Whether the chunk is free. -/
def isFree (c : Chunk) : Bool := c.request.isNone

end Chunk

/-- Serves a request of `n` bytes: the offset of the chunk taken, and the new list. -/
def place (hdr n : Nat) : List Chunk → Option (Nat × List Chunk)
  | [] => none
  | c :: cs =>
    if h : c.isFree ∧ n ≤ c.size then
      some (0,
        if n + hdr < c.size then .used n n (Nat.le_refl n) :: .avail (c.size - n - hdr) :: cs
        else .used c.size n h.2 :: cs)
    else (place hdr n cs).map fun r => (hdr + c.size + r.1, c :: r.2)

/-- Frees the chunk at an offset. -/
def release (hdr : Nat) : Nat → List Chunk → List Chunk
  | _, [] => []
  | o, c :: cs =>
    if o = 0 then .avail c.size :: cs else c :: release hdr (o - (hdr + c.size)) cs

/-- Joins neighbouring free chunks, from the left. -/
def coalesce (hdr : Nat) : List Chunk → List Chunk
  | [] => []
  | [c] => [c]
  | c :: d :: cs =>
    if c.isFree ∧ d.isFree then coalesce hdr (.avail (c.size + (hdr + d.size)) :: cs)
    else c :: coalesce hdr (d :: cs)
termination_by cs => cs.length

/-- The number of bytes the chunks cover, headers included. -/
def span (hdr : Nat) (cs : List Chunk) : Nat := (cs.map fun c => hdr + c.size).sum

/-- The live requests of a heap at `a`: payload address and size. -/
def liveFrom (hdr : Nat) : Nat → List Chunk → List (Nat × Nat)
  | _, [] => []
  | a, c :: cs =>
    match c.request with
    | some n => (a + hdr, n) :: liveFrom hdr (a + hdr + c.size) cs
    | none => liveFrom hdr (a + hdr + c.size) cs

/-- The addresses of the headers. -/
def headersFrom (hdr : Nat) : Nat → List Chunk → List Nat
  | _, [] => []
  | a, c :: cs => a :: headersFrom hdr (a + hdr + c.size) cs

/-- No two free neighbours. -/
def Settled (cs : List Chunk) : Prop :=
  cs.IsChain fun c d => ¬ (c.isFree = true ∧ d.isFree = true)

variable {hdr a n o : Nat} {c : Chunk} {cs cs' : List Chunk}

@[simp] theorem span_nil : span hdr [] = 0 := rfl

@[simp] theorem span_cons : span hdr (c :: cs) = hdr + c.size + span hdr cs := by
  simp [span]

theorem liveFrom_some (h : c.request = some n) :
    liveFrom hdr a (c :: cs) = (a + hdr, n) :: liveFrom hdr (a + hdr + c.size) cs := by
  rw [liveFrom, h]

theorem liveFrom_none (h : c.request = none) :
    liveFrom hdr a (c :: cs) = liveFrom hdr (a + hdr + c.size) cs := by
  rw [liveFrom, h]

theorem Chunk.isFree_iff : c.isFree = true ↔ c.request = none := Option.isNone_iff_eq_none

@[simp] theorem Chunk.isFree_avail (size : Nat) : (Chunk.avail size).isFree = true := rfl

@[simp] theorem Chunk.isFree_used (size n : Nat) (h : n ≤ size) :
    (Chunk.used size n h).isFree = false := rfl

/-! ## Where live requests lie -/

/-- A live request lies behind a header, inside the heap. -/
theorem liveFrom_bounds {e : Nat × Nat} (he : e ∈ liveFrom hdr a cs) :
    a + hdr ≤ e.1 ∧ e.1 + e.2 ≤ a + span hdr cs := by
  induction cs generalizing a with
  | nil => exact absurd he List.not_mem_nil
  | cons c cs ih =>
    rw [span_cons]
    cases hreq : c.request with
    | none =>
      rw [liveFrom_none hreq] at he
      have := ih he
      omega
    | some n =>
      rw [liveFrom_some hreq, List.mem_cons] at he
      rcases he with rfl | he
      · have := c.fits n hreq
        dsimp only
        omega
      · have := ih he
        omega

theorem headersFrom_bounds {b : Nat} (hb : b ∈ headersFrom hdr a cs) :
    a ≤ b ∧ b + hdr ≤ a + span hdr cs := by
  induction cs generalizing a with
  | nil => exact absurd hb List.not_mem_nil
  | cons c cs ih =>
    rw [span_cons]
    rcases List.mem_cons.mp hb with rfl | hb
    · omega
    · have := ih hb
      omega

/-- **Live requests are disjoint**: they lie one after the other. -/
theorem pairwise_liveFrom :
    (liveFrom hdr a cs).Pairwise fun e e' => e.1 + e.2 ≤ e'.1 := by
  induction cs generalizing a with
  | nil => exact List.Pairwise.nil
  | cons c cs ih =>
    cases hreq : c.request with
    | none =>
      rw [liveFrom_none hreq]
      exact ih
    | some n =>
      rw [liveFrom_some hreq, List.pairwise_cons]
      refine ⟨fun e he => ?_, ih⟩
      have h1 := (liveFrom_bounds he).1
      have h2 := c.fits n hreq
      dsimp only
      omega

/-- **No header overlaps a live request.** -/
theorem headersFrom_live {b : Nat} {e : Nat × Nat} (hb : b ∈ headersFrom hdr a cs)
    (he : e ∈ liveFrom hdr a cs) : b + hdr ≤ e.1 ∨ e.1 + e.2 ≤ b := by
  induction cs generalizing a with
  | nil => exact absurd hb List.not_mem_nil
  | cons c cs ih =>
    -- the request of the first chunk, if it has one, lies before the other headers
    have hfirst : ∀ n, c.request = some n → ∀ b' ∈ headersFrom hdr (a + hdr + c.size) cs,
        a + hdr + n ≤ b' := by
      intro n hreq b' hb'
      have h1 := c.fits n hreq
      have h2 := (headersFrom_bounds hb').1
      omega
    rcases List.mem_cons.mp hb with rfl | hb
    · exact Or.inl (liveFrom_bounds he).1
    · cases hreq : c.request with
      | none =>
        rw [liveFrom_none hreq] at he
        exact ih hb he
      | some n =>
        rw [liveFrom_some hreq, List.mem_cons] at he
        rcases he with rfl | he
        · exact Or.inr (hfirst n hreq b hb)
        · exact ih hb he

/-! ## Serving a request -/

/-- A served request is live, and so is everything that was live before. -/
theorem place_live (h : place hdr n cs = some (o, cs')) (a : Nat) :
    (liveFrom hdr a cs').Perm ((a + o + hdr, n) :: liveFrom hdr a cs) := by
  induction cs generalizing a o cs' with
  | nil => cases h
  | cons c cs ih =>
    rw [place] at h
    split at h
    case isTrue hfit =>
      have hnone := Chunk.isFree_iff.mp hfit.1
      obtain ⟨rfl, rfl⟩ := Prod.mk.inj (Option.some.inj h)
      rw [liveFrom_none hnone]
      split
      · rw [liveFrom_some (c := .used n n _) rfl, liveFrom_none (c := .avail _) rfl]
        simp only [Chunk.used, Chunk.avail, Nat.add_zero]
        rw [show a + hdr + n + hdr + (c.size - n - hdr) = a + hdr + c.size by omega]
      · rw [liveFrom_some (c := .used c.size n _) rfl]
        simp only [Chunk.used, Nat.add_zero]
        exact List.Perm.refl _
    case isFalse hfit =>
      obtain ⟨⟨o', cs''⟩, hplace, heq⟩ := Option.map_eq_some_iff.mp h
      obtain ⟨rfl, rfl⟩ := Prod.mk.inj heq
      have hperm := ih hplace (a + hdr + c.size)
      rw [show a + hdr + c.size + o' + hdr = a + (hdr + c.size + o') + hdr by omega] at hperm
      cases hreq : c.request with
      | none =>
        rw [liveFrom_none hreq, liveFrom_none hreq]
        exact hperm
      | some k =>
        rw [liveFrom_some hreq, liveFrom_some hreq]
        exact (hperm.cons _).trans (List.Perm.swap _ _ _)

/-- The first chunk is free. -/
def HeadFree (cs : List Chunk) : Prop := ∃ c ∈ cs.head?, c.isFree = true

theorem settled_cons :
    Settled (c :: cs) ↔ (c.isFree = true → ¬ HeadFree cs) ∧ Settled cs := by
  rw [Settled, List.isChain_cons, Settled, HeadFree]
  refine and_congr_left fun _ => ⟨?_, ?_⟩
  · rintro h hc ⟨d, hd, hfree⟩
    exact h d hd ⟨hc, hfree⟩
  · rintro h d hd ⟨hc, hfree⟩
    exact h hc ⟨d, hd, hfree⟩

theorem headFree_cons : HeadFree (c :: cs) ↔ c.isFree = true := by
  simp [HeadFree]

/-- Splitting a free chunk makes no free pair: what follows it is in use. -/
theorem place_settled (h : place hdr n cs = some (o, cs')) (hs : Settled cs) :
    Settled cs' ∧ (HeadFree cs' → HeadFree cs) := by
  induction cs generalizing o cs' with
  | nil => cases h
  | cons c cs ih =>
    rw [place] at h
    rw [settled_cons] at hs
    split at h
    case isTrue hfit =>
      obtain ⟨-, rfl⟩ := Prod.mk.inj (Option.some.inj h)
      split
      · simp only [settled_cons, headFree_cons, Chunk.isFree_used, Chunk.isFree_avail]
        exact ⟨⟨fun hc => (Bool.noConfusion hc), fun _ => hs.1 hfit.1, hs.2⟩,
          fun hc => Bool.noConfusion hc⟩
      · simp only [settled_cons, headFree_cons, Chunk.isFree_used]
        exact ⟨⟨fun hc => Bool.noConfusion hc, hs.2⟩, fun hc => Bool.noConfusion hc⟩
    case isFalse hfit =>
      obtain ⟨⟨o', cs''⟩, hplace, heq⟩ := Option.map_eq_some_iff.mp h
      obtain ⟨-, rfl⟩ := Prod.mk.inj heq
      obtain ⟨hset, hhead⟩ := ih hplace hs.2
      rw [settled_cons, headFree_cons, headFree_cons]
      exact ⟨⟨fun hc hf => hs.1 hc (hhead hf), hset⟩, id⟩

/-! ## Cutting a heap at a chunk -/

theorem liveFrom_append (a : Nat) (pre post : List Chunk) :
    liveFrom hdr a (pre ++ post) = liveFrom hdr a pre ++ liveFrom hdr (a + span hdr pre) post := by
  induction pre generalizing a with
  | nil => rfl
  | cons c pre ih =>
    rw [span_cons, List.cons_append]
    cases hreq : c.request with
    | none => rw [liveFrom_none hreq, liveFrom_none hreq, ih, Nat.add_assoc a, Nat.add_assoc]
    | some n =>
      rw [liveFrom_some hreq, liveFrom_some hreq, ih, Nat.add_assoc a, Nat.add_assoc]
      rfl

/-- A live request is that of a chunk, and lies behind its header. -/
theorem exists_chunk_of_live {e : Nat × Nat} (he : e ∈ liveFrom hdr a cs) :
    ∃ pre c post, cs = pre ++ c :: post ∧ c.request = some e.2 ∧ e.1 = a + span hdr pre + hdr := by
  induction cs generalizing a with
  | nil => exact absurd he List.not_mem_nil
  | cons c cs ih =>
    have htail : e ∈ liveFrom hdr (a + hdr + c.size) cs → ∃ pre d post,
        c :: cs = pre ++ d :: post ∧ d.request = some e.2 ∧ e.1 = a + span hdr pre + hdr := by
      intro he
      obtain ⟨pre, d, post, rfl, hd, heq⟩ := ih he
      exact ⟨c :: pre, d, post, rfl, hd, by rw [heq, span_cons]; omega⟩
    cases hreq : c.request with
    | none =>
      rw [liveFrom_none hreq] at he
      exact htail he
    | some n =>
      rw [liveFrom_some hreq, List.mem_cons] at he
      rcases he with rfl | he
      · exact ⟨[], c, cs, rfl, hreq, rfl⟩
      · exact htail he

/-- A chunk is given back in its place. -/
theorem release_append (hhdr : 0 < hdr) (pre : List Chunk) (c : Chunk) (post : List Chunk) :
    release hdr (span hdr pre) (pre ++ c :: post) = pre ++ .avail c.size :: post := by
  induction pre with
  | nil => rw [List.nil_append, release, if_pos span_nil, List.nil_append]
  | cons d pre ih =>
    rw [List.cons_append, span_cons, release, if_neg (by omega), Nat.add_sub_cancel_left, ih,
      List.cons_append]

/-- Giving back a live request frees its chunk. -/
theorem release_live_chunk (hhdr : 0 < hdr) {e : Nat × Nat} (he : e ∈ liveFrom hdr a cs) :
    ∃ pre c post, cs = pre ++ c :: post ∧ c.request = some e.2 ∧
      e.1 = a + span hdr pre + hdr ∧
      release hdr (e.1 - hdr - a) cs = pre ++ .avail c.size :: post := by
  obtain ⟨pre, c, post, rfl, hreq, heq⟩ := exists_chunk_of_live he
  refine ⟨pre, c, post, rfl, hreq, heq, ?_⟩
  rw [heq, Nat.add_sub_cancel, Nat.add_sub_cancel_left, release_append hhdr]

/-! ## Giving a chunk back -/

/-- Giving back the chunk of a live request removes that request, and no other. -/
theorem release_live (hhdr : 0 < hdr) {e : Nat × Nat} (he : e ∈ liveFrom hdr a cs) :
    (liveFrom hdr a cs).Perm (e :: liveFrom hdr a (release hdr (e.1 - hdr - a) cs)) := by
  obtain ⟨pre, c, post, rfl, hreq, heq, hrel⟩ := release_live_chunk hhdr he
  rw [hrel, liveFrom_append, liveFrom_append, liveFrom_some hreq, liveFrom_none (c := .avail _) rfl,
    ← heq]
  exact List.perm_middle

/-! ## Joining free neighbours -/

theorem coalesce_live (a : Nat) (cs : List Chunk) :
    liveFrom hdr a (coalesce hdr cs) = liveFrom hdr a cs := by
  induction cs using coalesce.induct hdr generalizing a with
  | case1 => rw [coalesce]
  | case2 c => rw [coalesce]
  | case3 c d cs hfree ih =>
    rw [coalesce, if_pos hfree, ih, liveFrom_none (c := .avail _) rfl,
      liveFrom_none (Chunk.isFree_iff.mp hfree.1), liveFrom_none (Chunk.isFree_iff.mp hfree.2)]
    simp only [Chunk.avail]
    rw [show a + hdr + (c.size + (hdr + d.size)) = a + hdr + c.size + hdr + d.size by omega]
  | case4 c d cs hfree ih =>
    rw [coalesce, if_neg hfree, liveFrom, ih]
    rfl

theorem headFree_coalesce (cs : List Chunk) : HeadFree (coalesce hdr cs) ↔ HeadFree cs := by
  induction cs using coalesce.induct hdr with
  | case1 => rw [coalesce]
  | case2 c => rw [coalesce]
  | case3 c d cs hfree ih =>
    rw [coalesce, if_pos hfree, ih, headFree_cons, headFree_cons]
    simp [hfree.1]
  | case4 c d cs hfree ih => rw [coalesce, if_neg hfree, headFree_cons, headFree_cons]

/-- **One pass joins all free neighbours.** -/
theorem coalesce_settled (cs : List Chunk) : Settled (coalesce hdr cs) := by
  induction cs using coalesce.induct hdr with
  | case1 => rw [coalesce]; exact List.isChain_nil
  | case2 c => rw [coalesce]; exact List.isChain_singleton _
  | case3 c d cs hfree ih => rw [coalesce, if_pos hfree]; exact ih
  | case4 c d cs hfree ih =>
    rw [coalesce, if_neg hfree, settled_cons, headFree_coalesce, headFree_cons]
    exact ⟨fun hc hd => hfree ⟨hc, hd⟩, ih⟩

/-- A pass over a heap with no free neighbours changes nothing. -/
theorem coalesce_of_settled (hs : Settled cs) : coalesce hdr cs = cs := by
  induction cs using coalesce.induct hdr with
  | case1 => rw [coalesce]
  | case2 c => rw [coalesce]
  | case3 c d cs hfree ih =>
    rw [settled_cons, headFree_cons] at hs
    exact absurd hfree.2 (hs.1 hfree.1)
  | case4 c d cs hfree ih =>
    rw [coalesce, if_neg hfree, ih (settled_cons.mp hs).2]

/-! ## Canonical form

A heap with no two free neighbours is determined by its chunks in use: what lies between
them is free, and is one chunk.
-/

/-- The chunks in use of a heap at `a`: header address and size. -/
def usedFrom (hdr : Nat) : Nat → List Chunk → List (Nat × Nat)
  | _, [] => []
  | a, c :: cs =>
    if c.isFree then usedFrom hdr (a + hdr + c.size) cs
    else (a, c.size) :: usedFrom hdr (a + hdr + c.size) cs

/-- What a header says of a chunk: its size, and whether it is free. -/
def Chunk.shape (c : Chunk) : Nat × Bool := (c.size, c.isFree)

theorem usedFrom_free (h : c.isFree = true) :
    usedFrom hdr a (c :: cs) = usedFrom hdr (a + hdr + c.size) cs := by
  rw [usedFrom, if_pos h]

theorem usedFrom_used (h : ¬ c.isFree = true) :
    usedFrom hdr a (c :: cs) = (a, c.size) :: usedFrom hdr (a + hdr + c.size) cs := by
  rw [usedFrom, if_neg h]

theorem usedFrom_bounds {e : Nat × Nat} (he : e ∈ usedFrom hdr a cs) : a ≤ e.1 := by
  induction cs generalizing a with
  | nil => exact absurd he List.not_mem_nil
  | cons c cs ih =>
    rw [usedFrom] at he
    split at he
    · have := ih he
      omega
    · rcases List.mem_cons.mp he with rfl | he
      · exact Nat.le_refl a
      · have := ih he
        omega

theorem usedFrom_append (a : Nat) (pre post : List Chunk) :
    usedFrom hdr a (pre ++ post) = usedFrom hdr a pre ++ usedFrom hdr (a + span hdr pre) post := by
  induction pre generalizing a with
  | nil => rfl
  | cons c pre ih =>
    rw [span_cons, List.cons_append]
    by_cases hc : c.isFree = true
    · rw [usedFrom_free hc, usedFrom_free hc, ih, Nat.add_assoc a, Nat.add_assoc]
    · rw [usedFrom_used hc, usedFrom_used hc, ih, Nat.add_assoc a, Nat.add_assoc]
      rfl

theorem usedFrom_increasing (hhdr : 0 < hdr) :
    (usedFrom hdr a cs).Pairwise fun e e' => e.1 < e'.1 := by
  induction cs generalizing a with
  | nil => exact List.Pairwise.nil
  | cons c cs ih =>
    rw [usedFrom]
    split
    · exact ih
    · refine List.pairwise_cons.mpr ⟨fun e he => ?_, ih⟩
      have := usedFrom_bounds he
      dsimp only
      omega

/-- Behind the last chunk, or at the first one if that is in use. -/
theorem usedFrom_first (h : ¬ HeadFree cs) :
    ((usedFrom hdr a cs).head?.map Prod.fst).getD (a + span hdr cs) = a := by
  cases cs with
  | nil => rfl
  | cons c cs =>
    rw [headFree_cons] at h
    rw [usedFrom_used h]
    rfl

/-- A chunk in use begins where no chunk behind a free one does. -/
theorem usedFrom_free_ne_used (hhdr : 0 < hdr) (hc : c.isFree = true) (hc' : ¬ c'.isFree = true) :
    usedFrom hdr a (c :: cs) ≠ usedFrom hdr a (c' :: cs') := by
  intro hused
  rw [usedFrom_free hc, usedFrom_used hc'] at hused
  have := usedFrom_bounds (hused ▸ List.mem_cons_self)
  dsimp only at this
  omega

/-- **A settled heap is determined by its chunks in use.** -/
theorem settled_determined (hhdr : 0 < hdr) (hs : Settled cs) (hs' : Settled cs')
    (hspan : span hdr cs = span hdr cs') (hused : usedFrom hdr a cs = usedFrom hdr a cs') :
    cs.map Chunk.shape = cs'.map Chunk.shape := by
  induction cs generalizing a cs' with
  | nil =>
    cases cs' with
    | nil => rfl
    | cons c' cs' =>
      rw [span_nil, span_cons] at hspan
      omega
  | cons c cs ih =>
    cases cs' with
    | nil =>
      rw [span_nil, span_cons] at hspan
      omega
    | cons c' cs' =>
      rw [settled_cons] at hs hs'
      rw [span_cons, span_cons] at hspan
      -- once the first chunks agree, so do the others
      have hrest : c.shape = c'.shape →
          usedFrom hdr (a + hdr + c.size) cs = usedFrom hdr (a + hdr + c'.size) cs' →
          (c :: cs).map Chunk.shape = (c' :: cs').map Chunk.shape := by
        intro hshape htail
        have hsize : c.size = c'.size := congrArg Prod.fst hshape
        rw [← hsize] at htail
        rw [List.map_cons, List.map_cons, hshape, ih hs.2 hs'.2 (by omega) htail]
      by_cases hc : c.isFree = true <;> by_cases hc' : c'.isFree = true
      · rw [usedFrom_free hc, usedFrom_free hc'] at hused
        have h1 := @usedFrom_first hdr (a + hdr + c.size) cs (hs.1 hc)
        have h2 := @usedFrom_first hdr (a + hdr + c'.size) cs' (hs'.1 hc')
        rw [hused, show a + hdr + c.size + span hdr cs = a + hdr + c'.size + span hdr cs' by omega,
          h2] at h1
        refine hrest ?_ hused
        rw [Chunk.shape, Chunk.shape, hc, hc', show c.size = c'.size by omega]
      · exact absurd hused (usedFrom_free_ne_used hhdr hc hc')
      · exact absurd hused.symm (usedFrom_free_ne_used hhdr hc' hc)
      · rw [usedFrom_used hc, usedFrom_used hc'] at hused
        obtain ⟨hhead, htail⟩ := List.cons.inj hused
        have hsize : c.size = c'.size := congrArg Prod.snd hhead
        refine hrest ?_ htail
        rw [Chunk.shape, Chunk.shape, hsize, Bool.eq_false_iff.mpr hc, Bool.eq_false_iff.mpr hc']

/-- Joining free neighbours leaves the chunks in use. -/
theorem coalesce_used (a : Nat) (cs : List Chunk) :
    usedFrom hdr a (coalesce hdr cs) = usedFrom hdr a cs := by
  induction cs using coalesce.induct hdr generalizing a with
  | case1 => rw [coalesce]
  | case2 c => rw [coalesce]
  | case3 c d cs hfree ih =>
    rw [coalesce, if_pos hfree, ih, usedFrom_free (Chunk.isFree_avail _), usedFrom_free hfree.1,
      usedFrom_free hfree.2]
    simp only [Chunk.avail]
    rw [show a + hdr + (c.size + (hdr + d.size)) = a + hdr + c.size + hdr + d.size by omega]
  | case4 c d cs hfree ih =>
    rw [coalesce, if_neg hfree, usedFrom, ih]
    rfl

/-- Giving back the chunk of a live request removes that chunk from those in use. -/
theorem mem_usedFrom_release (hhdr : 0 < hdr) {e : Nat × Nat} (he : e ∈ liveFrom hdr a cs)
    (u : Nat × Nat) : u ∈ usedFrom hdr a (release hdr (e.1 - hdr - a) cs) ↔
      u ∈ usedFrom hdr a cs ∧ u.1 ≠ e.1 - hdr := by
  obtain ⟨pre, c, post, rfl, hreq, heq, hrel⟩ := release_live_chunk hhdr he
  have hc : ¬ c.isFree = true := by simp [Chunk.isFree, hreq]
  have hinc := @usedFrom_increasing hdr a (pre ++ c :: post) hhdr
  rw [usedFrom_append, usedFrom_used hc] at hinc ⊢
  rw [hrel, usedFrom_append, usedFrom_free (Chunk.isFree_avail _), heq, Nat.add_sub_cancel]
  -- the other chunks in use have other addresses
  obtain ⟨-, hpost, hpre⟩ := List.pairwise_append.mp hinc
  have hbefore : u ∈ usedFrom hdr a pre → u.1 ≠ a + span hdr pre :=
    fun hu => (hpre u hu _ List.mem_cons_self).ne
  have hafter : u ∈ usedFrom hdr (a + span hdr pre + hdr + c.size) post →
      u.1 ≠ a + span hdr pre := fun hu => ((List.pairwise_cons.mp hpost).1 u hu).ne'
  simp only [Chunk.avail, List.mem_append, List.mem_cons]
  constructor
  · rintro (hu | hu)
    · exact ⟨Or.inl hu, hbefore hu⟩
    · exact ⟨Or.inr (Or.inr hu), hafter hu⟩
  · rintro ⟨hu | rfl | hu, hne⟩
    · exact Or.inl hu
    · exact absurd rfl hne
    · exact Or.inr hu

/-- Chunks in use are listed by address, so they are determined as a set. -/
theorem usedFrom_ext (hhdr : 0 < hdr)
    (h : ∀ u, u ∈ usedFrom hdr a cs ↔ u ∈ usedFrom hdr a cs') :
    usedFrom hdr a cs = usedFrom hdr a cs' := by
  have hinc : ∀ ds : List Chunk, (usedFrom hdr a ds).Pairwise fun e e' => e.1 < e'.1 :=
    fun _ => usedFrom_increasing hhdr
  have hnodup : ∀ ds : List Chunk, (usedFrom hdr a ds).Nodup :=
    fun ds => (hinc ds).imp fun hlt heq => absurd (heq ▸ hlt) (Nat.lt_irrefl _)
  have hperm := (List.perm_ext_iff_of_nodup (hnodup cs) (hnodup cs')).mpr h
  apply hperm.eq_of_pairwise _ (hinc cs) (hinc cs')
  intro e e' _ _ hlt hgt
  exact absurd hgt (Nat.lt_asymm hlt)

end OsKernel
