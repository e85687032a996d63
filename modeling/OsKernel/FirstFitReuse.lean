import OsKernel.FirstFitGaps

/-! # What a request takes from a first-fit heap

A request cuts the first free chunk that is large enough (`place_split`).  So it adds one
chunk to those in use and shortens one free chunk at most (`place_used`, `place_room`), and a
request that is given back can be made again: also when another one of the same size was
served in between, it takes the same chunk, and leaves the same heap (`place_again`).
-/
namespace OsKernel

/-- A free chunk after it has served a request. -/
def cut (hdr n : Nat) (c : Chunk) (h : n ≤ c.size) : List Chunk :=
  if n + hdr < c.size then [.used n n (Nat.le_refl n), .avail (c.size - n - hdr)]
  else [.used c.size n h]

variable {hdr a n o o' : Nat} {c d : Chunk} {pre post cs cs' cs₁ cs₂ : List Chunk}
  {f : Nat × Nat}

theorem cut_split (hn : n ≤ c.size) (h : n + hdr < c.size) :
    cut hdr n c hn = [.used n n (Nat.le_refl n), .avail (c.size - n - hdr)] := if_pos h

theorem cut_whole (hn : n ≤ c.size) (h : c.size ≤ n + hdr) :
    cut hdr n c hn = [.used c.size n hn] := if_neg (Nat.not_lt.mpr h)

/-! ## The chunk that is cut -/

theorem place_here (hc : c.isFree = true) (hn : n ≤ c.size) (post : List Chunk) :
    place hdr n (c :: post) = some (0, cut hdr n c hn ++ post) := by
  rw [place, dif_pos ⟨hc, hn⟩, cut]
  split <;> rfl

theorem place_cons_none (h : ¬ (c.isFree = true ∧ n ≤ c.size)) (cs : List Chunk) :
    place hdr n (c :: cs) = (place hdr n cs).map fun r => (hdr + c.size + r.1, c :: r.2) := by
  rw [place, dif_neg h]

/-- Chunks that cannot serve a request are passed over. -/
theorem place_append (hnone : place hdr n pre = none) (cs : List Chunk) :
    place hdr n (pre ++ cs) = (place hdr n cs).map fun r => (span hdr pre + r.1, pre ++ r.2) := by
  induction pre with
  | nil =>
    cases h : place hdr n cs with
    | none => rw [List.nil_append, h, Option.map_none]
    | some r => rw [List.nil_append, h, Option.map_some, span_nil, Nat.zero_add, List.nil_append]
  | cons c pre ih =>
    have hc : ¬ (c.isFree = true ∧ n ≤ c.size) := by
      intro hfit
      rw [place_here hfit.1 hfit.2] at hnone
      cases hnone
    rw [place_cons_none hc, Option.map_eq_none_iff] at hnone
    rw [List.cons_append, place_cons_none hc, ih hnone, Option.map_map]
    congr 1
    funext r
    simp only [Function.comp_apply, span_cons, Nat.add_assoc, List.cons_append]

/-- **What is taken**: the first free chunk that is large enough. -/
theorem place_split (h : place hdr n cs = some (o, cs')) :
    ∃ pre c post, ∃ hn : n ≤ c.size, cs = pre ++ c :: post ∧ o = span hdr pre ∧
      place hdr n pre = none ∧ c.isFree = true ∧ cs' = pre ++ (cut hdr n c hn ++ post) := by
  induction cs generalizing o cs' with
  | nil => cases h
  | cons c cs ih =>
    by_cases hfit : c.isFree = true ∧ n ≤ c.size
    · rw [place_here hfit.1 hfit.2] at h
      obtain ⟨rfl, rfl⟩ := Prod.mk.inj (Option.some.inj h)
      exact ⟨[], c, cs, hfit.2, rfl, rfl, rfl, hfit.1, rfl⟩
    · rw [place_cons_none hfit] at h
      obtain ⟨⟨o', cs''⟩, hplace, heq⟩ := Option.map_eq_some_iff.mp h
      obtain ⟨rfl, rfl⟩ := Prod.mk.inj heq
      obtain ⟨pre, d, post, hn, rfl, rfl, hnone, hd, rfl⟩ := ih hplace
      refine ⟨c :: pre, d, post, hn, rfl, ?_, ?_, hd, rfl⟩
      · rw [span_cons]
      · rw [place_cons_none hfit, hnone, Option.map_none]

/-! ## Chunks in use and free chunks -/

theorem usedFrom_cut (hn : n ≤ c.size) (post : List Chunk) :
    ∃ size, usedFrom hdr a (cut hdr n c hn ++ post) =
      (a, size) :: usedFrom hdr (a + hdr + c.size) post := by
  rw [cut]
  split
  case isTrue hlt =>
    refine ⟨n, ?_⟩
    rw [List.cons_append, List.singleton_append, usedFrom_used (by simp),
      usedFrom_free (Chunk.isFree_avail _)]
    simp only [Chunk.used, Chunk.avail]
    rw [show a + hdr + n + hdr + (c.size - n - hdr) = a + hdr + c.size by omega]
  case isFalse =>
    refine ⟨c.size, ?_⟩
    rw [List.singleton_append, usedFrom_used (by simp)]
    rfl

/-- **A request adds one chunk to those in use**, where none was. -/
theorem place_used (hhdr : 0 < hdr) (h : place hdr n cs = some (o, cs')) (a : Nat) :
    (∃ size, ∀ u, u ∈ usedFrom hdr a cs' ↔ u = (a + o, size) ∨ u ∈ usedFrom hdr a cs) ∧
      ∀ u ∈ usedFrom hdr a cs, u.1 ≠ a + o := by
  obtain ⟨pre, c, post, hn, rfl, rfl, -, hc, rfl⟩ := place_split h
  obtain ⟨size, hcut⟩ := @usedFrom_cut hdr (a + span hdr pre) n c hn post
  have hused : usedFrom hdr a (pre ++ c :: post) =
      usedFrom hdr a pre ++ usedFrom hdr (a + span hdr pre + hdr + c.size) post := by
    rw [usedFrom_append, usedFrom_free hc]
  have hused' : usedFrom hdr a (pre ++ (cut hdr n c hn ++ post)) = usedFrom hdr a pre ++
      (a + span hdr pre, size) :: usedFrom hdr (a + span hdr pre + hdr + c.size) post := by
    rw [usedFrom_append, hcut]
  have hinc := @usedFrom_increasing hdr a (pre ++ (cut hdr n c hn ++ post)) hhdr
  rw [hused'] at hinc
  obtain ⟨-, hpost, hpre⟩ := List.pairwise_append.mp hinc
  rw [hused, hused']
  refine ⟨⟨size, fun u => ?_⟩, fun u hu => ?_⟩
  · rw [List.mem_append, List.mem_append, List.mem_cons]
    exact or_left_comm
  · rcases List.mem_append.mp hu with hu | hu
    · exact (hpre u hu _ List.mem_cons_self).ne
    · exact ((List.pairwise_cons.mp hpost).1 u hu).ne'

/-- **A request shortens one free chunk at most**, by its own size and a header. -/
theorem place_room (h : place hdr n cs = some (o, cs')) (hf : f ∈ freeFrom hdr a cs)
    (hlarge : n + hdr < f.2) : ∃ f' ∈ freeFrom hdr a cs', f.2 ≤ f'.2 + (n + hdr) := by
  obtain ⟨pre, c, post, hn, rfl, rfl, -, hc, rfl⟩ := place_split h
  rw [freeFrom_append, List.mem_append] at hf
  rcases hf with hf | hf
  · refine ⟨f, ?_, Nat.le_add_right _ _⟩
    rw [freeFrom_append]
    exact List.mem_append_left _ hf
  rcases mem_freeFrom_cons hf with ⟨-, rfl⟩ | hf
  · -- the chunk itself is split
    refine ⟨(a + span hdr pre + hdr + n, c.size - n - hdr), ?_, by dsimp only at hlarge ⊢; omega⟩
    rw [freeFrom_append, cut, if_pos hlarge, List.cons_append, List.singleton_append,
      freeFrom_used (by simp), freeFrom_free (Chunk.isFree_avail _)]
    exact List.mem_append_right _ List.mem_cons_self
  · refine ⟨f, ?_, Nat.le_add_right _ _⟩
    rw [freeFrom_append]
    refine List.mem_append_right _ ?_
    rw [cut]
    split
    case isTrue hlt =>
      refine mem_freeFrom_tail (mem_freeFrom_tail ?_)
      simp only [Chunk.used, Chunk.avail]
      rw [show a + span hdr pre + hdr + n + hdr + (c.size - n - hdr) =
        a + span hdr pre + hdr + c.size by omega]
      exact hf
    case isFalse => exact mem_freeFrom_tail hf

/-! ## The same request again -/

theorem coalesce_cons (h : c.isFree = true → ¬ HeadFree cs) :
    coalesce hdr (c :: cs) = c :: coalesce hdr cs := by
  cases cs with
  | nil => rw [coalesce, coalesce]
  | cons d cs =>
    rw [headFree_cons] at h
    rw [coalesce, if_neg fun hboth => h hboth.1 hboth.2]

/-- A pass changes nothing before the first two free neighbours. -/
theorem coalesce_append (hs : Settled (pre ++ [c])) (hc : c.isFree = true) (cs : List Chunk) :
    coalesce hdr (pre ++ cs) = pre ++ coalesce hdr cs := by
  induction pre with
  | nil => rfl
  | cons d pre ih =>
    rw [List.cons_append, settled_cons] at hs
    rw [List.cons_append, coalesce_cons, ih hs.2, List.cons_append]
    intro hd hfree
    apply hs.1 hd
    cases pre with
    | nil => exact headFree_cons.mpr hc
    | cons e pre => exact headFree_cons.mpr (headFree_cons.mp hfree)

theorem coalesce_avail (size : Nat) (h : ¬ HeadFree cs) (hs : Settled cs) :
    coalesce hdr (.avail size :: cs) = .avail size :: cs := by
  rw [coalesce_cons fun _ => h, coalesce_of_settled hs]

theorem settled_append_left (hs : Settled (pre ++ c :: post)) :
    Settled (pre ++ [c]) ∧ Settled (c :: post) := by
  rw [Settled] at hs ⊢
  rw [← List.singleton_append, ← List.append_assoc] at hs
  exact ⟨hs.left_of_append, (List.append_assoc pre [c] post ▸ hs).right_of_append⟩

/-- What is left where the second request was served, once the first is given back: the
chunk the first request took, with the second request behind it. -/
theorem place_again_tail (hn : n ≤ c.size) (hc : c.isFree = true) (hs : Settled (c :: post))
    (h : place hdr n (cut hdr n c hn ++ post) = some (o, cs)) :
    ∃ s rest, ∃ hns : n ≤ s, cs = .used s n hns :: rest ∧
      place hdr n (coalesce hdr (.avail s :: rest)) = some (0, cs) := by
  rw [settled_cons] at hs
  have hpost := hs.1 hc
  rw [cut] at h
  split at h
  case isTrue hsplit =>
    rw [List.cons_append, List.singleton_append, place_cons_none (by simp)] at h
    obtain ⟨⟨o', rest⟩, hplace, heq⟩ := Option.map_eq_some_iff.mp h
    obtain ⟨-, rfl⟩ := Prod.mk.inj heq
    have hsettled : Settled (.avail (c.size - n - hdr) :: post) :=
      settled_cons.mpr ⟨fun _ => hpost, hs.2⟩
    have hrest := (place_settled hplace hsettled).1
    refine ⟨n, rest, Nat.le_refl n, rfl, ?_⟩
    by_cases hfit : n ≤ (Chunk.avail (c.size - n - hdr)).size
    · -- the second request lies behind the first one
      rw [place_here (Chunk.isFree_avail _) hfit] at hplace
      obtain ⟨-, rfl⟩ := Prod.mk.inj (Option.some.inj hplace)
      have hhead : ¬ HeadFree (cut hdr n (.avail (c.size - n - hdr)) hfit ++ post) := by
        rw [cut]
        split <;> simp [HeadFree]
      have hwhole : cut hdr n (.avail n) (Nat.le_refl n) = [.used n n (Nat.le_refl n)] :=
        cut_whole _ (Nat.le_add_right n hdr)
      rw [coalesce_avail _ hhead hrest, place_here (Chunk.isFree_avail n) (Nat.le_refl n), hwhole]
      rfl
    · rw [place_cons_none fun hboth => hfit hboth.2] at hplace
      obtain ⟨⟨o'', post'⟩, hplace', heq'⟩ := Option.map_eq_some_iff.mp hplace
      obtain ⟨-, rfl⟩ := Prod.mk.inj heq'
      obtain ⟨hsettled', hhead⟩ := place_settled hplace' hs.2
      have hjoin : coalesce hdr (.avail n :: .avail (c.size - n - hdr) :: post') =
          .avail c.size :: post' := by
        have hsum : Chunk.avail (n + (hdr + (c.size - n - hdr))) = .avail c.size :=
          congrArg Chunk.avail (by omega)
        rw [coalesce, if_pos ⟨Chunk.isFree_avail _, Chunk.isFree_avail _⟩]
        change coalesce hdr (.avail (n + (hdr + (c.size - n - hdr))) :: post') = _
        rw [hsum]
        exact coalesce_avail _ (fun hf => hpost (hhead hf)) hsettled'
      have hsplit' : cut hdr n (.avail c.size) hn =
          [.used n n (Nat.le_refl n), .avail (c.size - n - hdr)] := cut_split _ hsplit
      rw [hjoin, place_here (Chunk.isFree_avail _) hn, hsplit']
      rfl
  case isFalse hsplit =>
    rw [List.singleton_append, place_cons_none (by simp)] at h
    obtain ⟨⟨o', post'⟩, hplace, heq⟩ := Option.map_eq_some_iff.mp h
    obtain ⟨-, rfl⟩ := Prod.mk.inj heq
    obtain ⟨hsettled, hhead⟩ := place_settled hplace hs.2
    refine ⟨c.size, post', hn, rfl, ?_⟩
    have hwhole : cut hdr n (.avail c.size) hn = [.used c.size n hn] :=
      cut_whole _ (Nat.not_lt.mp hsplit)
    rw [coalesce_avail _ (fun hf => hpost (hhead hf)) hsettled,
      place_here (Chunk.isFree_avail _) hn, hwhole]
    rfl

/-- **The same request again.**  Of two requests of one size the first is given back and made
again: it is served where it was, and the heap is what it was. -/
theorem place_again (hhdr : 0 < hdr) (hs : Settled cs) (h : place hdr n cs = some (o, cs₁))
    (h' : place hdr n cs₁ = some (o', cs₂)) :
    place hdr n (coalesce hdr (release hdr o cs₂)) = some (o, cs₂) := by
  obtain ⟨pre, c, post, hn, rfl, rfl, hnone, hc, rfl⟩ := place_split h
  obtain ⟨hleft, hright⟩ := settled_append_left hs
  rw [place_append hnone] at h'
  obtain ⟨⟨o'', tail⟩, htail, heq⟩ := Option.map_eq_some_iff.mp h'
  obtain ⟨-, rfl⟩ := Prod.mk.inj heq
  obtain ⟨s, rest, hns, rfl, hagain⟩ := place_again_tail hn hc hright htail
  dsimp only
  rw [release_append hhdr, coalesce_append hleft hc, place_append hnone]
  simp only [Chunk.used] at hagain ⊢
  rw [hagain]
  rfl

end OsKernel
