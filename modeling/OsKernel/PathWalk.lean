import Mathlib.Data.List.Infix
import Mathlib.Data.Set.Card

/-! # Trees in a pointer graph

A graph is a partial successor function `next : F → I → Option F`: node `f` has, or
does not have, a successor under the index `i`.  From a root, a list of indices
leads to at most one node (`follow`).  The nodes within `n` links of the root form
a tree when no node is reached by two paths (`Unshared`).

Two facts carry every use.  Links that are not on short paths do not matter
(`follow_congr`), and hanging one fresh, empty node below a node of the tree adds
exactly one path and keeps the tree a tree (`follow_grow`, `unshared_grow`,
`reached_grow`).  `visit` lists the tree depth first; it lists every node once
(`nodup_visit`, `mem_visit`).
-/
namespace OsKernel

variable {F I : Type*} {next next' : F → I → Option F} {root f g h : F} {i j : I}
  {p q : List I} {n d : Nat}

/-- The node the indices `path` lead to from `f`. -/
def follow (next : F → I → Option F) (f : F) (path : List I) : Option F := path.foldlM next f

/-- No node within `n` links of the root is reached by two paths. -/
def Unshared (next : F → I → Option F) (root : F) (n : Nat) : Prop :=
  ∀ p q f, p.length ≤ n → q.length ≤ n → follow next root p = some f →
    follow next root q = some f → p = q

/-- The nodes within `n` links of the root. -/
def reached (next : F → I → Option F) (root : F) (n : Nat) : Set F :=
  {f | ∃ p, p.length ≤ n ∧ follow next root p = some f}

@[simp] theorem follow_nil (next : F → I → Option F) (f : F) : follow next f [] = some f := rfl

theorem follow_cons (next : F → I → Option F) (f : F) (i : I) (p : List I) :
    follow next f (i :: p) = (next f i).bind fun g => follow next g p :=
  List.foldlM_cons

theorem follow_append (next : F → I → Option F) (f : F) (p q : List I) :
    follow next f (p ++ q) = (follow next f p).bind fun g => follow next g q :=
  List.foldlM_append

theorem follow_snoc (next : F → I → Option F) (f : F) (p : List I) (i : I) :
    follow next f (p ++ [i]) = (follow next f p).bind fun g => next g i := by
  rw [follow_append]
  congr 1
  funext g
  rw [follow_cons]
  simp

theorem mem_reached_root (next : F → I → Option F) (root : F) (n : Nat) :
    root ∈ reached next root n := ⟨[], Nat.zero_le n, rfl⟩

/-- From a node without links one reaches the node only. -/
theorem follow_leaf (hleaf : ∀ i, next root i = none) (hf : follow next root p = some f) :
    p = [] ∧ f = root := by
  cases p with
  | nil => exact ⟨rfl, (Option.some.inj hf).symm⟩
  | cons i p =>
    rw [follow_cons, hleaf] at hf
    cases hf

theorem unshared_leaf (hleaf : ∀ i, next root i = none) (n : Nat) : Unshared next root n :=
  fun _ _ _ _ _ hp hq => (follow_leaf hleaf hp).1.trans (follow_leaf hleaf hq).1.symm

theorem reached_leaf (hleaf : ∀ i, next root i = none) (n : Nat) :
    reached next root n = {root} := by
  ext f
  constructor
  · rintro ⟨p, -, hf⟩
    exact (follow_leaf hleaf hf).2
  · rintro rfl
    exact mem_reached_root _ _ _

/-- Short paths only see the links of nodes on shorter paths. -/
theorem follow_congr (hagree : ∀ p f, p.length < n → follow next root p = some f →
      ∀ i, next' f i = next f i) (hq : q.length ≤ n) :
    follow next' root q = follow next root q := by
  induction q using List.reverseRecOn with
  | nil => rfl
  | append_singleton q i ih =>
    rw [List.length_append, List.length_singleton] at hq
    rw [follow_snoc, follow_snoc, ih (by omega)]
    cases hf : follow next root q with
    | none => rfl
    | some f => exact hagree q f (by omega) hf i

/-- The new link `g →ʲ h` is the only difference between `next` and `next'` on the
nodes near the root, and `h` has no links yet. -/
structure NewLink (next next' : F → I → Option F) (root : F) (n : Nat) (p : List I) (g : F) (j : I)
    (h : F) : Prop where
  short : p.length < n
  path : follow next root p = some g
  absent : next g j = none
  link : next' g j = some h
  others : ∀ q f i, q.length < n → follow next root q = some f → ¬ (f = g ∧ i = j) →
    next' f i = next f i
  empty : ∀ i, next' h i = none
  fresh : h ∉ reached next root n

/-- **One link more, one path more.** -/
theorem follow_grow [DecidableEq I] (hu : Unshared next root n)
    (hl : NewLink next next' root n p g j h) (hq : q.length ≤ n) :
    follow next' root q = if q = p ++ [j] then some h else follow next root q := by
  induction q using List.reverseRecOn with
  | nil => rw [if_neg (by simp)]; rfl
  | append_singleton q i ih =>
    rw [List.length_append, List.length_singleton] at hq
    rw [follow_snoc, ih (by omega)]
    by_cases hnew : q = p ++ [j]
    · -- below the new node there is nothing, in either graph
      subst hnew
      rw [if_pos rfl, if_neg (by simp), follow_snoc, follow_snoc, hl.path]
      simp [hl.absent, hl.empty]
    · rw [if_neg hnew]
      by_cases hend : q = p ∧ i = j
      · obtain ⟨rfl, rfl⟩ := hend
        rw [if_pos rfl, hl.path]
        exact hl.link
      · have hne : q ++ [i] ≠ p ++ [j] := by
          intro he
          obtain ⟨h1, h2⟩ := List.append_inj' he rfl
          exact hend ⟨h1, List.singleton_inj.mp h2⟩
        rw [if_neg hne, follow_snoc]
        cases hf : follow next root q with
        | none => rfl
        | some f =>
          refine hl.others q f i (by omega) hf fun hfi => hend ⟨?_, hfi.2⟩
          exact hu q p g (by omega) hl.short.le (hfi.1 ▸ hf) hl.path

theorem unshared_grow (hu : Unshared next root n) (hl : NewLink next next' root n p g j h) :
    Unshared next' root n := by
  classical
  intro q r f hq hr hfq hfr
  rw [follow_grow hu hl hq] at hfq
  rw [follow_grow hu hl hr] at hfr
  by_cases h1 : q = p ++ [j] <;> by_cases h2 : r = p ++ [j]
  · rw [h1, h2]
  · rw [if_pos h1] at hfq
    rw [if_neg h2] at hfr
    exact absurd ⟨r, hr, hfr.trans hfq.symm⟩ hl.fresh
  · rw [if_neg h1] at hfq
    rw [if_pos h2] at hfr
    exact absurd ⟨q, hq, hfq.trans hfr.symm⟩ hl.fresh
  · rw [if_neg h1] at hfq
    rw [if_neg h2] at hfr
    exact hu q r f hq hr hfq hfr

theorem reached_grow (hu : Unshared next root n) (hl : NewLink next next' root n p g j h) :
    reached next' root n = insert h (reached next root n) := by
  classical
  ext f
  constructor
  · rintro ⟨q, hq, hf⟩
    rw [follow_grow hu hl hq] at hf
    split at hf
    · exact Or.inl (Option.some.inj hf).symm
    · exact Or.inr ⟨q, hq, hf⟩
  · rintro (rfl | ⟨q, hq, hf⟩)
    · have hlen : (p ++ [j]).length ≤ n := by
        rw [List.length_append, List.length_singleton]
        exact hl.short
      exact ⟨p ++ [j], hlen, by rw [follow_grow hu hl hlen, if_pos rfl]⟩
    · refine ⟨q, hq, ?_⟩
      rw [follow_grow hu hl hq, if_neg]
      · exact hf
      · rintro rfl
        rw [follow_snoc, hl.path] at hf
        simp [hl.absent] at hf

/-! ## The paths of a tree -/

/-- The paths of at most `n` indices that lead somewhere. -/
def paths (next : F → I → Option F) (root : F) (n : Nat) : Set (List I) :=
  {p | p.length ≤ n ∧ follow next root p ≠ none}

/-- A stretch of a path is a path. -/
theorem paths_prefix_closed {r : List I} (hp : p ∈ paths next root n) (hr : r <+: p) :
    r ∈ paths next root n := by
  obtain ⟨t, rfl⟩ := hr
  refine ⟨(List.length_append ▸ hp.1 : r.length + t.length ≤ n).trans' (Nat.le_add_right _ _), ?_⟩
  intro hnone
  apply hp.2
  rw [follow_append, hnone]
  rfl

theorem paths_grow (hu : Unshared next root n) (hl : NewLink next next' root n p g j h) :
    paths next' root n = insert (p ++ [j]) (paths next root n) := by
  classical
  have hlen : (p ++ [j]).length ≤ n := by
    rw [List.length_append, List.length_singleton]
    exact hl.short
  ext q
  constructor
  · rintro ⟨hq, hf⟩
    rw [follow_grow hu hl hq] at hf
    by_cases hnew : q = p ++ [j]
    · exact Or.inl hnew
    · rw [if_neg hnew] at hf
      exact Or.inr ⟨hq, hf⟩
  · rintro (rfl | ⟨hq, hf⟩)
    · exact ⟨hlen, by rw [follow_grow hu hl hlen, if_pos rfl]; exact Option.some_ne_none h⟩
    · refine ⟨hq, ?_⟩
      rw [follow_grow hu hl hq]
      split
      · exact Option.some_ne_none h
      · exact hf

/-- The path of a new link is a new path. -/
theorem NewLink.notMem_paths (hl : NewLink next next' root n p g j h) :
    p ++ [j] ∉ paths next root n := by
  rintro ⟨-, hf⟩
  rw [follow_snoc, hl.path] at hf
  exact hf hl.absent

/-- The stretches of a path, with and without its end. -/
theorem finite_prefixes (q : List I) : {r | r <+: q}.Finite :=
  (List.finite_toSet q.inits).subset fun r hr => (List.mem_inits r q).mpr hr

/-! ## Depth-first enumeration -/

/-- The nodes within `d` links of `f`, depth first, trying the indices `idxs`. -/
def visit (next : F → I → Option F) (idxs : List I) : Nat → F → List F
  | 0, f => [f]
  | d + 1, f => f :: idxs.flatMap fun i =>
      match next f i with
      | some g => visit next idxs d g
      | none => []

/-- The enumeration finds exactly the nodes within reach. -/
theorem mem_visit {idxs : List I} (hidxs : ∀ f i, next f i ≠ none → i ∈ idxs) :
    g ∈ visit next idxs d f ↔ g ∈ reached next f d := by
  induction d generalizing f with
  | zero =>
    constructor
    · intro hg
      rw [visit, List.mem_singleton] at hg
      exact ⟨[], Nat.le_refl 0, by rw [hg]; rfl⟩
    · rintro ⟨p, hp, hf⟩
      rw [List.length_eq_zero_iff.mp (Nat.le_zero.mp hp), follow_nil] at hf
      rw [visit, List.mem_singleton, Option.some.inj hf]
  | succ d ih =>
    rw [visit, List.mem_cons, List.mem_flatMap]
    constructor
    · rintro (rfl | ⟨i, -, hg⟩)
      · exact mem_reached_root _ _ _
      · cases hn : next f i with
        | none => rw [hn] at hg; exact absurd hg List.not_mem_nil
        | some f' =>
          rw [hn] at hg
          obtain ⟨p, hp, hfp⟩ := ih.mp hg
          exact ⟨i :: p, Nat.succ_le_succ hp, by rw [follow_cons, hn]; exact hfp⟩
    · rintro ⟨p, hp, hfp⟩
      cases p with
      | nil => exact Or.inl (Option.some.inj hfp).symm
      | cons i p =>
        right
        rw [follow_cons] at hfp
        cases hn : next f i with
        | none => rw [hn] at hfp; cases hfp
        | some f' =>
          refine ⟨i, hidxs f i (by rw [hn]; simp), ?_⟩
          rw [hn] at hfp ⊢
          exact ih.mpr ⟨p, Nat.le_of_succ_le_succ hp, hfp⟩

/-- The nodes the enumeration finds behind the link `i` of `f`. -/
theorem mem_branch {idxs : List I} (hidxs : ∀ f i, next f i ≠ none → i ∈ idxs) {i : I}
    (hg : g ∈ match next f i with
      | some f' => visit next idxs d f'
      | none => []) :
    ∃ r, r.length ≤ d ∧ follow next f (i :: r) = some g := by
  cases hn : next f i with
  | none => rw [hn] at hg; exact absurd hg List.not_mem_nil
  | some f' =>
    rw [hn] at hg
    obtain ⟨r, hr, hfr⟩ := (mem_visit hidxs).mp hg
    exact ⟨r, hr, by rw [follow_cons, hn]; exact hfr⟩

/-- **In a tree the enumeration visits every node once.** -/
theorem nodup_visit {idxs : List I} (hidxs : ∀ f i, next f i ≠ none → i ∈ idxs)
    (hnodup : idxs.Nodup) (hu : Unshared next root n) (hp : p.length + d ≤ n)
    (hf : follow next root p = some f) : (visit next idxs d f).Nodup := by
  induction d generalizing f p with
  | zero => exact List.nodup_singleton f
  | succ d ih =>
    -- a node below `f` is reached from the root through `p`
    have hpath : ∀ {i r g}, r.length ≤ d → follow next f (i :: r) = some g →
        (p ++ i :: r).length ≤ n ∧ follow next root (p ++ i :: r) = some g := by
      intro i r g hr hg
      refine ⟨by rw [List.length_append, List.length_cons]; omega, ?_⟩
      rw [follow_append, hf]
      exact hg
    rw [visit, List.nodup_cons, List.nodup_flatMap]
    refine ⟨?_, ?_, ?_⟩
    · intro hmem
      obtain ⟨i, -, hg⟩ := List.mem_flatMap.mp hmem
      obtain ⟨r, hr, hfr⟩ := mem_branch hidxs hg
      obtain ⟨hlen, hroot⟩ := hpath hr hfr
      have hsame : p ++ i :: r = p := hu _ _ _ hlen (by omega) hroot hf
      simp at hsame
    · intro i _
      cases hn : next f i with
      | none => exact List.nodup_nil
      | some f' =>
        have hlen : (p ++ [i]).length + d ≤ n := by
          rw [List.length_append, List.length_singleton]
          omega
        exact ih hlen (by rw [follow_snoc, hf]; exact hn)
    · refine hnodup.imp fun {i j} hij g hgi hgj => ?_
      obtain ⟨r, hr, hfr⟩ := mem_branch hidxs hgi
      obtain ⟨r', hr', hfr'⟩ := mem_branch hidxs hgj
      obtain ⟨hlen, hroot⟩ := hpath hr hfr
      obtain ⟨hlen', hroot'⟩ := hpath hr' hfr'
      have heq := List.append_cancel_left (hu _ _ _ hlen hlen' hroot hroot')
      exact hij (List.cons.inj heq).1

end OsKernel
