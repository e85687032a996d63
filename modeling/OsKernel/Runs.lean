import Mathlib.Algebra.Ring.Nat
import Mathlib.Data.List.Basic
import Mathlib.Data.List.Induction

/-! # Runs of a labelled transition system, and fuel-bounded loops

A component is a relation `step s op s'`: calling `op` in state `s` may end in
`s'`.  A run is a finite sequence of such calls.  What one step preserves holds
of every state a run reaches (`Run.invariant`).  A run is cut before its last
call by `Run.init`, and where calls have at most one outcome a run has at most one
end (`Run.unique`).

A `while` loop is its body, `σ → σ ⊕ ρ`: either another turn from a new loop
state, or the value the loop ends with.  `iterate` takes a bounded number of
turns and answers `none` when it runs out; `Returns` says that some number of
turns is enough, which is what termination of the loop means.  `Visits` names the
loop states in between, and what one turn preserves holds of all of them.
-/
namespace OsKernel

section Runs
variable {σ ω : Type*} {step : σ → ω → σ → Prop} {s t u : σ} {op : ω} {ops : List ω}

/-- The calls `ops`, made in this order from `s`, may lead to the last state. -/
inductive Run (step : σ → ω → σ → Prop) (s : σ) : List ω → σ → Prop
  | nil : Run step s [] s
  | snoc {ops : List ω} {t u : σ} {op : ω} :
      Run step s ops t → step t op u → Run step s (ops ++ [op]) u

/-- **The invariant rule.**  What holds at the start and survives every step
holds wherever a run leads. -/
theorem Run.invariant (Inv : σ → Prop) (hinit : Inv s)
    (hstep : ∀ t op u, Inv t → step t op u → Inv u) (h : Run step s ops t) : Inv t := by
  induction h with
  | nil => exact hinit
  | snoc _ hop ih => exact hstep _ _ _ ih hop

/-- A run passes through a state before its last call. -/
theorem Run.init (h : Run step s (ops ++ [op]) u) : ∃ t, Run step s ops t ∧ step t op u := by
  generalize hcalls : ops ++ [op] = calls at h
  cases h with
  | nil => exact absurd hcalls (by simp)
  | snoc hrun hop =>
    obtain ⟨rfl, rfl⟩ := List.append_singleton_inj.mp hcalls
    exact ⟨_, hrun, hop⟩

/-- A run passes through a state after each of its first calls. -/
theorem Run.of_prefix {calls : List ω} (h : Run step s ops u) (hpre : calls <+: ops) :
    ∃ t, Run step s calls t := by
  induction h with
  | nil => exact ⟨s, List.prefix_nil.mp hpre ▸ .nil⟩
  | snoc hrun hop ih =>
    rcases List.prefix_concat_iff.mp hpre with rfl | hpre
    · exact ⟨_, hrun.snoc hop⟩
    · exact ih hpre

theorem Run.of_nil (h : Run step s [] u) : u = s := by
  generalize hcalls : ([] : List ω) = calls at h
  cases h with
  | nil => rfl
  | snoc => exact absurd hcalls (by simp)

/-- A run of one call is a step. -/
theorem Run.of_single (h : Run step s [op] u) : step s op u := by
  obtain ⟨t, hnil, hop⟩ := @Run.init _ _ _ _ _ _ [] h
  rw [hnil.of_nil] at hop
  exact hop

/-- One run after the other. -/
theorem Run.append {calls : List ω} (h : Run step s ops t) (h' : Run step t calls u) :
    Run step s (ops ++ calls) u := by
  induction h' with
  | nil => exact (List.append_nil ops).symm ▸ h
  | snoc _ hop ih => exact List.append_assoc ops _ _ ▸ ih.snoc hop

/-- A run of a system with fewer steps. -/
theorem Run.mono {step' : σ → ω → σ → Prop} (hstep : ∀ t op u, step t op u → step' t op u)
    (h : Run step s ops t) : Run step' s ops t := by
  induction h with
  | nil => exact .nil
  | snoc _ hop ih => exact ih.snoc (hstep _ _ _ hop)

/-- A run is cut between any two of its calls. -/
theorem Run.split {calls : List ω} (h : Run step s (ops ++ calls) u) :
    ∃ t, Run step s ops t ∧ Run step t calls u := by
  induction calls using List.reverseRecOn generalizing u with
  | nil => exact ⟨u, List.append_nil ops ▸ h, .nil⟩
  | append_singleton calls op ih =>
    rw [← List.append_assoc] at h
    obtain ⟨v, hrun, hop⟩ := h.init
    obtain ⟨t, hops, hcalls⟩ := ih hrun
    exact ⟨t, hops, hcalls.snoc hop⟩

/-- **The simulation rule.**  When every step of one system is matched by a step of another
with the same call, so is every run. -/
theorem Run.simulation {τ : Type*} {abstract : τ → ω → τ → Prop} {a : τ} (Sim : σ → τ → Prop)
    (hinit : Sim s a)
    (hstep : ∀ t op u b, op ∈ ops → Sim t b → step t op u → ∃ b', abstract b op b' ∧ Sim u b')
    (h : Run step s ops t) : ∃ b, Run abstract a ops b ∧ Sim t b := by
  induction h with
  | nil => exact ⟨a, .nil, hinit⟩
  | @snoc ops _ _ op _ hop ih =>
    obtain ⟨b, hrun, hsim⟩ := ih fun t op' u b hmem =>
      hstep t op' u b (List.mem_append_left [op] hmem)
    obtain ⟨b', hop', hsim'⟩ :=
      hstep _ _ _ _ (List.mem_append_right ops List.mem_cons_self) hsim hop
    exact ⟨b', hrun.snoc hop', hsim'⟩

/-- **Histories.**  A state that keeps a list, to which some calls add an entry, has the
entries of the run behind those it started with. -/
theorem Run.history {α : Type*} (entries : σ → List α) (entry : ω → Option α)
    (hstep : ∀ t op u, step t op u → entries u = entries t ++ (entry op).toList)
    (h : Run step s ops t) : entries t = entries s ++ ops.filterMap entry := by
  induction h with
  | nil => exact (List.append_nil _).symm
  | snoc _ hop ih =>
    rw [hstep _ _ _ hop, ih, List.filterMap_append, List.append_assoc]
    cases hentry : entry _ with
    | none =>
      rw [List.filterMap_cons_none hentry]
      rfl
    | some a =>
      rw [List.filterMap_cons_some hentry]
      rfl

/-- The last entry is that of the last call, if it makes one. -/
theorem getLast?_filterMap_concat {α : Type*} (entry : ω → Option α) (ops : List ω) (op : ω) :
    ((ops ++ [op]).filterMap entry).getLast? = (entry op).or (ops.filterMap entry).getLast? := by
  rw [List.filterMap_append]
  cases h : entry op with
  | none => rw [List.filterMap_cons_none h, List.filterMap_nil, List.append_nil, Option.none_or]
  | some a =>
    rw [List.filterMap_cons_some h, List.filterMap_nil, List.getLast?_concat, Option.some_or]

/-- Runs of a deterministic system end in one state. -/
theorem Run.unique (hdet : ∀ t op u u', step t op u → step t op u' → u = u')
    (h : Run step s ops t) (h' : Run step s ops u) : t = u := by
  induction h generalizing u with
  | nil => exact h'.of_nil.symm
  | snoc _ hop ih =>
    obtain ⟨t', hrun', hop'⟩ := h'.init
    obtain rfl := ih hrun'
    exact hdet _ _ _ _ hop hop'

end Runs

section Loops
variable {σ ρ : Type*} {body : σ → σ ⊕ ρ} {s : σ} {r r' : ρ}

/-- At most `fuel` turns of the loop. -/
def iterate (body : σ → σ ⊕ ρ) : Nat → σ → Option ρ
  | 0, _ => none
  | fuel + 1, s =>
    match body s with
    | .inl s' => iterate body fuel s'
    | .inr r => some r

/-- The loop ends, with value `r`. -/
def Returns (body : σ → σ ⊕ ρ) (s : σ) (r : ρ) : Prop :=
  ∃ fuel, iterate body fuel s = some r

/-- More fuel does not change the value a loop ends with. -/
theorem iterate_mono {fuel : Nat} (h : iterate body fuel s = some r) (extra : Nat) :
    iterate body (fuel + extra) s = some r := by
  induction fuel generalizing s with
  | zero => cases h
  | succ fuel ih =>
    rw [Nat.add_right_comm]
    unfold iterate at h ⊢
    cases hb : body s with
    | inl s' => simp only [hb] at h ⊢; exact ih h
    | inr r' => simp only [hb] at h ⊢; exact h

/-- A loop ends with at most one value. -/
theorem Returns.unique (h : Returns body s r) (h' : Returns body s r') : r = r' := by
  obtain ⟨f, hf⟩ := h
  obtain ⟨f', hf'⟩ := h'
  have h1 := iterate_mono hf f'
  have h2 := iterate_mono hf' f
  rw [Nat.add_comm] at h2
  exact Option.some.inj (h1.symm.trans h2)

/-- A loop ends in one of its turns. -/
theorem Returns.last_turn (h : Returns body s r) : ∃ s', body s' = .inr r := by
  obtain ⟨fuel, hf⟩ := h
  induction fuel generalizing s with
  | zero => cases hf
  | succ fuel ih =>
    rw [iterate] at hf
    cases hb : body s with
    | inl s' =>
      rw [hb] at hf
      exact ih hf
    | inr r' =>
      rw [hb] at hf
      exact ⟨s, hb.trans (congrArg Sum.inr (Option.some.inj hf))⟩

theorem Returns.of_done (h : body s = .inr r) : Returns body s r :=
  ⟨1, by simp [iterate, h]⟩

theorem Returns.of_turn {s' : σ} (h : body s = .inl s') (hr : Returns body s' r) :
    Returns body s r := by
  obtain ⟨fuel, hf⟩ := hr
  exact ⟨fuel + 1, by simp [iterate, h, hf]⟩

/-- **Termination by a measure.**  A loop whose turns lower a measure ends within as many
turns. -/
theorem exists_iterate (measure : σ → Nat)
    (hturn : ∀ s s', body s = .inl s' → measure s' < measure s) (s : σ) :
    ∃ r, iterate body (measure s + 1) s = some r := by
  generalize hn : measure s = n
  induction n using Nat.strongRecOn generalizing s with
  | ind n ih =>
    rw [iterate]
    cases hb : body s with
    | inr r => exact ⟨r, rfl⟩
    | inl s' =>
      have hlt := hturn s s' hb
      obtain ⟨r, hr⟩ := ih (measure s') (hn ▸ hlt) s' rfl
      refine ⟨r, ?_⟩
      have hmono := iterate_mono hr (n - (measure s' + 1))
      rw [Nat.add_sub_cancel' (by omega)] at hmono
      exact hmono

/-- Fuel for the measure of the start is enough for a loop that ends. -/
theorem Returns.iterate_eq (measure : σ → Nat)
    (hturn : ∀ s s', body s = .inl s' → measure s' < measure s) (h : Returns body s r) :
    iterate body (measure s + 1) s = some r := by
  obtain ⟨r', hr'⟩ := exists_iterate measure hturn s
  rw [hr', h.unique ⟨_, hr'⟩]

/-- **The lockstep rule.**  When related turns of two loops lead to related states, or to related
values, and the first loop ends, so does the second. -/
theorem Returns.lockstep {σ' ρ' : Type*} {body' : σ' → σ' ⊕ ρ'} {s' : σ'} {Rel : σ → σ' → Prop}
    {Out : ρ → ρ' → Prop}
    (hturn : ∀ t t', Rel t t' → Sum.LiftRel Rel Out (body t) (body' t')) (h : Rel s s')
    (hr : Returns body s r) : ∃ r', Returns body' s' r' ∧ Out r r' := by
  obtain ⟨fuel, hf⟩ := hr
  induction fuel generalizing s s' with
  | zero => cases hf
  | succ fuel ih =>
    have hrel := hturn s s' h
    rw [iterate] at hf
    generalize hb' : body' s' = y at hrel
    cases hb : body s with
    | inl t =>
      rw [hb] at hf hrel
      cases hrel with
      | inl hstate =>
        obtain ⟨r', hr', hout⟩ := ih hstate hf
        exact ⟨r', .of_turn hb' hr', hout⟩
    | inr u =>
      rw [hb] at hf hrel
      cases hrel with
      | inr hout =>
        rw [← Option.some.inj hf]
        exact ⟨_, .of_done hb', hout⟩

/-- **The divergence rule.**  A loop does not end when each turn leads to another one. -/
theorem not_returns_of_invariant (Inv : σ → Prop)
    (hturn : ∀ t, Inv t → ∃ u, body t = .inl u ∧ Inv u) (h : Inv s) (r : ρ) :
    ¬ Returns body s r := by
  rintro ⟨fuel, hf⟩
  induction fuel generalizing s with
  | zero => cases hf
  | succ fuel ih =>
    obtain ⟨u, hbody, hu⟩ := hturn s h
    rw [iterate, hbody] at hf
    exact ih hu hf

/-- The turns of the loop lead from `s` to the loop state `t`. -/
inductive Visits (body : σ → σ ⊕ ρ) (s : σ) : σ → Prop
  | here : Visits body s s
  | turn {t u : σ} : Visits body s t → body t = .inl u → Visits body s u

/-- **The loop invariant rule.**  What holds at the start and survives every turn holds
of every loop state. -/
theorem Visits.invariant (Inv : σ → Prop) (hinit : Inv s)
    (hturn : ∀ t u, Inv t → body t = .inl u → Inv u) {t : σ} (h : Visits body s t) : Inv t := by
  induction h with
  | here => exact hinit
  | turn _ hbody ih => exact hturn _ _ ih hbody

end Loops
end OsKernel
