import OsKernel.Runs
import Mathlib.Data.List.Nodup

/-! # Round robin

Members join at the end of a queue and are given turns one after the other, over and
over.  The queue is cut behind the member whose turn it is: `behind` ends with that
member, `ahead` are those that follow it.  Whoever joins, also in the middle of a round,
leaves the order of the next turns of the others as it was (`upcoming`), and that is
what makes the turns fair.
-/
namespace OsKernel

/-- The members in the order they joined, cut behind the one whose turn it is. -/
structure RoundRobin (α : Type*) where
  behind : List α
  ahead : List α

namespace RoundRobin
variable {α : Type*}

/-- The members in the order they joined. -/
def queue (r : RoundRobin α) : List α := r.behind ++ r.ahead

/-- The member whose turn it is; nobody's before the first turn. -/
def current (r : RoundRobin α) : Option α := r.behind.getLast?

/-- The members in the order of their next turns. -/
def upcoming (r : RoundRobin α) : List α := r.ahead ++ r.behind

/-- A new member. -/
def join (r : RoundRobin α) (x : α) : RoundRobin α := { r with ahead := r.ahead ++ [x] }

/-- The next member's turn; after the last one it is the first one's. -/
def turn (r : RoundRobin α) : RoundRobin α :=
  match r.ahead, r.behind with
  | d :: rest, behind => ⟨behind ++ [d], rest⟩
  | [], d :: rest => ⟨[d], rest⟩
  | [], [] => r

/-- What happens in the queue; a turn is labelled with the member it is given to. -/
inductive Move (α : Type*)
  | join (x : α)
  | turn (x : Option α)
  | idle

/-- One move. -/
inductive Step : RoundRobin α → Move α → RoundRobin α → Prop
  | join (r : RoundRobin α) (x : α) : Step r (.join x) (r.join x)
  | turn (r : RoundRobin α) : Step r (.turn r.upcoming.head?) r.turn
  | idle (r : RoundRobin α) : Step r .idle r

/-- The members that were given a turn, in this order. -/
def turns (moves : List (Move α)) : List α :=
  moves.filterMap fun
    | .turn x => x
    | _ => none

/-- The members that joined. -/
def joins (moves : List (Move α)) : List α :=
  moves.filterMap fun
    | .join x => some x
    | _ => none

/-- How many turns there were. -/
def turnCount (moves : List (Move α)) : Nat :=
  moves.countP fun
    | .turn _ => true
    | _ => false

variable {r t t' : RoundRobin α} {x d p q : α} {u : List α} {moves : List (Move α)}

@[simp] theorem queue_join : (r.join x).queue = r.queue ++ [x] := by
  simp [queue, join]

@[simp] theorem current_join : (r.join x).current = r.current := rfl

@[simp] theorem queue_turn : r.turn.queue = r.queue := by
  obtain ⟨behind, ahead⟩ := r
  cases ahead <;> cases behind <;> simp [turn, queue]

theorem current_turn : r.turn.current = r.upcoming.head? := by
  obtain ⟨behind, ahead⟩ := r
  cases ahead with
  | cons d rest => simp [turn, current, upcoming]
  | nil => cases behind <;> simp [turn, current, upcoming]

theorem upcoming_perm (r : RoundRobin α) : r.upcoming.Perm r.queue := List.perm_append_comm

/-- A turn moves the member to the end of the waiting line. -/
theorem upcoming_turn (h : r.upcoming = d :: u) : r.turn.upcoming = u ++ [d] := by
  obtain ⟨behind, ahead⟩ := r
  simp only [upcoming] at h ⊢
  cases ahead with
  | cons e rest =>
    obtain ⟨rfl, rfl⟩ := List.cons.inj h
    simp [turn]
  | nil =>
    rw [List.nil_append] at h
    subst h
    simp [turn]

theorem Step.turn_some (h : Step r (.turn (some p)) t) :
    r.upcoming.head? = some p ∧ t.current = some p := by
  generalize hm : Move.turn (some p) = m at h
  cases h with
  | turn =>
    obtain hp := Move.turn.inj hm
    exact ⟨hp.symm, current_turn.trans hp.symm⟩
  | _ => cases hm

/-- The member whose turn it is comes last in the waiting line. -/
theorem upcoming_current (h : r.current = some p) : ∃ others, r.upcoming = others ++ [p] := by
  obtain ⟨init, hinit⟩ := List.getLast?_eq_some_iff.mp h
  exact ⟨r.ahead ++ init, by rw [upcoming, hinit, List.append_assoc]⟩

/-! ## Turns between two turns of one member -/

section Between
variable (P : α → Bool)

/-- **The waiting line of a group.**  While nobody joins the group and `p` waits, the
group's turns are given in the order of its waiting line. -/
theorem run_between {others : List α} (hrun : Run Step r moves t)
    (hjoin : ∀ x ∈ joins moves, P x = false) (hp : P p = true)
    (hstart : r.upcoming.filter P = others ++ [p]) (hnot : p ∉ turns moves) :
    ∃ rest, others = (turns moves).filter P ++ rest ∧
      t.upcoming.filter P = rest ++ p :: (turns moves).filter P := by
  induction hrun with
  | nil => exact ⟨others, by simp [turns], by simpa [turns] using hstart⟩
  | @snoc moves t t' m hrun hstep ih =>
    obtain ⟨rest, hothers, hline⟩ := ih
      (fun x hx => hjoin x (by simp only [joins, List.filterMap_append] at hx ⊢; simp [hx]))
      (fun hin => hnot (by simp only [turns, List.filterMap_append] at hin ⊢; simp [hin]))
    cases hstep with
    | idle => exact ⟨rest, by simpa [turns] using hothers, by simpa [turns] using hline⟩
    | join x =>
      have hx : P x = false := hjoin x (by simp [joins])
      refine ⟨rest, by simpa [turns] using hothers, ?_⟩
      simpa [turns, upcoming, join, hx] using hline
    | turn =>
      cases hup : t.upcoming with
      | nil => simp [hup] at hline
      | cons d u =>
        have hturns : turns (moves ++ [.turn (d :: u).head?]) = turns moves ++ [d] := by
          simp [turns]
        rw [hup, hturns] at hnot
        rw [hturns, upcoming_turn hup]
        rw [hup] at hline
        by_cases hd : P d = true
        · -- the first of the group's waiting line is not `p`, so it is in `rest`
          rw [List.filter_cons_of_pos hd] at hline
          cases rest with
          | nil =>
            obtain ⟨rfl, -⟩ := List.cons.inj hline
            exact absurd (by simp) hnot
          | cons e rest =>
            obtain ⟨rfl, hu⟩ := List.cons.inj hline
            refine ⟨rest, ?_, ?_⟩
            · simp [hothers, hd]
            · simp [hu, hd]
        · rw [List.filter_cons_of_neg hd] at hline
          exact ⟨rest, by simp [hothers, hd], by simp [hline, hd]⟩

end Between

/-- **Fairness.**  Between two turns of `p`, every other member of the queue has exactly
one. -/
theorem fair_between [DecidableEq α] (hrun : Run Step r moves t) (hnodup : r.queue.Nodup)
    (hjoin : ∀ x ∈ joins moves, x ∉ r.queue) (hcur : r.current = some p)
    (hnot : p ∉ turns moves) (hturn : t.upcoming.head? = some p) (hq : q ∈ r.queue)
    (hne : q ≠ p) : (turns moves).count q = 1 := by
  obtain ⟨others, hothers⟩ := upcoming_current hcur
  have hup : (others ++ [p]).Nodup := hothers ▸ r.upcoming_perm.nodup_iff.mpr hnodup
  have hmem : ∀ x, x ∈ r.queue ↔ x ∈ others ++ [p] := fun x => by
    rw [← hothers, r.upcoming_perm.mem_iff]
  have hfilter : r.upcoming.filter (· ∈ r.queue) = others ++ [p] := by
    rw [hothers]
    exact List.filter_eq_self.mpr fun x hx => by simpa using (hmem x).mpr hx
  obtain ⟨rest, hrest, hline⟩ := run_between (fun x => decide (x ∈ r.queue)) hrun
    (fun x hx => by simpa using hjoin x hx) (by simpa using (hmem p).mpr (by simp)) hfilter hnot
  -- `p` is first in the waiting line again, so the others have all had their turn
  obtain ⟨u, hu⟩ : ∃ u, t.upcoming = p :: u := by
    cases h : t.upcoming with
    | nil => simp [h] at hturn
    | cons e u =>
      rw [h] at hturn
      exact ⟨u, by rw [Option.some.inj hturn]⟩
  have hp : p ∉ others := fun hin =>
    (List.nodup_append.mp hup).2.2 p hin p (by simp) rfl
  have hnil : rest = [] := by
    cases rest with
    | nil => rfl
    | cons e rest =>
      rw [hu, List.filter_cons_of_pos (by simpa using (hmem p).mpr (by simp))] at hline
      obtain ⟨rfl, -⟩ := List.cons.inj hline
      exact absurd (by simp [hrest]) hp
  rw [hnil, List.append_nil] at hrest
  have hcount : others.count q = 1 := by
    refine List.count_eq_one_of_mem (List.nodup_append.mp hup).1 ?_
    simpa [hne] using (hmem q).mp hq
  rw [hrest, List.count_filter (by simpa using hq)] at hcount
  exact hcount

/-- **A whole round.**  Up to as many turns as there are members, nobody joining, are
given to the members in the order of the waiting line. -/
theorem run_round (hrun : Run Step r moves t) (hjoin : joins moves = [])
    (hcount : turnCount moves ≤ r.upcoming.length) :
    ∃ u, r.upcoming = turns moves ++ u ∧ t.upcoming = u ++ turns moves ∧
      (turns moves).length = turnCount moves := by
  induction hrun with
  | nil => exact ⟨r.upcoming, by simp [turns], by simp [turns], rfl⟩
  | @snoc moves t t' m hrun hstep ih =>
    have hj : joins moves = [] := by
      simp only [joins, List.filterMap_append, List.append_eq_nil_iff] at hjoin
      exact hjoin.1
    have hc : turnCount moves ≤ r.upcoming.length := by
      simp only [turnCount, List.countP_append] at hcount ⊢
      omega
    obtain ⟨u, hup, hline, hlen⟩ := ih hj hc
    cases hstep with
    | idle => exact ⟨u, by simpa [turns] using hup, by simpa [turns] using hline,
        by simpa [turns, turnCount] using hlen⟩
    | join x => simp [joins] at hjoin
    | turn =>
      have hmore : turnCount moves < r.upcoming.length := by
        simp [turnCount] at hcount ⊢
        omega
      cases u with
      | nil =>
        rw [hup, List.append_nil, hlen] at hmore
        exact absurd hmore (Nat.lt_irrefl _)
      | cons d u =>
        rw [List.cons_append] at hline
        have hturns : turns (moves ++ [.turn t.upcoming.head?]) = turns moves ++ [d] := by
          simp [turns, hline]
        refine ⟨u, ?_, ?_, ?_⟩
        · simp [hturns, hup]
        · rw [hturns, upcoming_turn hline, List.append_assoc]
        · rw [hturns, List.length_append, hlen]
          simp [turnCount]

end RoundRobin
end OsKernel
