import OsKernel.SchedulerRequeue
import OsKernel.RoundRobin

/-! # Fairness of the scheduler

The circle of PCBs in memory, with `current_process` in it, is a round robin: adding a
PCB is joining, and `schedule` gives the next turn (`Follows`).  Every run of the
scheduler in which no PCB is added twice is therefore a run of `RoundRobin`, and is as fair
as that.  The states of the PCBs play no part: the scheduler writes them and reads none.
-/
namespace OsKernel
open RoundRobin

/-- A step of the scheduler as a move of the round robin. -/
def SchedOp.move : SchedOp → Move Ptr
  | .add pcb => .join pcb
  | .schedule dispatched => .turn dispatched
  | .other => .idle

/-- The scheduler, to which no PCB was added twice, stands where the round robin does. -/
structure Follows (st : SchedState) (r : RoundRobin Ptr) : Prop where
  requeued : Requeued st
  nodup : st.added.Nodup
  queue : r.queue = st.added
  current : st.sched.currentProcess = r.current.getD 0

variable {mem : Memory} {adds : List Ptr} {st st' : SchedState} {r r' : RoundRobin Ptr}
  {op : SchedOp} {ops : List SchedOp}

/-- PCBs that are added once are queued in this order. -/
theorem readyQueue_nodup (h : adds.Nodup) : readyQueue adds = adds := by
  induction adds using List.reverseRecOn with
  | nil => rfl
  | append_singleton adds pcb ih =>
    obtain ⟨hadds, -, hnew⟩ := List.nodup_append.mp h
    rw [readyQueue_concat, ih hadds]
    exact enqueue_new fun hin => hnew pcb hin pcb (List.mem_singleton_self pcb) rfl

theorem Follows.ring (h : Follows st r) : ReadyRing st.sched st.added :=
  readyQueue_nodup h.nodup ▸ h.requeued.ring

/-- **`schedule` takes the next of the waiting line.** -/
theorem Follows.upNext_eq (h : Follows st r) (hne : st.added ≠ []) :
    r.upcoming.head? = some (upNext st.sched) := by
  obtain ⟨behind, ahead⟩ := r
  have hring := h.ring
  have hqueue := h.queue
  have hcur := h.current
  simp only [RoundRobin.queue, RoundRobin.current, upcoming] at hqueue hcur ⊢
  rcases List.eq_nil_or_concat' behind with rfl | ⟨init, c, rfl⟩
  · rw [List.nil_append] at hqueue
    rw [upNext, if_pos (show st.sched.currentProcess = 0 from hcur), hring.head, ← hqueue,
      List.append_nil]
    cases ahead with
    | nil => exact absurd hqueue.symm hne
    | cons d rest => rfl
  · rw [List.getLast?_concat, Option.getD_some] at hcur
    rw [List.append_assoc, List.singleton_append] at hqueue
    have hc : c ≠ 0 := hring.nonnull c (by simp [← hqueue])
    rw [← hqueue] at hring
    rw [upNext, hcur, if_neg hc, hring.next_eq, ← List.append_assoc, List.head?_append]
    cases (ahead ++ init).head? <;> rfl

/-- What `schedule` dispatches is the first of the waiting line. -/
theorem Follows.schedule_eq (h : Follows st r) :
    (schedule st.sched).2 = r.upcoming.head? ∧
      (schedule st.sched).1.currentProcess = r.upcoming.head?.getD 0 := by
  have hmem := h.requeued.pointers.upNext_mem
  rw [schedule_current]
  by_cases hne : st.added = []
  · have hnil : r.upcoming = [] := by
      have hperm := r.upcoming_perm
      rw [h.queue, hne] at hperm
      exact hperm.eq_nil
    rw [hne] at hmem
    have hzero := hmem.resolve_right List.not_mem_nil
    rw [schedule_of_none hzero, hnil, hzero]
    exact ⟨rfl, rfl⟩
  · have hup := h.upNext_eq hne
    have hnext : upNext st.sched ∈ st.added := by
      rw [← h.queue]
      exact r.upcoming_perm.mem_iff.mp (List.mem_of_head? hup)
    rw [schedule_of_upNext (h.ring.nonnull _ hnext), hup]
    exact ⟨rfl, rfl⟩

/-- **Simulation.**  Every step of the scheduler that adds no PCB again is a move of the round
robin. -/
theorem Follows.step (h : Follows st r) (hstep : RequeueStep st op st') (hnodup : st'.added.Nodup) :
    ∃ r', Step r op.move r' ∧ Follows st' r' := by
  have hrequeued := requeueStep_requeued h.requeued hstep
  cases hstep with
  | @add pcb s' hpcb hobj hadd =>
    refine ⟨_, .join r pcb, hrequeued, hnodup, by rw [queue_join, h.queue], ?_⟩
    rw [current_join, ← h.current]
    exact hadd.current
  | schedule =>
    obtain ⟨hlabel, hcur⟩ := h.schedule_eq
    refine ⟨r.turn, ?_, hrequeued, hnodup, by rw [queue_turn, h.queue], ?_⟩
    · rw [hlabel]
      exact .turn r
    · rw [current_turn]
      exact hcur
  | other => exact ⟨r, .idle r, hrequeued, hnodup, h.queue, h.current⟩

theorem Follows.exists_schedule (h : Follows st r) :
    ∃ st', RequeueStep st (.schedule r.upcoming.head?) st' ∧ Follows st' r.turn := by
  have hstep := RequeueStep.schedule st
  obtain ⟨hlabel, hcur⟩ := h.schedule_eq
  refine ⟨_, hlabel ▸ hstep, requeueStep_requeued h.requeued hstep, h.nodup, ?_, ?_⟩
  · rw [queue_turn, h.queue]
  · rw [current_turn]
    exact hcur

theorem Follows.run (h : Follows st r) (hrun : Run RequeueStep st ops st')
    (hnodup : st'.added.Nodup) :
    ∃ r', Run Step r (ops.map SchedOp.move) r' ∧ Follows st' r' := by
  induction hrun with
  | nil => exact ⟨r, .nil, h⟩
  | snoc hbefore hstep ih =>
    have hgrow := requeue_added (Run.nil.snoc hstep)
    have hmid := hnodup
    rw [hgrow] at hmid
    obtain ⟨r₁, hr₁, hf₁⟩ := ih (List.nodup_append.mp hmid).1
    obtain ⟨r₂, hr₂, hf₂⟩ := hf₁.step hstep hnodup
    rw [List.map_append, List.map_singleton]
    exact ⟨r₂, hr₁.snoc hr₂, hf₂⟩

theorem follows_start (mem : Memory) : Follows (schedStart mem) ⟨[], []⟩ :=
  ⟨requeued_start mem, List.nodup_nil, rfl, rfl⟩

/-! ## Fairness -/

/-- The processes dispatched, in this order. -/
def dispatches (ops : List SchedOp) : List Ptr :=
  ops.filterMap fun
    | .schedule dispatched => dispatched
    | _ => none

/-- The number of calls of `schedule`. -/
def scheduleCalls (ops : List SchedOp) : Nat :=
  ops.countP fun
    | .schedule _ => true
    | _ => false

theorem turns_move (ops : List SchedOp) : turns (ops.map SchedOp.move) = dispatches ops := by
  rw [turns, dispatches, List.filterMap_map]
  congr 1
  funext op
  cases op <;> rfl

theorem joins_move (ops : List SchedOp) : joins (ops.map SchedOp.move) = addedPcbs ops := by
  rw [joins, addedPcbs, List.filterMap_map]
  congr 1
  funext op
  cases op <;> rfl

theorem turnCount_move (ops : List SchedOp) :
    turnCount (ops.map SchedOp.move) = scheduleCalls ops := by
  rw [turnCount, scheduleCalls, List.countP_map]
  congr 1
  funext op
  cases op <;> rfl

/-- PCBs are added once. -/
theorem Follows.joins_new (h : Follows st r) (hrun : Run RequeueStep st ops st')
    (hnodup : st'.added.Nodup) : ∀ x ∈ joins (ops.map SchedOp.move), x ∉ r.queue := by
  intro x hx hin
  rw [joins_move] at hx
  rw [h.queue] at hin
  rw [requeue_added hrun] at hnodup
  exact (List.nodup_append.mp hnodup).2.2 x hin x hx rfl

/-- **Round-robin fairness.**  Whatever states the PCBs are in: in a run that adds no PCB twice,
between two consecutive dispatches of a process every other one that is in the queue all the
time is dispatched exactly once.  In particular, `n` calls of `schedule` with `n` queued
processes and no additions dispatch each of them exactly once. -/
theorem scheduler_fair (hrun : Run RequeueStep (schedStart mem) ops st)
    (hnodup : (addedPcbs ops).Nodup) :
    (∀ pre p mid post, ops = pre ++ [.schedule (some p)] ++ mid ++ [.schedule (some p)] ++ post →
      p ∉ dispatches mid → ∀ q ∈ addedPcbs pre, q ≠ p → (dispatches mid).count q = 1) ∧
    ∀ pre mid post, ops = pre ++ mid ++ post → addedPcbs mid = [] →
      scheduleCalls mid = (addedPcbs pre).length →
      ∀ q ∈ addedPcbs pre, (dispatches mid).count q = 1 := by
  -- every state of the run has distinct PCBs, since they are among those of its end
  have hdistinct : ∀ {calls rest : List SchedOp} {t : SchedState}, ops = calls ++ rest →
      Run RequeueStep (schedStart mem) calls t → t.added.Nodup := by
    intro calls rest t heq ht
    rw [heq, addedPcbs, List.filterMap_append] at hnodup
    rw [requeue_added ht]
    exact (List.nodup_append.mp hnodup).1
  constructor
  · rintro pre p mid post rfl hnot q hq hne
    obtain ⟨st₃, hrun₃, -⟩ := hrun.split
    obtain ⟨st₂, hrun₂, hlast⟩ := hrun₃.init
    obtain ⟨st₁, hrun₁, hmid⟩ := hrun₂.split
    obtain ⟨st₀, hrun₀, hfirst⟩ := hrun₁.init
    have hnodup₃ := hdistinct rfl hrun₃
    have hnodup₂ := hdistinct (by rw [List.append_assoc]) hrun₂
    have hnodup₁ := hdistinct (by rw [List.append_assoc, List.append_assoc]) hrun₁
    have hnodup₀ := hdistinct (by simp only [List.append_assoc]; rfl) hrun₀
    obtain ⟨r₀, -, hf₀⟩ := (follows_start mem).run hrun₀ hnodup₀
    obtain ⟨r₁, hstep₁, hf₁⟩ := hf₀.step hfirst hnodup₁
    obtain ⟨r₂, hmoves, hf₂⟩ := hf₁.run hmid hnodup₂
    obtain ⟨r₃, hstep₃, -⟩ := hf₂.step hlast hnodup₃
    have hadded : st₁.added = addedPcbs pre := by
      rw [requeue_added hrun₁, schedStart, List.nil_append, addedPcbs, List.filterMap_append]
      exact List.append_nil _
    rw [← turns_move] at hnot ⊢
    refine fair_between hmoves (hf₁.queue ▸ hf₁.nodup) (hf₁.joins_new hmid hnodup₂)
      hstep₁.turn_some.2 hnot hstep₃.turn_some.1 ?_ hne
    rw [hf₁.queue, hadded]
    exact hq
  · rintro pre mid post rfl hnone hcalls q hq
    obtain ⟨st₂, hrun₂, -⟩ := hrun.split
    obtain ⟨st₁, hrun₁, hmid⟩ := hrun₂.split
    have hnodup₂ := hdistinct rfl hrun₂
    have hnodup₁ := hdistinct (List.append_assoc _ _ _) hrun₁
    obtain ⟨r₁, -, hf₁⟩ := (follows_start mem).run hrun₁ hnodup₁
    obtain ⟨r₂, hmoves, -⟩ := hf₁.run hmid hnodup₂
    have hqueue : r₁.queue = addedPcbs pre := hf₁.queue.trans (requeue_added hrun₁)
    have hlen : r₁.upcoming.length = (addedPcbs pre).length := by
      rw [r₁.upcoming_perm.length_eq, hqueue]
    obtain ⟨u, hup, -, hturns⟩ := run_round hmoves (by rw [joins_move, hnone])
      (by rw [turnCount_move, hcalls, hlen])
    rw [turns_move] at hup hturns
    rw [turnCount_move, hcalls, ← hlen, hup, List.length_append] at hturns
    obtain rfl : u = [] := List.eq_nil_of_length_eq_zero (by omega)
    rw [List.append_nil] at hup
    rw [← hup]
    refine List.count_eq_one_of_mem (r₁.upcoming_perm.nodup_iff.mpr (hf₁.queue ▸ hf₁.nodup)) ?_
    rw [r₁.upcoming_perm.mem_iff, hqueue]
    exact hq

/-- Additions leave `current_process` alone. -/
theorem adds_current {pcbs : List Ptr} (hrun : Run RequeueStep st (pcbs.map .add) st') :
    st'.sched.currentProcess = st.sched.currentProcess := by
  generalize hops : pcbs.map SchedOp.add = ops at hrun
  have hadds : ∀ op ∈ ops, ∃ pcb, op = .add pcb := by
    intro op hop
    rw [← hops] at hop
    obtain ⟨pcb, -, rfl⟩ := List.mem_map.mp hop
    exact ⟨pcb, rfl⟩
  clear hops
  induction hrun with
  | nil => rfl
  | snoc _ hstep ih =>
    rw [← ih fun op hop => hadds op (List.mem_append_left _ hop)]
    obtain ⟨pcb, rfl⟩ := hadds _ (List.mem_append_right _ (List.mem_singleton_self _))
    cases hstep with
    | add hpcb hobj hadd => exact hadd.current

/-- Three processes that take turns, none of them `READY` when it is added. -/
theorem scheduler_fair_three : ∃ st,
    Run RequeueStep (schedStart fun _ => 0xFF) ([.add 0x1000, .add 0x2000, .add 0x3000] ++
      [.schedule (some 0x1000), .schedule (some 0x2000), .schedule (some 0x3000),
        .schedule (some 0x1000)]) st ∧
      (∀ p ∈ [0x1000, 0x2000, 0x3000],
        pcbGet (fun _ => 0xFF) p .state ≠ ProcessState.ready.code) ∧
      (dispatches [.schedule (some 0x2000), .schedule (some 0x3000)]).count 0x3000 = 1 := by
  obtain ⟨st, hadds, hadded⟩ := exists_adds (fun _ => 0xFF) [0x1000, 0x2000, 0x3000]
    (by simp) (by simp [Apart])
  have hf : Follows st ⟨[], [0x1000, 0x2000, 0x3000]⟩ :=
    ⟨run_requeued hadds, by rw [hadded]; decide, hadded.symm, adds_current hadds⟩
  obtain ⟨st₁, hstep₁, hf₁⟩ := hf.exists_schedule
  obtain ⟨st₂, hstep₂, hf₂⟩ := hf₁.exists_schedule
  obtain ⟨st₃, hstep₃, hf₃⟩ := hf₂.exists_schedule
  obtain ⟨st₄, hstep₄, -⟩ := hf₃.exists_schedule
  have hrun := (((hadds.snoc hstep₁).snoc hstep₂).snoc hstep₃).snoc hstep₄
  refine ⟨st₄, hrun, ?_, ?_⟩
  · intro p hp
    rcases List.mem_cons.mp hp with rfl | hp
    · decide
    rcases List.mem_cons.mp hp with rfl | hp
    · decide
    · rw [List.mem_singleton.mp hp]
      decide
  · exact (scheduler_fair hrun (by decide)).1 [.add 0x1000, .add 0x2000, .add 0x3000] 0x1000 _ []
      rfl (by decide) 0x3000 (by decide) (by decide)

end OsKernel
