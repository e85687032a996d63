import OsKernel.Scheduler
import Mathlib.Data.List.Infix
import Mathlib.Logic.Function.Iterate

/-! # Adding a process that is queued already

`add_to_ready_queue` does not look whether its PCB is in the queue.  Whatever is added, the
ring stays a ring: `readyQueue` computes it from the sequence of additions, by `enqueue`.
A PCB that is added again becomes the last one, though, and all that were behind it are no
longer on the ring.  So nothing is lost exactly when a repeated addition is of the PCB that
was added last.
-/
namespace OsKernel

/-- One call, or anything else.  Any PCB may be added, also one that is in the queue; two
different PCBs share no byte, and the rest of the kernel leaves the added ones alone. -/
inductive RequeueStep : SchedState → SchedOp → SchedState → Prop
  | add (st : SchedState) {pcb : Ptr} {s' : Sched} (hpcb : pcb ≠ 0)
      (hobj : ∀ q ∈ st.added, q = pcb ∨ Apart q pcb) (h : AddReturns st.sched pcb s') :
      RequeueStep st (.add pcb) ⟨s', st.added ++ [pcb]⟩
  | schedule (st : SchedState) :
      RequeueStep st (.schedule (schedule st.sched).2) ⟨(schedule st.sched).1, st.added⟩
  | other (st : SchedState) {mem : Memory}
      (hmem : ∀ q ∈ st.added, ∀ x, q.toNat ≤ x → x < q.toNat + 52 → mem x = st.sched.mem x) :
      RequeueStep st .other ⟨{ st.sched with mem }, st.added⟩

/-- The queue that a sequence of additions leads to. -/
def readyQueue (adds : List Ptr) : List Ptr := adds.foldl enqueue []

/-- `p` is reached from `ready_queue_head` by `next` pointers. -/
def OnRing (s : Sched) (p : Ptr) : Prop := ∃ ps, NextPath s.mem s.readyQueueHead ps p

/-- Some number of calls of `schedule`, with nothing in between, dispatches `p`. -/
def CanDispatch (s : Sched) (p : Ptr) : Prop :=
  ∃ n, (schedule ((fun s => (schedule s).1)^[n] s)).2 = some p

/-- No PCB that was added is lost. -/
def NoneLost (st : SchedState) : Prop :=
  ∀ p ∈ st.added, OnRing st.sched p ∧ CanDispatch st.sched p

/-- A PCB is added again only right after it was added. -/
def RepeatsLast (adds : List Ptr) : Prop :=
  ∀ pre pcb, pre ++ [pcb] <+: adds → pcb ∈ pre → pre.getLast? = some pcb

variable {mem : Memory} {p c : Ptr} {ps qs adds : List Ptr} {s s' : Sched}
  {st st' : SchedState} {op : SchedOp} {ops : List SchedOp}

/-! ## The queue of a sequence of additions -/

theorem readyQueue_concat (adds : List Ptr) (pcb : Ptr) :
    readyQueue (adds ++ [pcb]) = enqueue (readyQueue adds) pcb := by
  rw [readyQueue, List.foldl_append]
  rfl

theorem not_mem_takeWhile_ne (ps : List Ptr) (p : Ptr) : p ∉ ps.takeWhile (· ≠ p) := by
  intro hp
  simpa using List.mem_takeWhile_imp hp

theorem readyQueue_subset (hp : p ∈ readyQueue adds) : p ∈ adds := by
  induction adds using List.reverseRecOn with
  | nil => exact hp
  | append_singleton adds pcb ih =>
    rw [readyQueue_concat, enqueue] at hp
    rcases List.mem_append.mp hp with hp | hp
    · exact List.mem_append_left _ (ih ((List.takeWhile_sublist _).subset hp))
    · exact List.mem_append_right _ hp

/-- Whoever was added last is the last of the queue. -/
theorem readyQueue_last (adds : List Ptr) (pcb : Ptr) :
    ∃ ps, readyQueue (adds ++ [pcb]) = ps ++ [pcb] ∧ pcb ∉ ps :=
  ⟨_, readyQueue_concat adds pcb, not_mem_takeWhile_ne _ _⟩

/-- Repeating the last addition changes nothing. -/
theorem readyQueue_repeat (adds : List Ptr) (pcb : Ptr) :
    readyQueue (adds ++ [pcb] ++ [pcb]) = readyQueue (adds ++ [pcb]) := by
  obtain ⟨ps, hps, hpcb⟩ := readyQueue_last adds pcb
  rw [readyQueue_concat, hps, enqueue_again hpcb]

/-- Adding again a PCB that others were added after loses the last one of them. -/
theorem readyQueue_loses {t : Ptr} (hin : p ∈ readyQueue (adds ++ [t])) (hne : p ≠ t) :
    t ∉ readyQueue (adds ++ [t] ++ [p]) := by
  obtain ⟨ps, hps, ht⟩ := readyQueue_last adds t
  rw [hps] at hin
  have hp : p ∈ ps := by simpa [hne] using hin
  obtain ⟨ys, zs, rfl, hys⟩ := List.eq_append_cons_of_mem hp
  rw [readyQueue_concat, hps, List.append_assoc, List.cons_append, enqueue_again hys]
  intro hmem
  rcases List.mem_append.mp hmem with hmem | hmem
  · exact ht (List.mem_append_left _ hmem)
  · exact hne (List.mem_singleton.mp hmem).symm

theorem RepeatsLast.of_prefix {pre : List Ptr} (h : RepeatsLast adds) (hpre : pre <+: adds) :
    RepeatsLast pre :=
  fun pre' pcb hpre' => h pre' pcb (hpre'.trans hpre)

/-- **Nothing is lost** when a repeated addition is of the PCB added last. -/
theorem RepeatsLast.mem_readyQueue (h : RepeatsLast adds) (hp : p ∈ adds) :
    p ∈ readyQueue adds := by
  induction adds using List.reverseRecOn with
  | nil => exact absurd hp List.not_mem_nil
  | append_singleton adds pcb ih =>
    have hih := ih (h.of_prefix (List.prefix_append _ _))
    by_cases hin : pcb ∈ adds
    · obtain ⟨init, rfl⟩ := List.getLast?_eq_some_iff.mp (h adds pcb List.prefix_rfl hin)
      rw [readyQueue_repeat]
      rcases List.mem_append.mp hp with hp | hp
      · exact hih hp
      · exact hih (List.mem_singleton.mp hp ▸ hin)
    · rw [readyQueue_concat, enqueue_new fun hmem => hin (readyQueue_subset hmem)]
      rcases List.mem_append.mp hp with hp | hp
      · exact List.mem_append_left _ (hih hp)
      · exact List.mem_append_right _ hp

theorem repeatsLast_of_mem (h : ∀ pre, pre <+: adds → ∀ p ∈ pre, p ∈ readyQueue pre) :
    RepeatsLast adds := by
  intro pre pcb hpre hin
  obtain ⟨init, t, rfl⟩ := (List.eq_nil_or_concat' pre).resolve_left (List.ne_nil_of_mem hin)
  rw [List.getLast?_concat]
  by_contra hne
  have hqueued := h _ ((List.prefix_append _ _).trans hpre) pcb hin
  exact readyQueue_loses hqueued (fun heq => hne (by rw [heq])) (h _ hpre t (by simp))

instance : DecidablePred RepeatsLast := fun adds =>
  decidable_of_iff (adds.inits.all fun pre => pre.all fun p => decide (p ∈ readyQueue pre)) <| by
    simp only [List.all_eq_true, List.mem_inits, decide_eq_true_eq]
    exact ⟨repeatsLast_of_mem, fun h _ hpre _ => (h.of_prefix hpre).mem_readyQueue⟩

/-! ## The ring in memory -/

/-- What is closed under `next` holds the whole path. -/
theorem NextPath.mem_of_closed (h : NextPath mem c qs p)
    (hnext : ∀ r ∈ ps, pcbGet mem r .next ∈ ps) (hc : c ∈ ps) : p ∈ ps ∧ ∀ q ∈ qs, q ∈ ps := by
  induction h with
  | nil => exact ⟨hc, by simp⟩
  | cons _ ih =>
    obtain ⟨hp, hqs⟩ := ih (hnext _ hc)
    exact ⟨hp, List.forall_mem_cons.mpr ⟨hc, hqs⟩⟩

/-- From each PCB of the ring every other one is reached. -/
theorem ReadyRing.path (h : ReadyRing s ps) (hc : c ∈ ps) (hp : p ∈ ps) :
    ∃ qs, NextPath s.mem c qs p := by
  obtain ⟨xs, ys, rfl⟩ := List.append_of_mem hc
  obtain ⟨r, -, htail⟩ := nextPath_append.mp h.circle
  obtain rfl := (nextPath_cons.mp htail).1
  obtain ⟨zs, ws, hcut⟩ := List.append_of_mem hp
  obtain ⟨r', hhead, hrest⟩ := nextPath_append.mp (hcut ▸ h.circle)
  obtain rfl := (nextPath_cons.mp hrest).1
  exact ⟨_, nextPath_append.mpr ⟨_, htail, hhead⟩⟩

theorem ReadyRing.head_mem (h : ReadyRing s ps) (hne : ps ≠ []) : s.readyQueueHead ∈ ps := by
  rw [h.head]
  cases ps with
  | nil => exact absurd rfl hne
  | cons p ps => exact List.mem_cons_self

theorem ReadyRing.onRing_iff (h : ReadyRing s ps) (hne : ps ≠ []) : OnRing s p ↔ p ∈ ps := by
  constructor
  · rintro ⟨qs, hpath⟩
    exact (hpath.mem_of_closed (fun r => h.next_mem) (h.head_mem hne)).1
  · exact h.path (h.head_mem hne)

theorem SchedPointers.of_schedule (h : SchedPointers s ps) :
    SchedPointers (schedule s).1 ps where
  nonnull := h.nonnull
  objects := h.objects
  head := by
    rw [schedule_head]
    exact h.head
  current := by
    rw [schedule_current]
    exact h.upNext_mem
  next q hq := by
    rw [schedule_keeps h hq (by decide)]
    exact h.next q hq

/-- `schedule` follows the `next` pointers. -/
theorem SchedPointers.canDispatch (h : SchedPointers s ps) (hup : upNext s ∈ ps)
    (hpath : NextPath s.mem (upNext s) qs p) : CanDispatch s p := by
  induction qs generalizing s with
  | nil =>
    rw [nextPath_nil] at hpath
    refine ⟨0, ?_⟩
    rw [Function.iterate_zero_apply, schedule_of_upNext (h.nonnull _ hup), hpath]
  | cons t qs ih =>
    obtain ⟨-, hqs⟩ := hpath.mem_of_closed h.next hup
    obtain ⟨rfl, hrest⟩ := nextPath_cons.mp hpath
    have hnext : upNext (schedule s).1 = pcbGet s.mem (upNext s) .next := by
      rw [upNext, schedule_current, if_neg (h.nonnull _ hup),
        schedule_keeps h hup (by decide)]
    obtain ⟨n, hn⟩ := ih h.of_schedule (hnext ▸ h.next _ hup) <| by
      rw [hnext]
      exact hrest.congr fun r hr => schedule_keeps h (hqs r (by simp [hr])) (by decide)
    exact ⟨n + 1, hn⟩

/-! ## Every run -/

theorem next_mem_pcbSet {v : Ptr} (hobj : p = c ∨ Apart p c) (hv : v ∈ ps)
    (hc : c ≠ p → pcbGet mem c .next ∈ ps) : pcbGet (pcbSet mem p .next v) c .next ∈ ps := by
  rcases hobj with rfl | hapart
  · rw [pcbGet_pcbSet_self]
    exact hv
  · rw [pcbGet_pcbSet_apart hapart]
    exact hc hapart.ne.symm

/-- **The invariant of every run**: the ring is the queue of the additions. -/
structure Requeued (st : SchedState) : Prop where
  ring : ReadyRing st.sched (readyQueue st.added)
  pointers : SchedPointers st.sched st.added

theorem Requeued.add {pcb : Ptr} (h : Requeued st) (hpcb : pcb ≠ 0)
    (hobj : ∀ q ∈ st.added, q = pcb ∨ Apart q pcb) (hadd : AddReturns st.sched pcb s') :
    Requeued ⟨s', st.added ++ [pcb]⟩ := by
  have hring := h.ring.add hpcb (fun q hq => hobj q (readyQueue_subset hq)) hadd
  rw [← readyQueue_concat] at hring
  have hpcbmem : pcb ∈ st.added ++ [pcb] := by simp
  have hobjs : ∀ q ∈ st.added ++ [pcb], ∀ r ∈ st.added ++ [pcb], q = r ∨ Apart q r := by
    intro q hq r hr
    rw [List.mem_append, List.mem_singleton] at hq hr
    rcases hq with hq | rfl <;> rcases hr with hr | rfl
    · exact h.pointers.objects q hq r hr
    · exact hobj q hq
    · exact (hobj r hr).imp Eq.symm Apart.symm
    · exact Or.inl rfl
  refine ⟨hring, fun q hq => ?_, hobjs, ?_, ?_, fun q hq => ?_⟩
  · rcases List.mem_append.mp hq with hq | hq
    · exact h.pointers.nonnull q hq
    · exact List.mem_singleton.mp hq ▸ hpcb
  · exact Or.inr (readyQueue_subset (hring.head_mem (by simp [readyQueue_concat, enqueue])))
  · rw [hadd.current]
    exact h.pointers.current.imp_right (List.mem_append_left _)
  · have hold : q ≠ pcb → pcbGet st.sched.mem q .next ∈ st.added ++ [pcb] := fun hne =>
      List.mem_append_left _ (h.pointers.next q (by simpa [hne] using hq))
    rcases h.ring.add_cases hadd with ⟨-, rfl⟩ | ⟨xs, t, hxs, rfl⟩
    · exact next_mem_pcbSet (hobjs pcb hpcbmem q hq) hpcbmem hold
    · have hnonempty : readyQueue st.added ≠ [] := by simp [hxs]
      have hin : ∀ r ∈ readyQueue st.added, r ∈ st.added ++ [pcb] := fun r hr =>
        List.mem_append_left _ (readyQueue_subset hr)
      refine next_mem_pcbSet (hobjs pcb hpcbmem q hq) (hin _ (h.ring.head_mem hnonempty)) ?_
      intro hne
      exact next_mem_pcbSet (hobjs t (hin t (by simp [hxs])) q hq) hpcbmem fun _ => hold hne

theorem requeueStep_requeued (h : Requeued st) (hstep : RequeueStep st op st') :
    Requeued st' := by
  cases hstep with
  | add hpcb hobj hadd => exact h.add hpcb hobj hadd
  | schedule =>
    have hring := h.ring
    refine ⟨⟨hring.nonnull, hring.apart, ?_, ?_⟩, h.pointers.of_schedule⟩
    · rw [schedule_head]
      exact hring.head
    · rw [schedule_head]
      exact hring.circle.congr fun r hr =>
        schedule_keeps h.pointers (readyQueue_subset hr) (by decide)
  | other hmem =>
    have hnext : ∀ q ∈ st.added, pcbGet _ q .next = pcbGet st.sched.mem q .next :=
      fun q hq => pcbGet_eq (hmem q hq) .next
    have hring := h.ring
    have hptr := h.pointers
    refine ⟨⟨hring.nonnull, hring.apart, hring.head, ?_⟩,
      hptr.nonnull, hptr.objects, hptr.head, hptr.current, fun q hq => ?_⟩
    · exact hring.circle.congr fun r hr => hnext r (readyQueue_subset hr)
    · rw [hnext q hq]
      exact hptr.next q hq

theorem requeued_start (mem : Memory) : Requeued (schedStart mem) :=
  ⟨(schedStart_valid mem).ring, (schedStart_valid mem).pointers⟩

theorem run_requeued (hrun : Run RequeueStep (schedStart mem) ops st) : Requeued st :=
  hrun.invariant Requeued (requeued_start mem) fun _ _ _ => requeueStep_requeued

/-- PCBs are never taken off the list of those added. -/
theorem requeue_added (hrun : Run RequeueStep st ops st') :
    st'.added = st.added ++ addedPcbs ops :=
  hrun.history SchedState.added _ fun st op st' hstep => by
    cases hstep with
    | add => rfl
    | schedule => exact (List.append_nil _).symm
    | other => exact (List.append_nil _).symm

theorem run_requeue_added (hrun : Run RequeueStep (schedStart mem) ops st) :
    st.added = addedPcbs ops :=
  requeue_added hrun

/-- Every sequence of additions comes to its end. -/
theorem exists_adds (mem : Memory) (pcbs : List Ptr) (hnonnull : ∀ p ∈ pcbs, p ≠ 0)
    (hobj : ∀ p ∈ pcbs, ∀ q ∈ pcbs, p = q ∨ Apart p q) :
    ∃ st, Run RequeueStep (schedStart mem) (pcbs.map .add) st ∧ st.added = pcbs := by
  induction pcbs using List.reverseRecOn with
  | nil => exact ⟨_, .nil, rfl⟩
  | append_singleton pcbs pcb ih =>
    obtain ⟨st, hrun, hadded⟩ := ih (fun p hp => hnonnull p (by simp [hp]))
      fun p hp q hq => hobj p (by simp [hp]) q (by simp [hq])
    obtain ⟨s', hadd⟩ := (run_requeued hrun).ring.add_returns pcb
    have hstep : RequeueStep st (.add pcb) ⟨s', st.added ++ [pcb]⟩ :=
      .add st (hnonnull pcb (by simp)) (fun q hq => hobj q (by simp [← hadded, hq]) pcb (by simp))
        hadd
    refine ⟨⟨s', st.added ++ [pcb]⟩, ?_, by rw [hadded]⟩
    rw [List.map_append, List.map_singleton]
    exact hrun.snoc hstep

/-- Reachability of all PCBs added so far, in terms of the additions. -/
theorem Requeued.noneLost_iff (h : Requeued st) :
    NoneLost st ↔ ∀ p ∈ st.added, p ∈ readyQueue st.added := by
  constructor
  · intro hkept p hp
    obtain ⟨init, t, hadded⟩ :=
      (List.eq_nil_or_concat' st.added).resolve_left (List.ne_nil_of_mem hp)
    have hne : readyQueue st.added ≠ [] := by simp [hadded, readyQueue_concat, enqueue]
    exact (h.ring.onRing_iff hne).mp (hkept p hp).1
  · intro hall p hp
    have hne : readyQueue st.added ≠ [] := List.ne_nil_of_mem (hall p hp)
    have hup : upNext st.sched ∈ st.added := by
      rw [upNext]
      split
      case isTrue => exact readyQueue_subset (h.ring.head_mem hne)
      case isFalse hc => exact h.pointers.next _ (h.pointers.current.resolve_left hc)
    obtain ⟨qs, hpath⟩ := h.ring.path (hall _ hup) (hall p hp)
    exact ⟨(h.ring.onRing_iff hne).mpr (hall p hp), h.pointers.canDispatch hup hpath⟩

/-- **When queuing loses no process.**  However often PCBs are added again, the tail search
of `add_to_ready_queue` ends.  In every state of a run each PCB added so far is reached
from `ready_queue_head`, and can be dispatched, if and only if a PCB is added again only
right after it was added. -/
theorem queue_keeps_iff (hrun : Run RequeueStep (schedStart mem) ops st) :
    (∀ pcb, ∃ s', AddReturns st.sched pcb s') ∧
    ((∀ calls t, calls <+: ops → Run RequeueStep (schedStart mem) calls t → NoneLost t) ↔
      RepeatsLast (addedPcbs ops)) := by
  refine ⟨(run_requeued hrun).ring.add_returns, fun hkept => ?_, fun hcond calls t hpre ht => ?_⟩
  · refine repeatsLast_of_mem fun pre hpre => ?_
    obtain ⟨calls, hcalls, rfl⟩ := List.prefix_filterMap_iff.mp hpre
    obtain ⟨t, ht⟩ := hrun.of_prefix hcalls
    have hlost := (run_requeued ht).noneLost_iff.mp (hkept calls t hcalls ht)
    rw [run_requeue_added ht] at hlost
    exact hlost
  · refine (run_requeued ht).noneLost_iff.mpr fun p hp => ?_
    rw [run_requeue_added ht] at hp ⊢
    exact (hcond.of_prefix (hpre.filterMap _)).mem_readyQueue hp

/-- Adding the last of two processes again loses none. -/
theorem queue_keeps_last_again : ∃ st,
    Run RequeueStep (schedStart fun _ => 0) [.add 0x1000, .add 0x2000, .add 0x2000] st ∧
      NoneLost st := by
  obtain ⟨st, hrun, -⟩ := exists_adds (fun _ => 0) [0x1000, 0x2000, 0x2000]
    (by simp) (by simp [Apart])
  exact ⟨st, hrun, (queue_keeps_iff hrun).2.mpr (by decide) _ st List.prefix_rfl hrun⟩

/-- Adding the first of two processes again loses the second one. -/
theorem queue_loses_second : ∃ st,
    Run RequeueStep (schedStart fun _ => 0) [.add 0x1000, .add 0x2000, .add 0x1000] st ∧
      0x2000 ∈ st.added ∧ ¬ OnRing st.sched 0x2000 := by
  obtain ⟨st, hrun, hadded⟩ := exists_adds (fun _ => 0) [0x1000, 0x2000, 0x1000]
    (by simp) (by simp [Apart])
  have hring := (run_requeued hrun).ring
  rw [hadded] at hring
  refine ⟨st, hrun, by rw [hadded]; decide, ?_⟩
  rw [hring.onRing_iff (by decide)]
  decide

end OsKernel
