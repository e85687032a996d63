import OsKernel.Pcb
import Mathlib.Data.List.TakeWhile

/-! # The scheduler (`scheduler.c`)

The ready queue is a circle of PCBs linked through `next`: `ready_queue_head` points to
the PCB that was added first, and the last one points back to it.  `current_process` is
a second pointer into the same circle.

`Run SchedStep` interleaves the two functions of the file with anything else the kernel
does, as long as that leaves the queued PCBs alone.  `SchedValid` is the invariant of
these runs: the circle in memory is the list of the PCBs added so far, and their states
single out the current one.
-/
namespace OsKernel

/-- The memory, and the static variables of `scheduler.c`. -/
structure Sched where
  mem : Memory
  currentProcess : Ptr
  readyQueueHead : Ptr

/-- One turn of the loop of `add_to_ready_queue`, at `temp`. -/
def tailTurn (mem : Memory) (readyQueueHead temp : Ptr) : Ptr ⊕ Ptr :=
  if pcbGet mem temp .next ≠ readyQueueHead then .inl (pcbGet mem temp .next)
  else .inr temp

/-- `add_to_ready_queue` returns and leaves `s'` behind. -/
def AddReturns (s : Sched) (pcb : Ptr) (s' : Sched) : Prop :=
  if s.readyQueueHead = 0 then
    s' = { s with readyQueueHead := pcb, mem := pcbSet s.mem pcb .next pcb }
  else
    ∃ temp, Returns (tailTurn s.mem s.readyQueueHead) s.readyQueueHead temp ∧
      s' = { s with
        mem := pcbSet (pcbSet s.mem temp .next pcb) pcb .next s.readyQueueHead }

/-- The first half of `schedule`: the choice of the next process. -/
def selectProcess (s : Sched) : Sched :=
  if s.currentProcess = 0 then { s with currentProcess := s.readyQueueHead }
  else
    let mem := pcbSet s.mem s.currentProcess .state ProcessState.ready.code
    { s with mem, currentProcess := pcbGet mem s.currentProcess .next }

/-- `schedule`, up to its call of `context_switch`: the state at that call and its
argument, if it is made. -/
def schedule (s : Sched) : Sched × Option Ptr :=
  let s := selectProcess s
  if s.currentProcess ≠ 0 then
    ({ s with mem := pcbSet s.mem s.currentProcess .state ProcessState.running.code },
      some s.currentProcess)
  else (s, none)

/-! ## Runs -/

/-- The scheduler, and the PCBs added to it so far. -/
structure SchedState where
  sched : Sched
  added : List Ptr

/-- What happens to the scheduler: calls of its two functions, `schedule` with the process
it dispatches, and the rest of the kernel. -/
inductive SchedOp
  | add (pcb : Ptr)
  | schedule (dispatched : Option Ptr)
  | other
  deriving DecidableEq, Repr

/-- One call, or anything else.  A PCB is added once, while it is `READY`; the rest of the
kernel leaves the queued PCBs alone. -/
inductive SchedStep : SchedState → SchedOp → SchedState → Prop
  | add (st : SchedState) {pcb : Ptr} {s' : Sched} (hpcb : pcb ≠ 0)
      (hready : pcbGet st.sched.mem pcb .state = ProcessState.ready.code)
      (hnew : ∀ q ∈ st.added, Apart q pcb) (h : AddReturns st.sched pcb s') :
      SchedStep st (.add pcb) ⟨s', st.added ++ [pcb]⟩
  | schedule (st : SchedState) :
      SchedStep st (.schedule (schedule st.sched).2) ⟨(schedule st.sched).1, st.added⟩
  | other (st : SchedState) {mem : Memory}
      (hmem : ∀ q ∈ st.added, ∀ x, q.toNat ≤ x → x < q.toNat + 52 → mem x = st.sched.mem x) :
      SchedStep st .other ⟨{ st.sched with mem }, st.added⟩

/-- The scheduler at boot. -/
def schedStart (mem : Memory) : SchedState := ⟨⟨mem, 0, 0⟩, []⟩

/-! ## The circle -/

/-- Following `next` from `p` visits `ps`, in this order, and leads to `q`. -/
inductive NextPath (mem : Memory) : Ptr → List Ptr → Ptr → Prop
  | nil {p : Ptr} : NextPath mem p [] p
  | cons {p q : Ptr} {ps : List Ptr} (rest : NextPath mem (pcbGet mem p .next) ps q) :
      NextPath mem p (p :: ps) q

/-- The queue in memory: from the head the `next` pointers visit `ps`, in this order, and
return to the head. -/
structure ReadyRing (s : Sched) (ps : List Ptr) : Prop where
  nonnull : ∀ p ∈ ps, p ≠ 0
  apart : ps.Pairwise Apart
  head : s.readyQueueHead = ps.head?.getD 0
  circle : NextPath s.mem s.readyQueueHead ps s.readyQueueHead

/-- The pointers of the scheduler are `NULL` or among the PCBs `ps`, also the `next`
pointers of those; two different ones of `ps` share no byte. -/
structure SchedPointers (s : Sched) (ps : List Ptr) : Prop where
  nonnull : ∀ p ∈ ps, p ≠ 0
  objects : ∀ p ∈ ps, ∀ q ∈ ps, p = q ∨ Apart p q
  head : s.readyQueueHead = 0 ∨ s.readyQueueHead ∈ ps
  current : s.currentProcess = 0 ∨ s.currentProcess ∈ ps
  next : ∀ p ∈ ps, pcbGet s.mem p .next ∈ ps

/-- The queue after `add_to_ready_queue` of `pcb`: a PCB that is not in it comes last; one
that is in it becomes the last, and those behind it are cut off. -/
def enqueue (ps : List Ptr) (pcb : Ptr) : List Ptr := ps.takeWhile (· ≠ pcb) ++ [pcb]

/-- **The invariant of the scheduler.** -/
structure SchedValid (s : Sched) (ps : List Ptr) : Prop where
  nonnull : ∀ p ∈ ps, p ≠ 0
  apart : ps.Pairwise Apart
  head : s.readyQueueHead = ps.head?.getD 0
  circle : NextPath s.mem s.readyQueueHead ps s.readyQueueHead
  current : s.currentProcess = 0 ∨ s.currentProcess ∈ ps
  states : ∀ p ∈ ps, pcbGet s.mem p .state =
    (if p = s.currentProcess then ProcessState.running else ProcessState.ready).code

variable {mem mem' : Memory} {p q t c head : Ptr} {ps qs : List Ptr} {s s' : Sched}

theorem NextPath.second {p' : Ptr} (h : NextPath mem p (p :: p' :: ps) q) :
    pcbGet mem p .next = p' := by
  cases h with
  | cons rest =>
    generalize pcbGet mem p .next = c at rest
    cases rest
    rfl

theorem NextPath.congr (h : NextPath mem p ps q)
    (hmem : ∀ r ∈ ps, pcbGet mem' r .next = pcbGet mem r .next) : NextPath mem' p ps q := by
  induction h with
  | nil => exact .nil
  | cons _ ih =>
    refine .cons ?_
    rw [hmem _ List.mem_cons_self]
    exact ih fun r hr => hmem r (List.mem_cons_of_mem _ hr)

theorem nextPath_cons :
    NextPath mem p (t :: ps) q ↔ p = t ∧ NextPath mem (pcbGet mem t .next) ps q := by
  constructor
  · intro h
    cases h with
    | cons rest => exact ⟨rfl, rest⟩
  · rintro ⟨rfl, rest⟩
    exact .cons rest

theorem nextPath_nil : NextPath mem p [] q ↔ p = q := by
  constructor
  · intro h
    cases h
    rfl
  · rintro rfl
    exact .nil

theorem nextPath_append :
    NextPath mem p (ps ++ qs) q ↔ ∃ r, NextPath mem p ps r ∧ NextPath mem r qs q := by
  induction ps generalizing p with
  | nil => simp only [List.nil_append, nextPath_nil, exists_eq_left']
  | cons t ps ih =>
    rw [List.cons_append, nextPath_cons, ih]
    simp only [nextPath_cons, and_assoc, exists_and_left]

/-- The tail search ends at the last PCB of the circle. -/
theorem tail_returns (h : NextPath mem p (ps ++ [t]) head) (hhead : head ∉ (ps ++ [t]).tail) :
    Returns (tailTurn mem head) p t := by
  induction ps generalizing p with
  | nil =>
    obtain ⟨rfl, hend⟩ := nextPath_cons.mp h
    rw [nextPath_nil] at hend
    apply Returns.of_done
    rw [tailTurn, if_neg (not_not.mpr hend)]
  | cons r ps ih =>
    rw [List.cons_append] at h hhead
    rw [List.tail_cons] at hhead
    obtain ⟨rfl, hrest⟩ := nextPath_cons.mp h
    -- the next PCB is in the rest of the circle, where `head` is not
    have hmem : pcbGet mem p .next ∈ ps ++ [t] := by
      cases hps : ps ++ [t] with
      | nil => exact absurd hps (by simp)
      | cons u us =>
        rw [hps, nextPath_cons] at hrest
        rw [hrest.1]
        exact List.mem_cons_self
    have hne : pcbGet mem p .next ≠ head := fun heq => hhead (heq ▸ hmem)
    refine Returns.of_turn ?_ (ih hrest ?_)
    · rw [tailTurn, if_pos hne]
    · exact fun hin => hhead (List.mem_of_mem_tail hin)

/-! ## The calls keep the invariant -/

theorem SchedValid.ring (h : SchedValid s ps) : ReadyRing s ps :=
  ⟨h.nonnull, h.apart, h.head, h.circle⟩

theorem ReadyRing.head_eq_zero (h : ReadyRing s ps) : s.readyQueueHead = 0 ↔ ps = [] := by
  rw [h.head]
  cases ps with
  | nil => exact ⟨fun _ => rfl, fun _ => rfl⟩
  | cons p ps =>
    have hne := h.nonnull p List.mem_cons_self
    simp [hne]

/-- What comes after a PCB in the circle. -/
theorem ReadyRing.next_eq (h : ReadyRing s (ps ++ c :: qs)) :
    pcbGet s.mem c .next = (qs ++ ps).head?.getD c := by
  obtain ⟨r, hps, hrest⟩ := nextPath_append.mp h.circle
  obtain ⟨rfl, hqs⟩ := nextPath_cons.mp hrest
  cases qs with
  | cons d qs => exact (nextPath_cons.mp hqs).1
  | nil =>
    rw [nextPath_nil] at hqs
    rw [hqs, h.head]
    cases ps <;> rfl

theorem ReadyRing.next_mem (h : ReadyRing s ps) (hc : c ∈ ps) : pcbGet s.mem c .next ∈ ps := by
  obtain ⟨xs, ys, rfl⟩ := List.append_of_mem hc
  rw [h.next_eq]
  cases ys with
  | cons d ys => simp
  | nil => cases xs <;> simp

theorem ReadyRing.tail_search (h : ReadyRing s (ps ++ [t])) :
    Returns (tailTurn s.mem s.readyQueueHead) s.readyQueueHead t := by
  apply tail_returns h.circle
  rw [h.head]
  cases hps : ps ++ [t] with
  | nil => exact List.not_mem_nil
  | cons u us =>
    have hapart := h.apart
    rw [hps, List.pairwise_cons] at hapart
    exact fun hmem => (hapart.1 _ hmem).ne rfl

theorem AddReturns.current {pcb : Ptr} (h : AddReturns s pcb s') :
    s'.currentProcess = s.currentProcess := by
  rw [AddReturns] at h
  split at h
  case isTrue => rw [h]
  case isFalse =>
    obtain ⟨temp, -, rfl⟩ := h
    rfl

/-- The tail search of `add_to_ready_queue` ends, whatever is to be added. -/
theorem ReadyRing.add_returns (h : ReadyRing s ps) (pcb : Ptr) : ∃ s', AddReturns s pcb s' := by
  by_cases hzero : s.readyQueueHead = 0
  · exact ⟨_, by rw [AddReturns, if_pos hzero]⟩
  · obtain ⟨xs, t, rfl⟩ : ∃ xs t, ps = xs ++ [t] :=
      (List.eq_nil_or_concat' ps).resolve_left (mt h.head_eq_zero.mpr hzero)
    exact ⟨_, by rw [AddReturns, if_neg hzero]; exact ⟨t, h.tail_search, rfl⟩⟩

/-- **What `add_to_ready_queue` does**: the first PCB points to itself, any other comes
between the last one and the first. -/
theorem ReadyRing.add_cases {pcb : Ptr} (h : ReadyRing s ps) (hadd : AddReturns s pcb s') :
    (ps = [] ∧ s' = { s with readyQueueHead := pcb, mem := pcbSet s.mem pcb .next pcb }) ∨
    ∃ xs t, ps = xs ++ [t] ∧ s' = { s with
      mem := pcbSet (pcbSet s.mem t .next pcb) pcb .next s.readyQueueHead } := by
  rw [AddReturns] at hadd
  split at hadd
  case isTrue hzero => exact Or.inl ⟨h.head_eq_zero.mp hzero, hadd⟩
  case isFalse hzero =>
    obtain ⟨temp, hret, rfl⟩ := hadd
    obtain ⟨xs, t, rfl⟩ : ∃ xs t, ps = xs ++ [t] :=
      (List.eq_nil_or_concat' ps).resolve_left (mt h.head_eq_zero.mpr hzero)
    obtain rfl := hret.unique h.tail_search
    exact Or.inr ⟨xs, temp, rfl, rfl⟩

/-- Two PCBs of the queue are the same or share no byte. -/
theorem ReadyRing.eq_or_apart (h : ReadyRing s ps) (hp : p ∈ ps) (hq : q ∈ ps) :
    p = q ∨ Apart p q := by
  by_cases heq : p = q
  · exact Or.inl heq
  · exact Or.inr (h.apart.forall hp hq heq)

theorem enqueue_new {pcb : Ptr} (h : pcb ∉ ps) : enqueue ps pcb = ps ++ [pcb] := by
  rw [enqueue, List.takeWhile_eq_self_iff.mpr]
  intro q hq
  exact decide_eq_true fun heq => h (heq ▸ hq)

theorem enqueue_again {pcb : Ptr} (h : pcb ∉ ps) : enqueue (ps ++ pcb :: qs) pcb = ps ++ [pcb] := by
  have hps : ∀ q ∈ ps, decide (q ≠ pcb) = true := fun q hq =>
    decide_eq_true fun heq => h (heq ▸ hq)
  rw [enqueue, List.takeWhile_append_of_pos hps, List.takeWhile_cons_of_neg (by simp),
    List.append_nil]

/-- A PCB that is in the ring already: the links up to it are the old ones, and it now closes
the circle. -/
theorem ReadyRing.add_again {pcb t : Ptr} {xs ys zs : List Ptr} (h : ReadyRing s (ys ++ pcb :: zs))
    (hlast : ys ++ pcb :: zs = xs ++ [t]) (hys : pcb ∉ ys)
    (hobj : ∀ q ∈ ys ++ pcb :: zs, q = pcb ∨ Apart q pcb) :
    ReadyRing { s with mem := pcbSet (pcbSet s.mem t .next pcb) pcb .next s.readyQueueHead }
      (ys ++ [pcb]) := by
  have htail : t ∈ pcb :: zs := by
    have hgetLast := congrArg List.getLast? hlast
    rw [List.getLast?_append_cons, List.getLast?_concat] at hgetLast
    exact List.mem_of_getLast? hgetLast
  have hapart : ∀ q ∈ ys, Apart t q := fun q hq =>
    ((List.pairwise_append.mp h.apart).2.2 q hq t htail).symm
  obtain ⟨r, hpath, hrest⟩ := nextPath_append.mp h.circle
  obtain rfl := (nextPath_cons.mp hrest).1
  have hsub : (ys ++ [r]).Sublist (ys ++ r :: zs) :=
    (List.singleton_sublist.mpr List.mem_cons_self).append_left ys
  refine ⟨fun p hp => h.nonnull p (hsub.subset hp), h.apart.sublist hsub, ?_, ?_⟩
  · dsimp only
    rw [h.head]
    cases ys <;> rfl
  · refine nextPath_append.mpr ⟨r, hpath.congr fun q hq => ?_, ?_⟩
    · have hqr : Apart q r := (hobj q (by simp [hq])).resolve_left fun heq => hys (heq ▸ hq)
      rw [pcbGet_pcbSet_apart hqr.symm, pcbGet_pcbSet_apart (hapart q hq)]
    · exact nextPath_cons.mpr ⟨rfl, nextPath_nil.mpr pcbGet_pcbSet_self⟩

/-- A new PCB: up to the tail the links are the old ones, then come the two new ones. -/
theorem ReadyRing.add_new {pcb t : Ptr} {xs : List Ptr} (h : ReadyRing s (xs ++ [t]))
    (hpcb : pcb ≠ 0) (hnew : ∀ q ∈ xs ++ [t], Apart q pcb) :
    ReadyRing { s with mem := pcbSet (pcbSet s.mem t .next pcb) pcb .next s.readyQueueHead }
      (xs ++ [t] ++ [pcb]) := by
  obtain ⟨r, hpath, hlast⟩ := nextPath_append.mp h.circle
  obtain rfl := (nextPath_cons.mp hlast).1
  have hxs : ∀ q ∈ xs, Apart r q := fun q hq =>
    ((List.pairwise_append.mp h.apart).2.2 q hq r (by simp)).symm
  refine ⟨?_, ?_, ?_, ?_⟩
  · exact List.forall_mem_append.mpr ⟨h.nonnull, List.forall_mem_singleton.mpr hpcb⟩
  · refine List.pairwise_append.mpr ⟨h.apart, List.pairwise_singleton _ _, ?_⟩
    simpa using hnew
  · dsimp only
    rw [h.head]
    cases xs <;> rfl
  · rw [List.append_assoc, nextPath_append]
    refine ⟨r, hpath.congr fun q hq => ?_, nextPath_cons.mpr ⟨rfl, ?_⟩⟩
    · rw [pcbGet_pcbSet_apart (hnew q (by simp [hq])).symm, pcbGet_pcbSet_apart (hxs q hq)]
    · rw [pcbGet_pcbSet_apart (hnew r (by simp)).symm, pcbGet_pcbSet_self]
      exact nextPath_cons.mpr ⟨rfl, nextPath_nil.mpr pcbGet_pcbSet_self⟩

/-- **`add_to_ready_queue` on the ring**, of a new PCB or of one that is in it already. -/
theorem ReadyRing.add {pcb : Ptr} (h : ReadyRing s ps) (hpcb : pcb ≠ 0)
    (hobj : ∀ q ∈ ps, q = pcb ∨ Apart q pcb) (hadd : AddReturns s pcb s') :
    ReadyRing s' (enqueue ps pcb) := by
  rcases h.add_cases hadd with ⟨rfl, rfl⟩ | ⟨xs, t, hps, rfl⟩
  · refine ⟨by simpa [enqueue] using hpcb, List.pairwise_singleton _ _, rfl, ?_⟩
    exact nextPath_cons.mpr ⟨rfl, nextPath_nil.mpr pcbGet_pcbSet_self⟩
  by_cases hin : pcb ∈ ps
  · obtain ⟨ys, zs, rfl, hys⟩ := List.eq_append_cons_of_mem hin
    rw [enqueue_again hys]
    exact h.add_again hps hys hobj
  · subst hps
    rw [enqueue_new hin]
    exact h.add_new hpcb fun q hq => (hobj q hq).resolve_left fun heq => hin (heq ▸ hq)

/-- Adding stores into `next` fields only. -/
theorem add_keeps {pcb : Ptr} {f : PcbField} (h : SchedValid s ps) (hnew : ∀ q ∈ ps, Apart q pcb)
    (hadd : AddReturns s pcb s') (hp : p ∈ ps ++ [pcb]) (hf : f ≠ .next) :
    pcbGet s'.mem p f = pcbGet s.mem p f := by
  have hpcb : pcb = p ∨ Apart pcb p := by
    rcases List.mem_append.mp hp with hp | hp
    · exact Or.inr (hnew p hp).symm
    · exact Or.inl (List.mem_singleton.mp hp).symm
  rcases h.ring.add_cases hadd with ⟨-, rfl⟩ | ⟨xs, t, rfl, rfl⟩
  · exact pcbGet_pcbSet_field hpcb hf.symm
  · have htail : t = p ∨ Apart t p := by
      rcases List.mem_append.mp hp with hp | hp
      · exact h.ring.eq_or_apart (by simp) hp
      · exact Or.inr (List.mem_singleton.mp hp ▸ hnew t (by simp))
    exact (pcbGet_pcbSet_field hpcb hf.symm).trans (pcbGet_pcbSet_field htail hf.symm)

/-- **`add_to_ready_queue`** puts a new PCB at the end of the circle. -/
theorem add_valid {pcb : Ptr} (h : SchedValid s ps) (hpcb : pcb ≠ 0)
    (hready : pcbGet s.mem pcb .state = ProcessState.ready.code)
    (hnew : ∀ q ∈ ps, Apart q pcb) (hadd : AddReturns s pcb s') :
    SchedValid s' (ps ++ [pcb]) ∧ s'.currentProcess = s.currentProcess := by
  have hring := h.ring.add hpcb (fun q hq => Or.inr (hnew q hq)) hadd
  rw [enqueue_new fun hin => (hnew pcb hin).ne rfl] at hring
  have hsame := hadd.current
  have hcur : pcb ≠ s.currentProcess := by
    rintro rfl
    rcases h.current with hc | hc
    · exact hpcb hc
    · exact (hnew _ hc).ne rfl
  refine ⟨⟨hring.nonnull, hring.apart, hring.head, hring.circle, ?_, fun p hp => ?_⟩, hsame⟩
  · rw [hsame]
    exact h.current.imp_right (List.mem_append_left _)
  · rw [hsame, add_keeps h hnew hadd hp (by decide)]
    rcases List.mem_append.mp hp with hp | hp
    · exact h.states p hp
    · rw [List.mem_singleton.mp hp, if_neg hcur, hready]

theorem SchedValid.pointers (h : SchedValid s ps) : SchedPointers s ps where
  nonnull := h.nonnull
  objects _ hp _ hq := h.ring.eq_or_apart hp hq
  head := by
    rw [h.head]
    cases ps with
    | nil => exact Or.inl rfl
    | cons p ps => exact Or.inr List.mem_cons_self
  current := h.current
  next _ hp := h.ring.next_mem hp

/-- The process whose turn is next: the head of the queue at first, then what the current
one points to. -/
def upNext (s : Sched) : Ptr :=
  if s.currentProcess = 0 then s.readyQueueHead else pcbGet s.mem s.currentProcess .next

theorem selectProcess_current (s : Sched) : (selectProcess s).currentProcess = upNext s := by
  rw [selectProcess, upNext]
  split
  · rfl
  · exact pcbGet_pcbSet_of_ne (by decide)

theorem selectProcess_head (s : Sched) : (selectProcess s).readyQueueHead = s.readyQueueHead := by
  rw [selectProcess]
  split <;> rfl

theorem SchedPointers.upNext_mem (h : SchedPointers s ps) : upNext s = 0 ∨ upNext s ∈ ps := by
  rw [upNext]
  split
  case isTrue => exact h.head
  case isFalse hc => exact Or.inr (h.next _ (h.current.resolve_left hc))

/-- The choice stores into the `state` field of the current PCB only. -/
theorem selectProcess_mem (h : SchedPointers s ps) {f : PcbField} (hp : p ∈ ps) (hf : f ≠ .state) :
    pcbGet (selectProcess s).mem p f = pcbGet s.mem p f := by
  rw [selectProcess]
  split
  case isTrue => rfl
  case isFalse hc =>
    have hcur := h.current.resolve_left hc
    exact pcbGet_pcbSet_field (h.objects _ hcur p hp) hf.symm

/-- Once the choice is made, every queued PCB is `READY`. -/
theorem selectProcess_ready (h : SchedValid s ps) (hp : p ∈ ps) :
    pcbGet (selectProcess s).mem p .state = ProcessState.ready.code := by
  have hstate := h.states p hp
  rw [selectProcess]
  split
  case isTrue hc =>
    rw [hstate, hc, if_neg (h.nonnull p hp)]
  case isFalse hc =>
    have hcur := h.current.resolve_left hc
    dsimp only
    rcases h.ring.eq_or_apart hcur hp with heq | hapart
    · rw [heq, pcbGet_pcbSet_self]
    · rw [pcbGet_pcbSet_apart hapart, hstate, if_neg hapart.ne.symm]

theorem SchedValid.upNext_mem (h : SchedValid s ps) (hne : ps ≠ []) : upNext s ∈ ps := by
  rw [upNext]
  split
  case isTrue =>
    rw [h.head]
    cases ps with
    | nil => exact absurd rfl hne
    | cons p ps => exact List.mem_cons_self
  case isFalse hc => exact h.ring.next_mem (h.current.resolve_left hc)

theorem schedule_of_upNext (h : upNext s ≠ 0) :
    schedule s =
      (⟨pcbSet (selectProcess s).mem (upNext s) .state ProcessState.running.code, upNext s,
        s.readyQueueHead⟩, some (upNext s)) := by
  rw [schedule, selectProcess_current, if_pos h, selectProcess_head]

theorem schedule_of_none (h : upNext s = 0) : schedule s = (selectProcess s, none) := by
  rw [schedule, selectProcess_current, if_neg (not_not.mpr h)]

theorem schedule_current (s : Sched) : (schedule s).1.currentProcess = upNext s := by
  by_cases h : upNext s = 0
  · rw [schedule_of_none h, selectProcess_current]
  · rw [schedule_of_upNext h]

theorem schedule_head (s : Sched) : (schedule s).1.readyQueueHead = s.readyQueueHead := by
  by_cases h : upNext s = 0
  · rw [schedule_of_none h, selectProcess_head]
  · rw [schedule_of_upNext h]

theorem schedule_empty (h : SchedValid s []) : schedule s = (s, none) := by
  have hcur : s.currentProcess = 0 := h.current.resolve_right List.not_mem_nil
  have hhead : s.readyQueueHead = 0 := h.head
  have hsel : selectProcess s = s := by
    rw [selectProcess, if_pos hcur, hhead]
    obtain ⟨mem, current, head⟩ := s
    subst hcur hhead
    rfl
  rw [schedule, hsel, if_neg (not_not.mpr hcur)]

theorem schedule_eq (h : SchedValid s ps) (hne : ps ≠ []) :
    schedule s =
      (⟨pcbSet (selectProcess s).mem (upNext s) .state ProcessState.running.code, upNext s,
        s.readyQueueHead⟩, some (upNext s)) :=
  schedule_of_upNext (h.nonnull _ (h.upNext_mem hne))

/-- `schedule` stores into `state` fields only. -/
theorem schedule_keeps {f : PcbField} (h : SchedPointers s ps) (hp : p ∈ ps) (hf : f ≠ .state) :
    pcbGet (schedule s).1.mem p f = pcbGet s.mem p f := by
  have hsel := selectProcess_mem h hp hf
  rcases h.upNext_mem with hzero | hmem
  · rw [schedule_of_none hzero, hsel]
  · rw [schedule_of_upNext (h.nonnull _ hmem)]
    exact (pcbGet_pcbSet_field (h.objects _ hmem p hp) hf.symm).trans hsel

/-- **`schedule`** makes the next process of the circle the running one. -/
theorem schedule_valid (h : SchedValid s ps) : SchedValid (schedule s).1 ps := by
  by_cases hps : ps = []
  · subst hps
    rw [schedule_empty h]
    exact h
  · have hmem := h.upNext_mem hps
    have hcircle : NextPath (schedule s).1.mem s.readyQueueHead ps s.readyQueueHead :=
      h.circle.congr fun r hr => schedule_keeps h.pointers hr (by decide)
    rw [schedule_eq h hps] at hcircle ⊢
    refine ⟨h.nonnull, h.apart, h.head, hcircle, Or.inr ?_, fun p hp => ?_⟩
    · exact hmem
    · dsimp only
      rcases h.ring.eq_or_apart hmem hp with rfl | hapart
      · rw [if_pos rfl, pcbGet_pcbSet_self]
      · rw [if_neg hapart.ne.symm, pcbGet_pcbSet_apart hapart, selectProcess_ready h hp]

/-! ## The invariant of every run -/

theorem schedStep_valid {st st' : SchedState} {op : SchedOp} (h : SchedValid st.sched st.added)
    (hstep : SchedStep st op st') : SchedValid st'.sched st'.added := by
  cases hstep with
  | add hpcb hready hnew hadd => exact (add_valid h hpcb hready hnew hadd).1
  | schedule => exact schedule_valid h
  | other hmem =>
    refine ⟨h.nonnull, h.apart, h.head, h.circle.congr fun r hr => ?_, h.current,
      fun p hp => ?_⟩
    · exact pcbGet_eq (hmem r hr) _
    · rw [← h.states p hp]
      exact pcbGet_eq (hmem p hp) _

theorem schedStart_valid (mem : Memory) : SchedValid (schedStart mem).sched [] where
  nonnull := by simp
  apart := .nil
  head := rfl
  circle := .nil
  current := Or.inl rfl
  states := by simp

theorem run_schedValid {st : SchedState} {ops : List SchedOp}
    (hrun : Run SchedStep (schedStart mem) ops st) : SchedValid st.sched st.added :=
  hrun.invariant (fun st => SchedValid st.sched st.added) (schedStart_valid mem)
    fun _ _ _ => schedStep_valid

/-- The PCBs that `add_to_ready_queue` was called with, in this order. -/
def addedPcbs (ops : List SchedOp) : List Ptr :=
  ops.filterMap fun
    | .add pcb => some pcb
    | _ => none

theorem run_added {st₀ st : SchedState} {ops : List SchedOp} (hrun : Run SchedStep st₀ ops st) :
    st.added = st₀.added ++ addedPcbs ops :=
  hrun.history SchedState.added _ fun st op st' hstep => by
    cases hstep with
    | add => rfl
    | schedule => exact (List.append_nil _).symm
    | other => exact (List.append_nil _).symm

/-- **The ring invariant.**  In every reachable state the `next` pointers from
`ready_queue_head` visit the PCBs added so far, in this order, and return to the head;
`current_process` is `NULL` or one of them, the one that is `RUNNING`, and all others are
`READY`; and `add_to_ready_queue` finds the end of the queue, whatever it adds. -/
theorem scheduler_ring {st : SchedState} {ops : List SchedOp}
    (hrun : Run SchedStep (schedStart mem) ops st) :
    NextPath st.sched.mem st.sched.readyQueueHead (addedPcbs ops) st.sched.readyQueueHead ∧
    (st.sched.readyQueueHead = 0 ↔ addedPcbs ops = []) ∧ (addedPcbs ops).Nodup ∧
    (st.sched.currentProcess = 0 ∨ st.sched.currentProcess ∈ addedPcbs ops) ∧
    (∀ p ∈ addedPcbs ops, pcbGet st.sched.mem p .state =
      (if p = st.sched.currentProcess then ProcessState.running else ProcessState.ready).code) ∧
    ∀ pcb, ∃ s', AddReturns st.sched pcb s' := by
  have h := run_schedValid hrun
  have hadded := run_added hrun
  rw [schedStart, List.nil_append] at hadded
  rw [← hadded]
  refine ⟨h.circle, h.ring.head_eq_zero, ?_, h.current, h.states, h.ring.add_returns⟩
  exact h.apart.imp fun hapart => hapart.ne

/-- Two processes, each dispatched once: the ring has both, and the second one runs. -/
theorem scheduler_ring_two : ∃ st,
    Run SchedStep (schedStart fun _ => 0)
        [.add 0x1000, .add 0x2000, .schedule (some 0x1000), .schedule (some 0x2000)] st ∧
      NextPath st.sched.mem st.sched.readyQueueHead [0x1000, 0x2000] st.sched.readyQueueHead ∧
      pcbGet st.sched.mem 0x1000 .state = ProcessState.ready.code ∧
      pcbGet st.sched.mem 0x2000 .state = ProcessState.running.code := by
  have h := schedStart_valid fun _ => 0
  obtain ⟨s₁, hadd₁⟩ := h.ring.add_returns 0x1000
  have hstep₁ := SchedStep.add (schedStart fun _ => 0) (by decide) (by decide)
    (by simp [schedStart]) hadd₁
  have h₁ := schedStep_valid h hstep₁
  have hs₁ : s₁ = ⟨pcbSet (fun _ => 0) 0x1000 .next 0x1000, 0, 0x1000⟩ := by
    rw [AddReturns, if_pos (by rfl)] at hadd₁
    exact hadd₁
  obtain ⟨s₂, hadd₂⟩ := h₁.ring.add_returns 0x2000
  have hready : pcbGet s₁.mem 0x2000 .state = ProcessState.ready.code := by
    rw [hs₁, pcbGet_pcbSet_apart (Or.inl (by decide))]
    decide
  have hnew : ∀ q ∈ ([] ++ [0x1000] : List Ptr), Apart q 0x2000 := by
    intro q hq
    rw [List.mem_singleton.mp hq]
    exact Or.inl (by decide)
  have hstep₂ := SchedStep.add ⟨s₁, [] ++ [0x1000]⟩ (by decide) hready hnew hadd₂
  have h₂ := schedStep_valid h₁ hstep₂
  -- nothing has been dispatched yet, so the head is the first to run
  have hup₂ : upNext s₂ = 0x1000 := by
    rw [upNext, hadd₂.current, hs₁, if_pos rfl]
    exact h₂.head
  have hstep₃ := SchedStep.schedule ⟨s₂, [0x1000, 0x2000]⟩
  rw [schedule_eq h₂ (List.cons_ne_nil _ _), hup₂] at hstep₃
  obtain ⟨st₃, hst₃⟩ : ∃ st₃, SchedStep ⟨s₂, [0x1000, 0x2000]⟩ (.schedule (some 0x1000)) st₃ ∧
      st₃.added = [0x1000, 0x2000] ∧ st₃.sched.currentProcess = 0x1000 := ⟨_, hstep₃, rfl, rfl⟩
  obtain ⟨hstep₃, hadded, hcur⟩ := hst₃
  have h₃ := schedStep_valid h₂ hstep₃
  rw [hadded] at h₃
  have hup₃ : upNext st₃.sched = 0x2000 := by
    rw [upNext, hcur, if_neg (by decide)]
    exact (h₃.head ▸ h₃.circle).second
  have hstep₄ := SchedStep.schedule st₃
  rw [schedule_eq h₃ (List.cons_ne_nil _ _), hup₃] at hstep₄
  have hrun := (((Run.nil.snoc hstep₁).snoc hstep₂).snoc hstep₃).snoc hstep₄
  obtain ⟨hcircle, -, -, -, hstates, -⟩ := scheduler_ring hrun
  refine ⟨_, hrun, hcircle, ?_, ?_⟩
  · exact hstates 0x1000 (by simp [addedPcbs])
  · exact hstates 0x2000 (by simp [addedPcbs])

end OsKernel
