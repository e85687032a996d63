import OsKernel.ContextSwitch
import OsKernel.PcbIdentity

/-! # Processes on the heap (`kmalloc.c`, `pcb.c`, `scheduler.c`, `switch.asm`)

The allocator, `create_process` and the scheduler share one memory.  A PCB is a live
allocation, and the scheduler stores into the PCBs of its queue, between the headers of the
block list and the data of other clients.

`ProcessStep` interleaves all of them.  `ProcessesValid` ties the invariants of the heap and of
the queue together: every queued PCB is alive.  From it follow the tiling of the heap and the
circle of the queue in one memory, that clients keep their data, and what `context_switch` finds
at each dispatch.
-/
namespace OsKernel

/-- A process: its PCB, its identifier and entry point, and the memory when it was created. -/
structure Process where
  pcb : Ptr
  pid : UInt32
  entryPoint : UInt32
  made : Memory

/-- The heap and the static variables of `pcb.c` and `scheduler.c`, with the live processes
and the queue. -/
structure ProcessTable where
  heap : HeapState
  nextPid : UInt32
  currentProcess : Ptr
  readyQueueHead : Ptr
  processes : List Process
  queue : List Ptr

/-- The one memory. -/
def ProcessTable.mem (t : ProcessTable) : Memory := t.heap.heap.mem

/-- What the scheduler sees. -/
def ProcessTable.sched (t : ProcessTable) : Sched := ⟨t.mem, t.currentProcess, t.readyQueueHead⟩

/-- What the scheduler leaves. -/
def ProcessTable.withSched (t : ProcessTable) (s : Sched) (queue : List Ptr) : ProcessTable :=
  { t with
    heap := ⟨{ t.heap.heap with mem := s.mem }, t.heap.live⟩
    currentProcess := s.currentProcess
    readyQueueHead := s.readyQueueHead
    queue }

/-- What happens: a client uses the heap, something is stored outside of it, and the calls for
processes, `schedule` with the process it dispatches. -/
inductive ProcessOp
  | client (op : HeapOp)
  | outside
  | create (entryPoint : UInt32)
  | kfree (pcb : Ptr)
  | add (pcb : Ptr)
  | schedule (dispatched : Option Ptr)

/-- A client neither frees nor writes PCBs. -/
def HeapOp.Spares (processes : List Process) : HeapOp → Prop
  | .malloc _ => True
  | .free ptr => ∀ e ∈ processes, e.pcb ≠ ptr
  | .store addr _ => ∀ e ∈ processes, addr < e.pcb.toNat ∨ e.pcb.toNat + 52 ≤ addr

/-- One call, or anything else.  The clients are well behaved: they spare the PCBs, a PCB is
freed only if it is not in the queue, and added only once. -/
inductive ProcessStep (start stop : Nat) (t : ProcessTable) : ProcessOp → ProcessTable → Prop
  | client {op : HeapOp} {heap : HeapState} (h : HeapStep t.heap op heap)
      (hspares : op.Spares t.processes) :
      ProcessStep start stop t (.client op) { t with heap }
  | outside {mem : Memory} (h : ∀ x, start ≤ x → x < stop → mem x = t.mem x) :
      ProcessStep start stop t .outside
        { t with heap := ⟨{ t.heap.heap with mem }, t.heap.live⟩ }
  | create {entryPoint pid : UInt32} {pcb : Ptr} {mem : Memory}
      (h : CreateProcess t.heap.heap t.nextPid entryPoint pcb mem pid) (hne : pcb ≠ 0) :
      ProcessStep start stop t (.create entryPoint)
        { t with
          heap := ⟨{ t.heap.heap with mem }, (pcb, pcbSize) :: t.heap.live⟩
          nextPid := pid
          processes := ⟨pcb, t.nextPid, entryPoint, mem⟩ :: t.processes }
  | createNull {entryPoint pid : UInt32} {mem : Memory}
      (h : CreateProcess t.heap.heap t.nextPid entryPoint 0 mem pid) :
      ProcessStep start stop t (.create entryPoint)
        { t with heap := ⟨{ t.heap.heap with mem }, t.heap.live⟩, nextPid := pid }
  | kfree {e : Process} {mem : Memory} (he : e ∈ t.processes) (hout : e.pcb ∉ t.queue)
      (h : KfreeReturns t.heap.heap e.pcb mem) :
      ProcessStep start stop t (.kfree e.pcb)
        { t with
          heap := ⟨{ t.heap.heap with mem }, t.heap.live.erase (e.pcb, pcbSize)⟩
          processes := t.processes.filter fun e' => e'.pcb ≠ e.pcb }
  | add {e : Process} {s : Sched} (he : e ∈ t.processes) (hnew : e.pcb ∉ t.queue)
      (h : AddReturns t.sched e.pcb s) :
      ProcessStep start stop t (.add e.pcb) (t.withSched s (t.queue ++ [e.pcb]))
  | schedule :
      ProcessStep start stop t (.schedule (OsKernel.schedule t.sched).2)
        (t.withSched (OsKernel.schedule t.sched).1 t.queue)

/-- A heap without processes. -/
def processStart (heap : Heap) : ProcessTable := ⟨⟨heap, []⟩, 1, 0, 0, [], []⟩

/-- **The invariant.** -/
structure ProcessesValid (start stop : Nat) (t : ProcessTable) : Prop where
  heap : ∃ cs, HeapValid start stop t.heap cs
  sched : SchedValid t.sched t.queue
  live : ∀ e ∈ t.processes, (e.pcb, pcbSize) ∈ t.heap.live
  apart : t.processes.Pairwise fun e e' => Apart e.pcb e'.pcb
  queued : ∀ p ∈ t.queue, ∃ e ∈ t.processes, e.pcb = p
  ready : ∀ e ∈ t.processes, e.pcb ∉ t.queue →
    pcbGet t.mem e.pcb .state = ProcessState.ready.code
  kept : ∀ e ∈ t.processes, ∀ f, f ≠ .state → f ≠ .next →
    pcbGet t.mem e.pcb f = pcbGet e.made e.pcb f
  initial : ∀ e ∈ t.processes, ∀ f v, initialValue e.pid e.entryPoint f = some v →
    pcbGet e.made e.pcb f = v

variable {start stop : Nat} {t u : ProcessTable} {op : ProcessOp} {ops : List ProcessOp}
  {mem mem' : Memory} {ps : List Ptr} {s s' : Sched} {x : Nat} {st : HeapState} {cs : List Chunk}

/-! ## Stores into PCBs -/

/-- A byte of one of these PCBs. -/
def InPcbs (ps : List Ptr) (x : Nat) : Prop := ∃ p ∈ ps, p.toNat ≤ x ∧ x < p.toNat + 52

theorem pcbSet_of_not_inPcbs {p : Ptr} {f : PcbField} {v : UInt32} (hp : p ∈ ps)
    (hx : ¬ InPcbs ps x) : pcbSet mem p f v x = mem x := by
  refine pcbSet_outside ?_
  by_contra hin
  exact hx ⟨p, hp, by omega, by omega⟩

/-- **`add_to_ready_queue` stores into PCBs only.** -/
theorem add_outside {pcb : Ptr} (h : ReadyRing s ps) (hadd : AddReturns s pcb s')
    (hx : ¬ InPcbs (ps ++ [pcb]) x) : s'.mem x = s.mem x := by
  have hpcb : pcb ∈ ps ++ [pcb] := List.mem_append_right _ List.mem_cons_self
  rcases h.add_cases hadd with ⟨-, rfl⟩ | ⟨xs, last, rfl, rfl⟩
  · exact pcbSet_of_not_inPcbs hpcb hx
  · have hlast : last ∈ xs ++ [last] ++ [pcb] := by simp
    exact (pcbSet_of_not_inPcbs hpcb hx).trans (pcbSet_of_not_inPcbs hlast hx)

/-- **`schedule` stores into PCBs only.** -/
theorem schedule_outside (h : SchedPointers s ps) (hx : ¬ InPcbs ps x) :
    (schedule s).1.mem x = s.mem x := by
  have hselect : (selectProcess s).mem x = s.mem x := by
    rw [selectProcess]
    split
    case isTrue => rfl
    case isFalse hc => exact pcbSet_of_not_inPcbs (h.current.resolve_left hc) hx
  rcases h.upNext_mem with hzero | hmem
  · rw [schedule_of_none hzero, hselect]
  · rw [schedule_of_upNext (h.nonnull _ hmem)]
    exact (pcbSet_of_not_inPcbs hmem hx).trans hselect

/-- The headers are outside of all live PCBs. -/
theorem HeapValid.store_pcbs (h : HeapValid start stop st cs)
    (hlive : ∀ p ∈ ps, (p, pcbSize) ∈ st.live)
    (hmem : ∀ x, ¬ InPcbs ps x → mem x = st.heap.mem x) :
    HeapValid start stop ⟨{ st.heap with mem }, st.live⟩ cs := by
  refine ⟨h.heapStart, h.laid.congr fun b hb x h1 h2 => hmem x ?_, h.nonempty, h.settled, h.live⟩
  rintro ⟨p, hp, hlo, hhi⟩
  have hdisjoint := headersFrom_live hb (h.mem_live (hlive p hp))
  change b + 12 ≤ p.toNat ∨ p.toNat + 52 ≤ b at hdisjoint
  omega

/-- The headers are inside the heap. -/
theorem HeapValid.store_outside (h : HeapValid start stop st cs)
    (hmem : ∀ x, start ≤ x → x < stop → mem x = st.heap.mem x) :
    HeapValid start stop ⟨{ st.heap with mem }, st.live⟩ cs := by
  refine ⟨h.heapStart, h.laid.congr fun b hb x h1 h2 => ?_, h.nonempty, h.settled, h.live⟩
  have hbounds := headersFrom_bounds hb
  rw [← h.laid.stop_eq] at hbounds
  exact hmem x (by omega) (by omega)

/-! ## Every step keeps the invariant -/

/-- The rest of the kernel leaves the PCBs alone. -/
theorem ProcessesValid.of_same {heap : HeapState} {processes : List Process}
    (h : ProcessesValid start stop t) (nextPid : UInt32) (hsub : processes.Sublist t.processes)
    (hqueued : ∀ p ∈ t.queue, ∃ e ∈ processes, e.pcb = p)
    (hheap : ∃ cs, HeapValid start stop heap cs)
    (hlive : ∀ e ∈ processes, (e.pcb, pcbSize) ∈ heap.live)
    (hmem : ∀ e ∈ processes, ∀ x, e.pcb.toNat ≤ x → x < e.pcb.toNat + 52 →
      heap.heap.mem x = t.mem x) :
    ProcessesValid start stop { t with heap, nextPid, processes } := by
  have hfield : ∀ e ∈ processes, ∀ f, pcbGet heap.heap.mem e.pcb f = pcbGet t.mem e.pcb f :=
    fun e he f => pcbGet_eq (hmem e he) f
  refine ⟨hheap, ?_, hlive, h.apart.sublist hsub, hqueued, fun e he hout => ?_,
    fun e he f hstate hnext => ?_, fun e he => h.initial e (hsub.mem he)⟩
  · have hstep : SchedStep ⟨t.sched, t.queue⟩ .other
        ⟨{ t.sched with mem := heap.heap.mem }, t.queue⟩ := by
      refine .other _ fun p hp => ?_
      obtain ⟨e, he, rfl⟩ := hqueued p hp
      exact hmem e he
    exact schedStep_valid h.sched hstep
  · exact (hfield e he _).trans (h.ready e (hsub.mem he) hout)
  · exact (hfield e he f).trans (h.kept e (hsub.mem he) f hstate hnext)

/-- A live PCB is inside the heap. -/
theorem ProcessesValid.bounds (h : ProcessesValid start stop t) {e : Process}
    (he : e ∈ t.processes) : start ≤ e.pcb.toNat ∧ e.pcb.toNat + 52 ≤ stop := by
  obtain ⟨cs, hheap⟩ := h.heap
  have hbounds := hheap.bounds (h.live e he)
  change start + 12 ≤ e.pcb.toNat ∧ e.pcb.toNat + 52 ≤ stop at hbounds
  omega

theorem ProcessesValid.eq_or_apart (h : ProcessesValid start stop t) {e e' : Process}
    (he : e ∈ t.processes) (he' : e' ∈ t.processes) : e = e' ∨ Apart e.pcb e'.pcb := by
  by_cases heq : e = e'
  · exact .inl heq
  · have hsymm : Std.Symm fun e e' : Process => Apart e.pcb e'.pcb := ⟨fun _ _ => Apart.symm⟩
    exact .inr (h.apart.forall he he' heq)

/-- A PCB whose bytes the scheduler may not store into. -/
theorem ProcessesValid.not_inPcbs (h : ProcessesValid start stop t) {e : Process}
    (he : e ∈ t.processes) (hps : ∀ p ∈ ps, ∃ e ∈ t.processes, e.pcb = p) (hout : e.pcb ∉ ps)
    (h1 : e.pcb.toNat ≤ x) (h2 : x < e.pcb.toNat + 52) : ¬ InPcbs ps x := by
  rintro ⟨p, hp, hlo, hhi⟩
  obtain ⟨e', he', rfl⟩ := hps p hp
  rcases h.eq_or_apart he he' with rfl | hapart
  · exact hout hp
  · rcases hapart with hlt | hlt <;> omega

/-- **A call of the scheduler**, which stores into the PCBs of its queue. -/
theorem ProcessesValid.withSched (h : ProcessesValid start stop t)
    (hqueued : ∀ p ∈ ps, ∃ e ∈ t.processes, e.pcb = p) (hsub : t.queue ⊆ ps)
    (hsched : SchedValid s ps) (hout : ∀ x, ¬ InPcbs ps x → s.mem x = t.mem x)
    (hkept : ∀ p ∈ ps, ∀ f, f ≠ .state → f ≠ .next → pcbGet s.mem p f = pcbGet t.mem p f) :
    ProcessesValid start stop (t.withSched s ps) := by
  have hlive : ∀ p ∈ ps, (p, pcbSize) ∈ t.heap.live := by
    intro p hp
    obtain ⟨e, he, rfl⟩ := hqueued p hp
    exact h.live e he
  have hsame : ∀ e ∈ t.processes, e.pcb ∉ ps → ∀ f, pcbGet s.mem e.pcb f = pcbGet t.mem e.pcb f :=
    fun e he hnot f => pcbGet_eq (fun x h1 h2 =>
      hout x (h.not_inPcbs he hqueued hnot h1 h2)) f
  obtain ⟨cs, hheap⟩ := h.heap
  refine ⟨⟨cs, hheap.store_pcbs hlive hout⟩, hsched, h.live, h.apart, hqueued,
    fun e he hnot => ?_, fun e he f hstate hnext => ?_, h.initial⟩
  · exact (hsame e he hnot _).trans (h.ready e he fun hin => hnot (hsub hin))
  · by_cases hin : e.pcb ∈ ps
    · exact (hkept _ hin f hstate hnext).trans (h.kept e he f hstate hnext)
    · exact (hsame e he hin f).trans (h.kept e he f hstate hnext)

theorem ProcessesValid.add {e : Process} (h : ProcessesValid start stop t)
    (he : e ∈ t.processes) (hnew : e.pcb ∉ t.queue) (hadd : AddReturns t.sched e.pcb s) :
    ProcessesValid start stop (t.withSched s (t.queue ++ [e.pcb])) := by
  obtain ⟨cs, hheap⟩ := h.heap
  have hpcb : e.pcb ≠ 0 := hheap.live_ne_zero (h.live e he)
  have hqueued : ∀ p ∈ t.queue ++ [e.pcb], ∃ e ∈ t.processes, e.pcb = p := by
    intro p hp
    rcases List.mem_append.mp hp with hp | hp
    · exact h.queued p hp
    · exact ⟨e, he, (List.mem_singleton.mp hp).symm⟩
  have hapart : ∀ q ∈ t.queue, Apart q e.pcb := by
    intro q hq
    obtain ⟨e', he', rfl⟩ := h.queued q hq
    rcases h.eq_or_apart he' he with rfl | hapart
    · exact absurd hq hnew
    · exact hapart
  have hvalid := (add_valid h.sched hpcb (h.ready e he hnew) hapart hadd).1
  exact h.withSched hqueued (List.subset_append_left _ _) hvalid
    (fun x hx => add_outside h.sched.ring hadd hx)
    fun p hp f _ hnext => add_keeps h.sched hapart hadd hp hnext

section Steps
variable (hstart : 0 < start) (hstop : stop < 2 ^ 32) (h : ProcessesValid start stop t)
include hstart hstop h

theorem ProcessesValid.client {op : HeapOp} {heap : HeapState} (hstep : HeapStep t.heap op heap)
    (hspares : op.Spares t.processes) : ProcessesValid start stop { t with heap } := by
  obtain ⟨cs, hheap⟩ := h.heap
  obtain ⟨cs', hheap', -, hcall⟩ := heapStep_valid hstart hstop hheap hstep
  refine h.of_same t.nextPid (List.Sublist.refl _) h.queued ⟨cs', hheap'⟩ (fun e he => ?_)
    fun e he x h1 h2 => ?_
  · cases hstep with
    | malloc hret =>
      dsimp only
      split_ifs
      · exact h.live e he
      · exact List.mem_cons_of_mem _ (h.live e he)
    | free hlive hret =>
      exact (List.mem_erase_of_ne fun heq => hspares e he (Prod.mk.inj heq).1).mpr (h.live e he)
    | freeNull => exact h.live e he
    | store => exact h.live e he
  · cases hop : op.isCall with
    | true => exact (hcall hop).live _ (hheap.mem_live (h.live e he)) x h1 h2
    | false =>
      cases hstep with
      | malloc => cases hop
      | free => cases hop
      | freeNull => cases hop
      | @store ptr size addr byte =>
        refine Function.update_of_ne ?_ _ _
        rintro rfl
        rcases hspares e he with hlt | hlt <;> omega

theorem ProcessesValid.create {entryPoint pid : UInt32} {pcb : Ptr}
    (hcreate : CreateProcess t.heap.heap t.nextPid entryPoint pcb mem pid) (hne : pcb ≠ 0) :
    ProcessesValid start stop
      { t with
        heap := ⟨{ t.heap.heap with mem }, (pcb, pcbSize) :: t.heap.live⟩
        nextPid := pid
        processes := ⟨pcb, t.nextPid, entryPoint, mem⟩ :: t.processes } := by
  obtain ⟨cs, hheap⟩ := h.heap
  obtain ⟨cs', m, rfl, rfl, hvalid, hk⟩ := createProcess_created hstart hstop hheap hcreate hne
  have hnew : ∀ e ∈ t.processes, Apart pcb e.pcb := fun e he =>
    (List.pairwise_cons.mp hvalid.pairwise_live).1 _ (h.live e he)
  have hrest := h.of_same (t.nextPid + 1) (List.Sublist.refl _) h.queued ⟨cs', hvalid⟩
    (fun e he => List.mem_cons_of_mem _ (h.live e he)) fun e he x h1 h2 => by
      refine (initPcb_outside ?_).trans (hk.live _ (hheap.mem_live (h.live e he)) x h1 h2)
      rcases hnew e he with hlt | hlt <;> omega
  refine ⟨hrest.heap, hrest.sched, List.forall_mem_cons.mpr ⟨List.mem_cons_self, hrest.live⟩,
    List.pairwise_cons.mpr ⟨hnew, h.apart⟩, fun p hp => ?_,
    List.forall_mem_cons.mpr ⟨fun _ => ?_, hrest.ready⟩,
    List.forall_mem_cons.mpr ⟨fun _ _ _ => rfl, hrest.kept⟩,
    List.forall_mem_cons.mpr ⟨fun f v hv => ?_, h.initial⟩⟩
  · obtain ⟨e, he, rfl⟩ := h.queued p hp
    exact ⟨e, List.mem_cons_of_mem _ he, rfl⟩
  · exact pcbGet_initPcb m pcb t.nextPid entryPoint .state
  · dsimp only at hv ⊢
    rw [pcbGet_initPcb, hv, Option.getD_some]

theorem ProcessesValid.kfree {e : Process} (he : e ∈ t.processes) (hout : e.pcb ∉ t.queue)
    (hret : KfreeReturns t.heap.heap e.pcb mem) :
    ProcessesValid start stop
      { t with
        heap := ⟨{ t.heap.heap with mem }, t.heap.live.erase (e.pcb, pcbSize)⟩
        processes := t.processes.filter fun e' => e'.pcb ≠ e.pcb } := by
  obtain ⟨cs, hheap⟩ := h.heap
  obtain ⟨hvalid, hk⟩ := kfree_done hstart hstop hheap (h.live e he) hret
  refine h.of_same t.nextPid List.filter_sublist (fun p hp => ?_) ⟨_, hvalid⟩ (fun e' he' => ?_)
    fun e' he' x h1 h2 => ?_
  · obtain ⟨e', he', rfl⟩ := h.queued p hp
    refine ⟨e', List.mem_filter.mpr ⟨he', decide_eq_true fun heq => hout (heq ▸ hp)⟩, rfl⟩
  · obtain ⟨hmem, hne⟩ := List.mem_filter.mp he'
    exact (List.mem_erase_of_ne fun heq => of_decide_eq_true hne (Prod.mk.inj heq).1).mpr
      (h.live e' hmem)
  · exact hk.live _ (hheap.mem_live (h.live e' (List.mem_of_mem_filter he'))) x h1 h2

end Steps

/-- **One step keeps the invariant.** -/
theorem processStep_valid (hstart : 0 < start) (hstop : stop < 2 ^ 32)
    (h : ProcessesValid start stop t) (hstep : ProcessStep start stop t op u) :
    ProcessesValid start stop u := by
  cases hstep with
  | client hop hspares => exact h.client hstart hstop hop hspares
  | outside hmem =>
    obtain ⟨cs, hheap⟩ := h.heap
    refine h.of_same t.nextPid (List.Sublist.refl _) h.queued ⟨cs, hheap.store_outside hmem⟩
      h.live fun e he x h1 h2 => ?_
    have hbounds := h.bounds he
    exact hmem x (by omega) (by omega)
  | create hcreate hne => exact h.create hstart hstop hcreate hne
  | createNull hnull =>
    obtain ⟨cs, hheap⟩ := h.heap
    obtain ⟨rfl, rfl⟩ := createProcess_null hstart hstop hheap hnull
    exact ⟨⟨cs, hheap⟩, h.sched, h.live, h.apart, h.queued, h.ready, h.kept, h.initial⟩
  | kfree he hout hret => exact h.kfree hstart hstop he hout hret
  | add he hnew hadd => exact h.add he hnew hadd
  | schedule =>
    exact h.withSched h.queued (List.Subset.refl _) (schedule_valid h.sched)
      (fun x hx => schedule_outside h.sched.pointers hx)
      fun p hp f hstate _ => schedule_keeps h.sched.pointers hp hstate

/-- What `schedule` dispatches is in the queue. -/
theorem SchedValid.mem_of_schedule {pcb : Ptr} (h : SchedValid s ps)
    (hdispatch : (schedule s).2 = some pcb) : pcb ∈ ps := by
  rcases h.pointers.upNext_mem with hzero | hmem
  · rw [schedule_of_none hzero] at hdispatch
    cases hdispatch
  · rw [schedule_of_upNext (h.nonnull _ hmem)] at hdispatch
    exact Option.some.inj hdispatch ▸ hmem

/-- `schedule` dispatches nothing only if the queue is empty. -/
theorem SchedValid.schedule_none_iff (h : SchedValid s ps) :
    (schedule s).2 = none ↔ ps = [] := by
  constructor
  · intro hnone
    by_contra hne
    rw [schedule_of_upNext (h.nonnull _ (h.upNext_mem hne))] at hnone
    cases hnone
  · rintro rfl
    rcases h.pointers.upNext_mem with hzero | hmem
    · rw [schedule_of_none hzero]
    · cases hmem

/-- Two live allocations share no byte. -/
theorem HeapValid.disjoint {e e' : Ptr × UInt32} (h : HeapValid start stop st cs)
    (he : e ∈ st.live) (he' : e' ∈ st.live) (hne : e ≠ e') :
    e.1.toNat + e.2.toNat ≤ e'.1.toNat ∨ e'.1.toNat + e'.2.toNat ≤ e.1.toNat := by
  have hsymm : Std.Symm fun e e' : Ptr × UInt32 => e.1.toNat + e.2.toNat ≤ e'.1.toNat ∨
      e'.1.toNat + e'.2.toNat ≤ e.1.toNat := ⟨fun _ _ => Or.symm⟩
  exact h.pairwise_live.forall he he' hne

/-- The blocks of a valid heap tile it. -/
theorem HeapValid.tiled {start size : UInt32} (hstart : 0 < start)
    (hfit : start.toNat + size.toNat < 2 ^ 32)
    (h : HeapValid start.toNat (start.toNat + size.toNat) st cs) :
    ∃ bs, BlockList st.heap.mem st.heap.heapStart bs ∧ HeapTiled start size bs := by
  have hend := h.laid.stop_eq
  refine ⟨_, h.start_link ▸ h.laid.blockList hfit (UInt32.lt_iff_toNat_lt.mp hstart), ?_,
    blocksFrom_increasing (hend ▸ hfit), blocksFrom_linked (hend ▸ hfit) hend,
    blocksFrom_last (hend ▸ hfit) hend, ?_, blocksFrom_settled h.settled⟩
  · cases hcs : cs with
    | nil => exact absurd hcs h.nonempty
    | cons c cs' => rw [blocksFrom, List.head?_cons, Option.map_some, UInt32.ofNat_toNat]
  · rw [blocksFrom_total (hend ▸ hfit)]
    omega

/-- The PCBs that were added, in this order. -/
def addedProcesses (ops : List ProcessOp) : List Ptr :=
  ops.filterMap fun
    | .add pcb => some pcb
    | _ => none

theorem Run.queue_eq (hrun : Run (ProcessStep start stop) t ops u) :
    u.queue = t.queue ++ addedProcesses ops :=
  hrun.history ProcessTable.queue _ fun t op u hstep => by
    cases hstep with
    | add => rfl
    | client => exact (List.append_nil _).symm
    | outside => exact (List.append_nil _).symm
    | create => exact (List.append_nil _).symm
    | createNull => exact (List.append_nil _).symm
    | kfree => exact (List.append_nil _).symm
    | schedule => exact (List.append_nil _).symm

section Runs
variable {start size : UInt32} (hstart : 0 < start) (hsize : 12 ≤ size.toNat)
  (hfit : start.toNat + size.toNat < 2 ^ 32)
  (hrun : Run (ProcessStep start.toNat (start.toNat + size.toNat))
    (processStart (kmallocInit mem start size)) ops t)
include hstart hsize hfit hrun

theorem run_processesValid : ProcessesValid start.toNat (start.toNat + size.toNat) t := by
  refine hrun.invariant (ProcessesValid start.toNat (start.toNat + size.toNat)) ?_
    fun _ _ _ h hstep => processStep_valid (UInt32.lt_iff_toNat_lt.mp hstart) hfit h hstep
  exact ⟨⟨_, kmallocInit_valid mem hsize hfit⟩, schedStart_valid _, by simp [processStart],
    .nil, by simp [processStart], by simp [processStart], by simp [processStart],
    by simp [processStart]⟩

/-- **Processes live on the heap.**  However clients, `create_process` and the scheduler
alternate, as long as clients spare the PCBs, a PCB is added once and none is freed while in the
queue: the block list tiles the heap, the `next` pointers lead once around the PCBs added so
far, each of them alive, and every live PCB holds in all fields but `state` and `next` what
`create_process` left there.  `kmalloc`, `kfree` of what is alive, `create_process` and
`add_to_ready_queue` return, and `schedule` comes to its call of `context_switch`, with a PCB of
the queue, unless that is empty. -/
theorem processes_on_heap :
    (∃ bs, BlockList t.mem t.heap.heap.heapStart bs ∧ HeapTiled start size bs) ∧
    (NextPath t.mem t.readyQueueHead (addedProcesses ops) t.readyQueueHead ∧
      (t.currentProcess = 0 ∨ t.currentProcess ∈ addedProcesses ops)) ∧
    (∀ p ∈ addedProcesses ops, ∃ e ∈ t.processes, e.pcb = p) ∧
    (∀ e ∈ t.processes, (e.pcb, pcbSize) ∈ t.heap.live ∧
      (∀ f v, initialValue e.pid e.entryPoint f = some v → pcbGet e.made e.pcb f = v) ∧
      ∀ f, f ≠ .state → f ≠ .next → pcbGet t.mem e.pcb f = pcbGet e.made e.pcb f) ∧
    (∀ n, ∃ ptr mem', KmallocReturns t.heap.heap n ptr mem') ∧
    (∀ e ∈ t.heap.live, ∃ mem', KfreeReturns t.heap.heap e.1 mem') ∧
    (∀ entryPoint, ∃ pcb mem' pid,
      CreateProcess t.heap.heap t.nextPid entryPoint pcb mem' pid) ∧
    (∀ pcb, ∃ s, AddReturns t.sched pcb s) ∧
    ((schedule t.sched).2 = none ↔ addedProcesses ops = []) ∧
    ∀ pcb, (schedule t.sched).2 = some pcb → pcb ∈ addedProcesses ops := by
  have hpos : 0 < start.toNat := UInt32.lt_iff_toNat_lt.mp hstart
  have h := run_processesValid hstart hsize hfit hrun
  have hqueue : t.queue = addedProcesses ops := hrun.queue_eq
  obtain ⟨cs, hheap⟩ := h.heap
  rw [← hqueue]
  refine ⟨hheap.tiled hstart hfit, ⟨h.sched.circle, h.sched.current⟩, h.queued,
    fun e he => ⟨h.live e he, h.initial e he, h.kept e he⟩, fun n => ?_, fun e he => ?_,
    fun entryPoint => ?_, h.sched.ring.add_returns, h.sched.schedule_none_iff,
    fun pcb => h.sched.mem_of_schedule⟩
  · obtain ⟨ptr, mem', cs', hret, -⟩ := kmalloc_valid hpos hfit hheap n
    exact ⟨ptr, mem', hret⟩
  · obtain ⟨mem', cs', hret, -⟩ := kfree_valid hpos hfit hheap he
    exact ⟨mem', hret⟩
  · rcases createProcess_spec hpos hfit hheap t.nextPid entryPoint with
      ⟨-, hnull⟩ | ⟨-, -, pcb, mem', -, -, -, -, hcreate, -⟩
    · exact ⟨0, _, _, hnull⟩
    · exact ⟨pcb, _, _, hcreate⟩

end Runs

/-- A step of the kernel with the heap of `kernel_main`. -/
abbrev KernelProcessStep : ProcessTable → ProcessOp → ProcessTable → Prop :=
  ProcessStep (0x00200000 : UInt32).toNat
    ((0x00200000 : UInt32).toNat + (0x00100000 : UInt32).toNat)

/-- On the fresh heap of `kernel_main` a client takes 16 bytes, and a process is created and
added. -/
theorem exists_process_run : ∃ t u q pcb,
    Run KernelProcessStep
      (processStart (kmallocInit (fun _ => 0) 0x00200000 0x00100000)) [.client (.malloc 16)] t ∧
    t.heap.live = [(q, 16)] ∧ t.processes = [] ∧
    Run KernelProcessStep t [.create 0x00100000, .add pcb] u ∧
    u.queue = [pcb] ∧ 0x00200000 ≤ pcb.toNat := by
  have hinit := kernelHeap_valid fun _ => 0
  rcases kmalloc_chunks (by decide) (by decide) hinit 16 with
    ⟨hnone, -⟩ | ⟨o, cs, q, mem, hplace, -, hne, hret, hvalid, -⟩
  · cases hnone
  · obtain ⟨-, rfl⟩ := Prod.mk.inj (Option.some.inj hplace)
    have htake : KernelProcessStep
        (processStart (kmallocInit (fun _ => 0) 0x00200000 0x00100000)) (.client (.malloc 16)) _ :=
      .client (.malloc _ hret) trivial
    rw [if_neg hne] at htake
    rcases createProcess_spec (by decide) (by decide) hvalid 1 0x00100000 with
      ⟨hnone, -⟩ | ⟨o', cs', pcb, mem', -, hptr, hne', -, hcreate, -⟩
    · cases hnone
    · obtain ⟨s, hadd⟩ :=
        (schedStart_valid (initPcb mem' pcb 1 0x00100000)).ring.add_returns pcb
      let e : Process := ⟨pcb, 1, 0x00100000, initPcb mem' pcb 1 0x00100000⟩
      let t₂ : ProcessTable := ⟨⟨⟨0x00200000, e.made⟩, [(pcb, pcbSize), (q, 16)]⟩, 2, 0, 0, [e], []⟩
      have hmake : KernelProcessStep _ (.create 0x00100000) t₂ :=
        .create (t := ⟨⟨⟨0x00200000, mem⟩, [(q, 16)]⟩, 1, 0, 0, [], []⟩) hcreate hne'
      have hput : KernelProcessStep t₂ (.add pcb) _ :=
        .add (e := e) List.mem_cons_self List.not_mem_nil hadd
      exact ⟨_, _, q, pcb, Run.nil.snoc htake, rfl, rfl, (Run.nil.snoc hmake).snoc hput, rfl,
        by omega⟩

/-- Two processes are created, and both are added. -/
theorem exists_two_processes : ∃ u p q,
    Run KernelProcessStep (processStart (kmallocInit (fun _ => 0) 0x00200000 0x00100000))
        [.create 0x00100000, .create 0x00101000, .add p, .add q] u ∧
      p ≠ q := by
  have hinit := kernelHeap_valid fun _ => 0
  rcases createProcess_spec (by decide) (by decide) hinit 1 0x00100000 with
    ⟨hnone, -⟩ | ⟨o, cs, p, m₁, hplace, hp, hne, -, hcreate, hvalid, -⟩
  · cases hnone
  obtain ⟨rfl, rfl⟩ := Prod.mk.inj (Option.some.inj hplace)
  rcases createProcess_spec (by decide) (by decide) hvalid 2 0x00101000 with
    ⟨hnone, -⟩ | ⟨o', cs', q, m₂, hplace', hq, hne', -, hcreate', -⟩
  · cases hnone
  obtain ⟨rfl, -⟩ := Prod.mk.inj (Option.some.inj hplace')
  have hpq : p ≠ q := by
    rintro rfl
    exact absurd (hp.symm.trans hq) (by decide)
  let e : Process := ⟨p, 1, 0x00100000, initPcb m₁ p 1 0x00100000⟩
  let e' : Process := ⟨q, 2, 0x00101000, initPcb m₂ q 2 0x00101000⟩
  let t₁ : ProcessTable := ⟨⟨⟨0x00200000, e.made⟩, [(p, pcbSize)]⟩, 2, 0, 0, [e], []⟩
  let t₂ : ProcessTable :=
    ⟨⟨⟨0x00200000, e'.made⟩, [(q, pcbSize), (p, pcbSize)]⟩, 3, 0, 0, [e', e], []⟩
  have hmake : KernelProcessStep
      (processStart (kmallocInit (fun _ => 0) 0x00200000 0x00100000)) (.create 0x00100000) t₁ :=
    .create hcreate hne
  have hmake' : KernelProcessStep t₁ (.create 0x00101000) t₂ := .create hcreate' hne'
  have hrun := (Run.nil.snoc hmake).snoc hmake'
  have h₂ := run_processesValid (by decide) (by decide) (by decide) hrun
  obtain ⟨s, hadd⟩ := h₂.sched.ring.add_returns p
  have hput : KernelProcessStep t₂ (.add p) (t₂.withSched s ([] ++ [p])) :=
    .add (e := e) (List.mem_cons_of_mem _ List.mem_cons_self) List.not_mem_nil hadd
  have h₃ := run_processesValid (by decide) (by decide) (by decide) (hrun.snoc hput)
  obtain ⟨s', hadd'⟩ := h₃.sched.ring.add_returns q
  have hput' : KernelProcessStep (t₂.withSched s ([] ++ [p])) (.add q) _ :=
    .add (e := e') List.mem_cons_self (fun hmem => hpq (List.mem_singleton.mp hmem).symm) hadd'
  exact ⟨_, p, q, (hrun.snoc hput).snoc hput', hpq⟩

/-- The ring leads through both processes, and `schedule` has one to dispatch. -/
theorem processes_on_heap_two : ∃ u p q pcb,
    Run KernelProcessStep (processStart (kmallocInit (fun _ => 0) 0x00200000 0x00100000))
        [.create 0x00100000, .create 0x00101000, .add p, .add q] u ∧
      p ≠ q ∧
      (∃ bs, BlockList u.mem u.heap.heap.heapStart bs ∧ HeapTiled 0x00200000 0x00100000 bs) ∧
      NextPath u.mem u.readyQueueHead [p, q] u.readyQueueHead ∧
      (schedule u.sched).2 = some pcb ∧ pcb ∈ [p, q] := by
  obtain ⟨u, p, q, hrun, hpq⟩ := exists_two_processes
  obtain ⟨htiled, ⟨hring, -⟩, -, -, -, -, -, -, hnone, hsome⟩ :=
    processes_on_heap (by decide) (by decide) (by decide) hrun
  obtain ⟨pcb, hpcb⟩ := Option.ne_none_iff_exists'.mp fun h =>
    List.cons_ne_nil p [q] (hnone.mp h)
  exact ⟨u, p, q, pcb, hrun, hpq, htiled, hring, hpcb, hsome pcb hpcb⟩

/-! ## The data of clients -/

/-- An event that neither frees nor writes an allocation. -/
def ProcessOp.Spares (e : Ptr × UInt32) : ProcessOp → Prop
  | .client (.free ptr) => ptr ≠ e.1
  | .client (.store addr _) => addr < e.1.toNat ∨ e.1.toNat + e.2.toNat ≤ addr
  | _ => True

/-- A live allocation that is not a PCB. -/
structure ClientData (t : ProcessTable) (e : Ptr × UInt32) : Prop where
  live : e ∈ t.heap.live
  notPcb : ∀ e' ∈ t.processes, (e'.pcb, pcbSize) ≠ e

/-- The scheduler does not store into the data of clients. -/
theorem ClientData.not_inPcbs {e : Ptr × UInt32} (hdata : ClientData t e)
    (h : ProcessesValid start stop t) (hps : ∀ p ∈ ps, ∃ e ∈ t.processes, e.pcb = p)
    (h1 : e.1.toNat ≤ x) (h2 : x < e.1.toNat + e.2.toNat) : ¬ InPcbs ps x := by
  rintro ⟨p, hp, hlo, hhi⟩
  obtain ⟨e', he', rfl⟩ := hps p hp
  obtain ⟨cs, hheap⟩ := h.heap
  have hdisjoint := hheap.disjoint (h.live e' he') hdata.live (hdata.notPcb e' he')
  change e'.pcb.toNat + 52 ≤ e.1.toNat ∨ e.1.toNat + e.2.toNat ≤ e'.pcb.toNat at hdisjoint
  omega

/-- **One event** leaves the data of the other clients. -/
theorem ClientData.step {e : Ptr × UInt32} (hdata : ClientData t e) (hstart : 0 < start)
    (hstop : stop < 2 ^ 32) (h : ProcessesValid start stop t)
    (hstep : ProcessStep start stop t op u) (hspares : op.Spares e) :
    ClientData u e ∧ ∀ x, e.1.toNat ≤ x → x < e.1.toNat + e.2.toNat → u.mem x = t.mem x := by
  obtain ⟨cs, hheap⟩ := h.heap
  have hlive := hheap.mem_live hdata.live
  cases hstep with
  | @client op heap hop hop' =>
    obtain ⟨cs', hheap', -, hcall⟩ := heapStep_valid hstart hstop hheap hop
    cases hop with
    | malloc hret =>
      refine ⟨⟨?_, hdata.notPcb⟩, (hcall rfl).live _ hlive⟩
      dsimp only
      split_ifs
      · exact hdata.live
      · exact List.mem_cons_of_mem _ hdata.live
    | @free ptr size =>
      have hne : e ≠ (ptr, size) := fun heq => hspares (congrArg Prod.fst heq).symm
      exact ⟨⟨(List.mem_erase_of_ne hne).mpr hdata.live, hdata.notPcb⟩, (hcall rfl).live _ hlive⟩
    | freeNull => exact ⟨⟨hdata.live, hdata.notPcb⟩, (hcall rfl).live _ hlive⟩
    | @store ptr size addr byte =>
      refine ⟨⟨hdata.live, hdata.notPcb⟩, fun x h1 h2 => Function.update_of_ne ?_ _ _⟩
      rintro rfl
      rcases hspares with hlt | hlt <;> omega
  | outside hmem =>
    have hbounds := hheap.bounds hdata.live
    exact ⟨⟨hdata.live, hdata.notPcb⟩, fun x h1 h2 => hmem x (by omega) (by omega)⟩
  | @create entryPoint pid pcb mem hcreate hne =>
    obtain ⟨cs', m, rfl, rfl, hvalid, hk⟩ := createProcess_created hstart hstop hheap hcreate hne
    have hnew : pcb.toNat + 52 ≤ e.1.toNat ∨ e.1.toNat + e.2.toNat ≤ pcb.toNat :=
      (List.pairwise_cons.mp hvalid.pairwise_live).1 e hdata.live
    refine ⟨⟨List.mem_cons_of_mem _ hdata.live, List.forall_mem_cons.mpr ⟨?_, hdata.notPcb⟩⟩,
      fun x h1 h2 => ?_⟩
    · rintro rfl
      change pcb.toNat + 52 ≤ pcb.toNat ∨ pcb.toNat + 52 ≤ pcb.toNat at hnew
      omega
    · exact (initPcb_outside (by omega)).trans (hk.live _ hlive x h1 h2)
  | createNull hnull =>
    obtain ⟨rfl, rfl⟩ := createProcess_null hstart hstop hheap hnull
    exact ⟨⟨hdata.live, hdata.notPcb⟩, fun _ _ _ => rfl⟩
  | kfree he hout hret =>
    obtain ⟨-, hk⟩ := kfree_done hstart hstop hheap (h.live _ he) hret
    exact ⟨⟨(List.mem_erase_of_ne (hdata.notPcb _ he).symm).mpr hdata.live,
      fun e' he' => hdata.notPcb e' (List.mem_of_mem_filter he')⟩, hk.live _ hlive⟩
  | @add e' s he hnew hadd =>
    have hqueued : ∀ p ∈ t.queue ++ [e'.pcb], ∃ e ∈ t.processes, e.pcb = p :=
      List.forall_mem_append.mpr ⟨h.queued, List.forall_mem_singleton.mpr ⟨e', he, rfl⟩⟩
    exact ⟨⟨hdata.live, hdata.notPcb⟩, fun x h1 h2 =>
      add_outside h.sched.ring hadd (hdata.not_inPcbs h hqueued h1 h2)⟩
  | schedule =>
    exact ⟨⟨hdata.live, hdata.notPcb⟩, fun x h1 h2 =>
      schedule_outside h.sched.pointers (hdata.not_inPcbs h h.queued h1 h2)⟩

/-- **Clients keep their data.**  From any reachable state on, however the allocator, other
clients, `create_process` and the scheduler go on, as long as clients spare the PCBs, a PCB is
added once and none is freed while in the queue, an allocation that is no PCB stays alive with
all its bytes until it is freed or written by its client. -/
theorem client_data_kept {start size : UInt32} {e : Ptr × UInt32} {later : List ProcessOp}
    (hstart : 0 < start) (hsize : 12 ≤ size.toNat) (hfit : start.toNat + size.toNat < 2 ^ 32)
    (hrun : Run (ProcessStep start.toNat (start.toNat + size.toNat))
      (processStart (kmallocInit mem start size)) ops t)
    (hlater : Run (ProcessStep start.toNat (start.toNat + size.toNat)) t later u)
    (hlive : e ∈ t.heap.live) (hnot : ∀ e' ∈ t.processes, (e'.pcb, pcbSize) ≠ e)
    (hspares : ∀ op ∈ later, op.Spares e) :
    e ∈ u.heap.live ∧ ∀ x, e.1.toNat ≤ x → x < e.1.toNat + e.2.toNat → u.mem x = t.mem x := by
  have hpos : 0 < start.toNat := UInt32.lt_iff_toNat_lt.mp hstart
  have h := run_processesValid hstart hsize hfit hrun
  have hall : ProcessesValid start.toNat (start.toNat + size.toNat) u ∧ ClientData u e ∧
      ∀ x, e.1.toNat ≤ x → x < e.1.toNat + e.2.toNat → u.mem x = t.mem x := by
    induction hlater with
    | nil => exact ⟨h, ⟨hlive, hnot⟩, fun _ _ _ => rfl⟩
    | snoc hbefore hop ih =>
      obtain ⟨hv, hdata, hbytes⟩ := ih fun op hin => hspares op (List.mem_append_left _ hin)
      obtain ⟨hdata', hbytes'⟩ := hdata.step hpos hfit hv hop
        (hspares _ (List.mem_append_right _ List.mem_cons_self))
      exact ⟨processStep_valid hpos hfit hv hop, hdata',
        fun x h1 h2 => (hbytes' x h1 h2).trans (hbytes x h1 h2)⟩
  exact ⟨hall.2.1.live, hall.2.2⟩

/-- A process is created and added meanwhile. -/
theorem client_data_kept_process : ∃ t u q pcb,
    Run KernelProcessStep t [.create 0x00100000, .add pcb] u ∧
    (q, 16) ∈ u.heap.live ∧ ∀ x, q.toNat ≤ x → x < q.toNat + 16 → u.mem x = t.mem x := by
  obtain ⟨t, u, q, pcb, hbefore, hlive, hnone, hrun, -⟩ := exists_process_run
  refine ⟨t, u, q, pcb, hrun, client_data_kept (by decide) (by decide) (by decide) hbefore hrun
    (hlive ▸ List.mem_cons_self) ?_ ?_⟩
  · rw [hnone]
    exact fun _ he => absurd he List.not_mem_nil
  · intro op hop
    simp only [List.mem_cons, List.not_mem_nil, or_false] at hop
    rcases hop with rfl | rfl <;> trivial

/-! ## Dispatching -/

/-- A queued process stays. -/
theorem ProcessStep.queued {e : Process} (hstep : ProcessStep start stop t op u)
    (he : e ∈ t.processes) (hin : e.pcb ∈ t.queue) : e ∈ u.processes ∧ e.pcb ∈ u.queue := by
  cases hstep with
  | client => exact ⟨he, hin⟩
  | outside => exact ⟨he, hin⟩
  | create => exact ⟨List.mem_cons_of_mem _ he, hin⟩
  | createNull => exact ⟨he, hin⟩
  | kfree he' hout =>
    exact ⟨List.mem_filter.mpr ⟨he, decide_eq_true fun heq => hout (heq ▸ hin)⟩, hin⟩
  | add => exact ⟨he, List.mem_append_left _ hin⟩
  | schedule => exact ⟨he, hin⟩

/-- The call of `context_switch` that `schedule` makes for `pcb`: its argument is on the stack, and
the PCB is as `schedule` has left it. -/
structure SwitchCall (t : ProcessTable) (pcb : Ptr) (cpu : Cpu) (m : Memory) : Prop where
  dispatched : (schedule t.sched).2 = some pcb
  arg : dwordAt m (cpu.esp + 4) = pcb
  pcb : ∀ x, pcb.toNat ≤ x → x < pcb.toNat + 52 → m x = (schedule t.sched).1.mem x

/-- **What a dispatch does.** -/
theorem ProcessesValid.switch {pcb : Ptr} {cpu : Cpu} {m : Memory}
    (h : ProcessesValid start stop t) (hstop : stop < 2 ^ 32) (hcall : SwitchCall t pcb cpu m) :
    ∃ e ∈ t.processes, e.pcb = pcb ∧ pcb ∈ t.queue ∧ (contextSwitch cpu m).1 =
      { cpu with
        eax := pcb
        ebx := pcbGet e.made pcb .ebx
        ecx := pcbGet e.made pcb .ecx
        edx := pcbGet e.made pcb .edx
        eip := 0 } := by
  obtain ⟨hdispatched, harg, hagree⟩ := hcall
  have hin : pcb ∈ t.queue := h.sched.mem_of_schedule hdispatched
  obtain ⟨e, he, rfl⟩ := h.queued pcb hin
  have hbounds := h.bounds he
  have hfield : ∀ f, f ≠ .state → f ≠ .next → pcbGet m e.pcb f = pcbGet e.made e.pcb f := by
    intro f hstate hnext
    exact ((pcbGet_eq hagree f).trans (schedule_keeps h.sched.pointers hin hstate)).trans
      (h.kept e he f hstate hnext)
  refine ⟨e, he, rfl, hin, ?_⟩
  rw [contextSwitch_eq harg (by omega), hfield .ebx (by decide) (by decide),
    hfield .ecx (by decide) (by decide), hfield .edx (by decide) (by decide),
    hfield .esp (by decide) (by decide), h.initial e he .esp 0 rfl]

/-- **No process gets on.**  Whenever `schedule` dispatches a process again, whatever has
happened since, `context_switch` continues at address 0 with the same `eax`, `ebx`, `ecx` and
`edx` as the time before, and with the other registers as they are at the call. -/
theorem dispatch_restarts {start size : UInt32} {later : List ProcessOp} {pcb : Ptr}
    {cpu cpu' : Cpu} {m m' : Memory} (hstart : 0 < start) (hsize : 12 ≤ size.toNat)
    (hfit : start.toNat + size.toNat < 2 ^ 32)
    (hrun : Run (ProcessStep start.toNat (start.toNat + size.toNat))
      (processStart (kmallocInit mem start size)) ops t)
    (hlater : Run (ProcessStep start.toNat (start.toNat + size.toNat)) t later u)
    (hcall : SwitchCall t pcb cpu m) (hcall' : SwitchCall u pcb cpu' m') :
    ∃ ebx ecx edx,
      (contextSwitch cpu m).1 = { cpu with eax := pcb, ebx, ecx, edx, eip := 0 } ∧
      (contextSwitch cpu' m').1 = { cpu' with eax := pcb, ebx, ecx, edx, eip := 0 } := by
  have h := run_processesValid hstart hsize hfit hrun
  have h' := run_processesValid hstart hsize hfit (hrun.append hlater)
  obtain ⟨e, he, rfl, hin, hswitch⟩ := h.switch hfit hcall
  obtain ⟨e', he', heq, -, hswitch'⟩ := h'.switch hfit hcall'
  have hstays : e ∈ u.processes ∧ e.pcb ∈ u.queue :=
    hlater.invariant (fun u => e ∈ u.processes ∧ e.pcb ∈ u.queue) ⟨he, hin⟩
      fun _ _ _ hstays hstep => hstep.queued hstays.1 hstays.2
  obtain rfl : e' = e := by
    rcases h'.eq_or_apart he' hstays.1 with hsame | hapart
    · exact hsame
    · exact absurd heq hapart.ne
  exact ⟨_, _, _, hswitch, hswitch'⟩

/-- With one process in the queue, `schedule` dispatches it. -/
theorem exists_switchCall {pcb : Ptr} (h : ProcessesValid start stop t) (hlow : 0x90008 ≤ start)
    (hqueue : t.queue = [pcb]) : ∃ cpu m, SwitchCall t pcb cpu m := by
  have hin : pcb ∈ t.queue := hqueue ▸ List.mem_cons_self
  have hnext : upNext t.sched ∈ t.queue := h.sched.upNext_mem (List.ne_nil_of_mem hin)
  obtain ⟨e, he, rfl⟩ := h.queued pcb hin
  have hpcb := (h.bounds he).1
  -- the argument stands in the stack, far below the heap
  refine ⟨⟨0, 0, 0, 0, 0x90000, 0, 0, 0, 0, 8, 2, 16⟩,
    (schedule t.sched).1.mem.store 0x90004 4 e.pcb.toNat, ?_, ?_,
    fun x hx _ => Memory.store_outside (by omega)⟩
  · rw [hqueue, List.mem_singleton] at hnext
    rw [schedule_of_upNext (hnext ▸ h.sched.nonnull _ hin), hnext]
  · have hmod : e.pcb.toNat % 256 ^ 4 = e.pcb.toNat := Nat.mod_eq_of_lt e.pcb.toNat_lt
    rw [dwordAt, show ((0x90000 : UInt32) + 4).toNat = 0x90004 from rfl, Memory.load_store, hmod,
      UInt32.ofNat_toNat]

/-- The only process, dispatched twice. -/
theorem dispatch_restarts_twice : ∃ t u pcb, ∃ cpu cpu' : Cpu, ∃ m m',
    Run KernelProcessStep t [.schedule (some pcb)] u ∧
    SwitchCall t pcb cpu m ∧ SwitchCall u pcb cpu' m' ∧ ∃ ebx ecx edx,
      (contextSwitch cpu m).1 = { cpu with eax := pcb, ebx, ecx, edx, eip := 0 } ∧
      (contextSwitch cpu' m').1 = { cpu' with eax := pcb, ebx, ecx, edx, eip := 0 } := by
  obtain ⟨s, t, q, pcb, hbefore, -, -, hmake, hqueue, -⟩ := exists_process_run
  have hrun := hbefore.append hmake
  have hlater : Run KernelProcessStep t [.schedule (schedule t.sched).2] _ :=
    Run.nil.snoc .schedule
  have h := run_processesValid (by decide) (by decide) (by decide) hrun
  have h' := run_processesValid (by decide) (by decide) (by decide) (hrun.append hlater)
  obtain ⟨cpu, m, hcall⟩ := exists_switchCall h (by decide) hqueue
  obtain ⟨cpu', m', hcall'⟩ := exists_switchCall h' (by decide) hqueue
  have hsame := dispatch_restarts (by decide) (by decide) (by decide) hrun hlater hcall hcall'
  rw [hcall.dispatched] at hlater
  exact ⟨t, _, pcb, cpu, cpu', m, m', hlater, hcall, hcall', hsame⟩

end OsKernel
