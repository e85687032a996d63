import OsKernel.Pcb
import Mathlib.Data.List.Nodup

/-! # Process identifiers

`next_pid` is a 32-bit counter: the `n`-th process created gets the identifier `n`
modulo 2^32, and identifiers come back once the counter has gone around.  Two live PCBs
therefore have different identifiers as long as no PCB outlives 2^32 later ones
(`pid_unique_iff`).
-/
namespace OsKernel

/-- The heap, `next_pid`, and the live PCBs, each with the number of processes created
before it. -/
structure ProcState where
  heap : HeapState
  nextPid : UInt32
  pcbs : List (Ptr × Nat)
  created : Nat

/-- The calls. -/
inductive ProcOp
  | create (entryPoint : UInt32)
  | kfree (pcb : Ptr)

/-- One call: `create_process`, or `kfree` of a live PCB. -/
inductive ProcStep : ProcState → ProcOp → ProcState → Prop
  | create (st : ProcState) {entryPoint nextPid : UInt32} {pcb : Ptr} {mem : Memory}
      (h : CreateProcess st.heap.heap st.nextPid entryPoint pcb mem nextPid) (hne : pcb ≠ 0) :
      ProcStep st (.create entryPoint)
        ⟨⟨{ st.heap.heap with mem }, (pcb, pcbSize) :: st.heap.live⟩, nextPid,
          (pcb, st.created) :: st.pcbs, st.created + 1⟩
  | createNull (st : ProcState) {entryPoint nextPid : UInt32} {mem : Memory}
      (h : CreateProcess st.heap.heap st.nextPid entryPoint 0 mem nextPid) :
      ProcStep st (.create entryPoint)
        ⟨⟨{ st.heap.heap with mem }, st.heap.live⟩, nextPid, st.pcbs, st.created⟩
  | kfree (st : ProcState) {pcb : Ptr} {n : Nat} {mem : Memory} (hlive : (pcb, n) ∈ st.pcbs)
      (h : KfreeReturns st.heap.heap pcb mem) :
      ProcStep st (.kfree pcb)
        ⟨⟨{ st.heap.heap with mem }, st.heap.live.erase (pcb, pcbSize)⟩, st.nextPid,
          st.pcbs.erase (pcb, n), st.created⟩

/-- The kernel before its first process, on any heap. -/
def procStart (heap : HeapState) : ProcState := ⟨heap, 1, [], 0⟩

/-- **Identifiers are unique**: different live PCBs have different ones. -/
def PidsDistinct (st : ProcState) : Prop :=
  ∀ e ∈ st.pcbs, ∀ e' ∈ st.pcbs, e.1 ≠ e'.1 →
    pcbGet st.heap.heap.mem e.1 .pid ≠ pcbGet st.heap.heap.mem e'.1 .pid

/-- A `create_process` that returns `NULL` leaves `next_pid` and the block list. -/
def NullKeeps (st : ProcState) : Prop :=
  ∀ entryPoint mem nextPid, CreateProcess st.heap.heap st.nextPid entryPoint 0 mem nextPid →
    nextPid = st.nextPid ∧ ∃ bs, BlockList st.heap.heap.mem st.heap.heap.heapStart bs ∧
      BlockList mem st.heap.heap.heapStart bs

/-- No live PCB has seen 2^32 processes created after it. -/
def Fresh (st : ProcState) : Prop := ∀ e ∈ st.pcbs, st.created ≤ e.2 + 2 ^ 32

/-- **The invariant**: the counter counts, and every live PCB holds its number. -/
structure ProcValid (start stop : Nat) (st : ProcState) : Prop where
  heap : ∃ cs, HeapValid start stop st.heap cs
  nextPid : st.nextPid = UInt32.ofNat (1 + st.created)
  live : ∀ e ∈ st.pcbs, (e.1, pcbSize) ∈ st.heap.live
  order : (st.pcbs.map Prod.snd).Pairwise (· > ·)
  bound : ∀ e ∈ st.pcbs, e.2 < st.created
  pid : ∀ e ∈ st.pcbs, pcbGet st.heap.heap.mem e.1 .pid = UInt32.ofNat (1 + e.2)
  apart : st.pcbs.Pairwise fun e e' => Apart e.1 e'.1

variable {start stop : Nat} {st st' : ProcState} {op : ProcOp}

/-- The allocator leaves the fields of live PCBs. -/
theorem HeapValid.pcbGet_keeps {t : HeapState} {cs : List Chunk} {m : Memory} {p : Ptr}
    {f : PcbField} (h : HeapValid start stop t cs)
    (hk : Keeps t.heap.mem m start stop (liveFrom 12 start cs)) (hp : (p, pcbSize) ∈ t.live) :
    pcbGet m p f = pcbGet t.heap.mem p f :=
  pcbGet_eq (fun x h1 h2 => hk.live _ (h.mem_live hp) x h1 h2) f

section Steps
variable (hstart : 0 < start) (hstop : stop < 2 ^ 32) (h : ProcValid start stop st)
include hstart hstop h

theorem ProcValid.nullKeeps : NullKeeps st := by
  intro entryPoint mem nextPid hnull
  obtain ⟨cs, hheap⟩ := h.heap
  obtain ⟨rfl, rfl⟩ := createProcess_null hstart hstop hheap hnull
  exact ⟨rfl, _, hheap.start_link ▸ hheap.laid.blockList hstop hstart,
    hheap.start_link ▸ hheap.laid.blockList hstop hstart⟩

/-- A new process takes the next number. -/
theorem ProcValid.create {entryPoint nextPid : UInt32} {pcb : Ptr} {mem : Memory}
    (hcreate : CreateProcess st.heap.heap st.nextPid entryPoint pcb mem nextPid) (hne : pcb ≠ 0) :
    ProcValid start stop
      ⟨⟨{ st.heap.heap with mem }, (pcb, pcbSize) :: st.heap.live⟩, nextPid,
        (pcb, st.created) :: st.pcbs, st.created + 1⟩ := by
  obtain ⟨cs, hheap⟩ := h.heap
  obtain ⟨cs', m, rfl, rfl, hvalid, hk⟩ := createProcess_created hstart hstop hheap hcreate hne
  have hnew : ∀ e ∈ st.pcbs, Apart pcb e.1 := fun e he =>
    (List.pairwise_cons.mp hvalid.pairwise_live).1 _ (h.live e he)
  refine ⟨⟨cs', hvalid⟩, ?_, ?_, ?_, ?_, ?_, List.pairwise_cons.mpr ⟨hnew, h.apart⟩⟩
  · dsimp only
    rw [h.nextPid, ← Nat.add_assoc, UInt32.ofNat_add (1 + st.created) 1]
    rfl
  · simpa using fun p n he => Or.inr (h.live (p, n) he)
  · refine List.pairwise_cons.mpr ⟨fun n hn => ?_, h.order⟩
    obtain ⟨e, he, rfl⟩ := List.mem_map.mp hn
    exact h.bound e he
  · intro e he
    dsimp only
    rcases List.mem_cons.mp he with rfl | he
    · exact Nat.lt_succ_self _
    · exact Nat.lt_succ_of_lt (h.bound e he)
  · intro e he
    dsimp only
    rcases List.mem_cons.mp he with rfl | he
    · rw [pcbGet_initPcb, ← h.nextPid]
      rfl
    · rw [← h.pid e he, ← hheap.pcbGet_keeps hk (h.live e he)]
      refine pcbGet_eq (fun x h1 h2 => initPcb_outside ?_) _
      rcases hnew e he with hlt | hlt <;> omega

/-- Freeing a PCB leaves the others and their numbers. -/
theorem ProcValid.kfree {pcb : Ptr} {n : Nat} {mem : Memory} (hlive : (pcb, n) ∈ st.pcbs)
    (hret : KfreeReturns st.heap.heap pcb mem) :
    ProcValid start stop
      ⟨⟨{ st.heap.heap with mem }, st.heap.live.erase (pcb, pcbSize)⟩, st.nextPid,
        st.pcbs.erase (pcb, n), st.created⟩ := by
  obtain ⟨cs, hheap⟩ := h.heap
  obtain ⟨hvalid, hk⟩ := kfree_done hstart hstop hheap (h.live _ hlive) hret
  have hsub := List.erase_sublist (a := (pcb, n)) (l := st.pcbs)
  have hother : ∀ e ∈ st.pcbs.erase (pcb, n), Apart pcb e.1 := by
    have hperm := (List.perm_cons_erase hlive).pairwise h.apart fun hpq => hpq.symm
    exact (List.pairwise_cons.mp hperm).1
  refine ⟨⟨_, hvalid⟩, h.nextPid, fun e he => ?_, h.order.sublist (hsub.map _),
    fun e he => h.bound e (hsub.mem he), fun e he => ?_, h.apart.sublist hsub⟩
  · refine (List.mem_erase_of_ne fun heq => ?_).mpr (h.live e (hsub.mem he))
    exact (hother e he).ne (Prod.mk.inj heq).1.symm
  · rw [← h.pid e (hsub.mem he)]
    exact hheap.pcbGet_keeps hk (h.live e (hsub.mem he))

/-- **One call keeps the invariant.** -/
theorem procStep_valid (hstep : ProcStep st op st') : ProcValid start stop st' := by
  cases hstep with
  | create hcreate hne => exact h.create hstart hstop hcreate hne
  | createNull hnull =>
    obtain ⟨cs, hheap⟩ := h.heap
    obtain ⟨rfl, rfl⟩ := createProcess_null hstart hstop hheap hnull
    exact ⟨⟨cs, hheap⟩, h.nextPid, h.live, h.order, h.bound, h.pid, h.apart⟩
  | kfree hlive hret => exact h.kfree hstart hstop hlive hret

end Steps

/-! ## When identifiers are unique -/

theorem ofNat_ne_of_lt {a b : Nat} (hlt : a < b) (hclose : b < a + 2 ^ 32) :
    UInt32.ofNat a ≠ UInt32.ofNat b := by
  intro heq
  have hmod := congrArg UInt32.toNat heq
  rw [UInt32.toNat_ofNat', UInt32.toNat_ofNat'] at hmod
  omega

theorem ofNat_wrap (a : Nat) : UInt32.ofNat (a + 2 ^ 32) = UInt32.ofNat a := by
  rw [UInt32.ofNat_add, show UInt32.ofNat (2 ^ 32) = 0 from rfl, UInt32.add_zero]

/-- Numbers less than 2^32 apart give different identifiers. -/
theorem ProcValid.distinct (h : ProcValid start stop st) (hfresh : Fresh st) :
    PidsDistinct st := by
  have hlt : ∀ e ∈ st.pcbs, ∀ e' ∈ st.pcbs, e.2 < e'.2 →
      pcbGet st.heap.heap.mem e.1 .pid ≠ pcbGet st.heap.heap.mem e'.1 .pid := by
    intro e he e' he' hlt
    rw [h.pid e he, h.pid e' he']
    have h1 := h.bound e' he'
    have h2 := hfresh e he
    exact ofNat_ne_of_lt (by omega) (by omega)
  intro e he e' he' hne
  rcases Nat.lt_trichotomy e.2 e'.2 with h' | heq | h'
  · exact hlt e he e' he' h'
  · -- one number is the number of one PCB
    have hnodup : (st.pcbs.map Prod.snd).Nodup := h.order.imp fun hgt => Nat.ne_of_gt hgt
    exact absurd (congrArg Prod.fst (List.inj_on_of_nodup_map hnodup he he' heq)) hne
  · exact (hlt e' he' e he h').symm

/-- While identifiers are unique, the next process may be created only if no live PCB
has its number 2^32 earlier. -/
theorem fresh_step (hfresh : Fresh st) (hstep : ProcStep st op st')
    (h' : ProcValid start stop st') (hdistinct : PidsDistinct st') : Fresh st' := by
  cases hstep with
  | @create entryPoint nextPid pcb mem hcreate hne =>
    intro e he
    dsimp only at he ⊢
    rcases List.mem_cons.mp he with rfl | hold
    · exact Nat.add_le_add_left (by decide) _
    · by_contra hmany
      have heq : st.created = e.2 + 2 ^ 32 := by
        have := hfresh e hold
        omega
      have hapart : Apart pcb e.1 := (List.pairwise_cons.mp h'.apart).1 e hold
      refine hdistinct _ List.mem_cons_self e he hapart.ne ?_
      rw [h'.pid _ List.mem_cons_self, h'.pid e he]
      dsimp only
      rw [heq, ← Nat.add_assoc, ofNat_wrap]
  | createNull => exact hfresh
  | kfree => exact fun e he => hfresh e (List.mem_of_mem_erase he)

theorem procStart_valid {t : HeapState} (h : ∃ cs, HeapValid start stop t cs) :
    ProcValid start stop (procStart t) where
  heap := h
  nextPid := rfl
  live := by simp [procStart]
  order := .nil
  bound := by simp [procStart]
  pid := by simp [procStart]
  apart := .nil

/-- **When identifiers are unique.**  In all states of a run different live PCBs have
different identifiers, and a `create_process` that returns `NULL` leaves `next_pid` and
the block list unchanged, exactly if no PCB stays live while 2^32 processes are created
after it. -/
theorem pid_unique_iff {start size : UInt32} {m₀ : Memory} {calls : List HeapOp}
    {t : HeapState} {ops : List ProcOp} (hstart : 0 < start) (hsize : 12 ≤ size.toNat)
    (hfit : start.toNat + size.toNat < 2 ^ 32)
    (hheap : Run HeapStep ⟨kmallocInit m₀ start size, []⟩ calls t) :
    (∀ pre st, pre <+: ops → Run ProcStep (procStart t) pre st →
        PidsDistinct st ∧ NullKeeps st) ↔
      ∀ pre st, pre <+: ops → Run ProcStep (procStart t) pre st → Fresh st := by
  have hpos : 0 < start.toNat := UInt32.lt_iff_toNat_lt.mp hstart
  have hinit := procStart_valid (run_heapValid hstart hsize hfit hheap)
  have hvalid : ∀ pre st, Run ProcStep (procStart t) pre st →
      ProcValid start.toNat (start.toNat + size.toNat) st := fun pre st hrun =>
    hrun.invariant (ProcValid start.toNat (start.toNat + size.toNat)) hinit
      fun _ _ _ h hstep => procStep_valid hpos hfit h hstep
  constructor
  · intro hall pre st hpre hrun
    induction hrun with
    | nil => exact fun e he => absurd he List.not_mem_nil
    | snoc hrun hstep ih =>
      have hbefore := ih ((List.prefix_append _ _).trans hpre)
      have hafter := hrun.snoc hstep
      exact fresh_step hbefore hstep (hvalid _ _ hafter) (hall _ _ hpre hafter).1
  · intro hall pre st hpre hrun
    have h := hvalid pre st hrun
    exact ⟨h.distinct (hall pre st hpre hrun), h.nullKeeps hpos hfit⟩

/-! ## The counter goes around -/

/-- The chunks of the heap of `kernel_main` with one PCB in it. -/
def onePcb : List Chunk := [.used 52 52 (Nat.le_refl 52), .avail 1048500]

/-- A process created and freed again leaves the heap as it was. -/
theorem create_kfree (h : HeapValid 0x00200000 0x00300000 st.heap onePcb) :
    ∃ pcb u, Run ProcStep st [.create 0, .kfree pcb] u ∧
      HeapValid 0x00200000 0x00300000 u.heap onePcb ∧ u.pcbs = st.pcbs ∧
      u.created = st.created + 1 := by
  rcases createProcess_spec (by decide) (by decide) h st.nextPid 0 with
    ⟨hnone, -⟩ | ⟨o, cs, pcb, mem, hplace, hptr, hne, -, hcreate, hvalid, -⟩
  · cases hnone
  · obtain ⟨rfl, rfl⟩ := Prod.mk.inj (Option.some.inj hplace)
    have hstep := ProcStep.create st hcreate hne
    obtain ⟨mem', hret, hvalid', -⟩ := kfree_chunks (by decide) (by decide) hvalid
      List.mem_cons_self
    have hfree := ProcStep.kfree
      ⟨⟨{ st.heap.heap with mem := initPcb mem pcb st.nextPid 0 }, (pcb, pcbSize) :: st.heap.live⟩,
        st.nextPid + 1, (pcb, st.created) :: st.pcbs, st.created + 1⟩ List.mem_cons_self hret
    refine ⟨pcb, _, (Run.nil.snoc hstep).snoc hfree, ?_, List.erase_cons_head .., rfl⟩
    have hcs : coalesce 12 (release 12 (pcb.toNat - 12 - 0x00200000)
        [.used 52 52 (Nat.le_refl 52), .used 52 52 (Nat.le_refl 52), .avail 1048436]) =
          onePcb := by
      rw [hptr]
      simp [release, coalesce, onePcb, Chunk.used, Chunk.avail, Chunk.isFree]
    exact hcs ▸ hvalid'

theorem create_kfree_run (h : HeapValid 0x00200000 0x00300000 st.heap onePcb) (n : Nat) :
    ∃ ops u, Run ProcStep st ops u ∧ HeapValid 0x00200000 0x00300000 u.heap onePcb ∧
      u.pcbs = st.pcbs ∧ u.created = st.created + n := by
  induction n with
  | zero => exact ⟨[], st, .nil, h, rfl, rfl⟩
  | succ n ih =>
    obtain ⟨ops, t, hrun, ht, hpcbs, hcreated⟩ := ih
    obtain ⟨pcb, u, hrun', hu, hpcbs', hcreated'⟩ := create_kfree ht
    refine ⟨_, u, hrun.append hrun', hu, hpcbs'.trans hpcbs, ?_⟩
    rw [hcreated', hcreated, Nat.add_assoc]

theorem exists_create (st : ProcState) {cs : List Chunk}
    (h : HeapValid 0x00200000 0x00300000 st.heap cs) (hsome : (place 12 52 cs).isSome) :
    ∃ pcb u, ProcStep st (.create 0) u ∧ u.pcbs = (pcb, st.created) :: st.pcbs ∧
      u.created = st.created + 1 ∧
      ∃ o cs', place 12 52 cs = some (o, cs') ∧ HeapValid 0x00200000 0x00300000 u.heap cs' := by
  rcases createProcess_spec (by decide) (by decide) h st.nextPid 0 with
    ⟨hnone, -⟩ | ⟨o, cs', pcb, mem, hplace, -, hne, -, hcreate, hvalid, -⟩
  · rw [hnone] at hsome
    cases hsome
  · exact ⟨pcb, _, .create st hcreate hne, rfl, rfl, o, cs', hplace, hvalid⟩

/-- **Identifiers are used again.**  With the first process still alive, the process
created after 2^32 - 1 short-lived ones has its identifier. -/
theorem pid_repeats : ∃ ops st,
    Run ProcStep (procStart ⟨kmallocInit (fun _ => 0) 0x00200000 0x00100000, []⟩) ops st ∧
      ¬ PidsDistinct st := by
  have hinit := kernelHeap_valid fun _ => 0
  have hproc := procStart_valid ⟨_, hinit⟩
  obtain ⟨p, s₁, hstep₁, hpcbs₁, hcreated₁, o, cs, hplace, hs₁⟩ := exists_create
    (procStart ⟨kmallocInit (fun _ => 0) 0x00200000 0x00100000, []⟩) hinit rfl
  obtain ⟨-, rfl⟩ := Prod.mk.inj (Option.some.inj hplace)
  obtain ⟨ops, s₂, hrun₂, hs₂, hpcbs₂, hcreated₂⟩ := create_kfree_run hs₁ (2 ^ 32 - 1)
  obtain ⟨q, s₃, hstep₃, hpcbs₃, -, -⟩ := exists_create s₂ hs₂ rfl
  have hrun := ((Run.nil.snoc hstep₁).append hrun₂).snoc hstep₃
  have h₃ : ProcValid 0x00200000 0x00300000 s₃ :=
    hrun.invariant (ProcValid 0x00200000 0x00300000) hproc
      fun _ _ _ h hstep => procStep_valid (by decide) (by decide) h hstep
  have hcreated : s₂.created = 2 ^ 32 := by
    rw [hcreated₂, hcreated₁]
    rfl
  have hpcbs : s₃.pcbs = [(q, 2 ^ 32), (p, 0)] := by
    rw [hpcbs₃, hpcbs₂, hpcbs₁, hcreated]
    rfl
  refine ⟨_, s₃, hrun, fun hdistinct => ?_⟩
  have hapart := h₃.apart
  rw [hpcbs, List.pairwise_cons] at hapart
  refine hdistinct (q, 2 ^ 32) (by simp [hpcbs]) (p, 0) (by simp [hpcbs])
    (hapart.1 _ List.mem_cons_self).ne ?_
  rw [h₃.pid _ (by simp [hpcbs]), h₃.pid (p, 0) (by simp [hpcbs])]
  exact ofNat_wrap 1

theorem created_le {t : HeapState} {ops : List ProcOp} (h : Run ProcStep (procStart t) ops st) :
    st.created ≤ ops.length := by
  induction h with
  | nil => exact Nat.le_refl 0
  | snoc _ hstep ih =>
    rw [List.length_append, List.length_singleton]
    cases hstep with
    | create => exact Nat.succ_le_succ ih
    | createNull => exact Nat.le_succ_of_le ih
    | kfree => exact Nat.le_succ_of_le ih

/-- The first two processes of the kernel, both alive, have different identifiers. -/
theorem pid_unique_iff_two : ∃ p q st,
    Run ProcStep (procStart ⟨kmallocInit (fun _ => 0) 0x00200000 0x00100000, []⟩)
        [.create 0, .create 0] st ∧
      st.pcbs = [(q, 1), (p, 0)] ∧
      pcbGet st.heap.heap.mem q .pid ≠ pcbGet st.heap.heap.mem p .pid ∧ NullKeeps st := by
  have hinit := kernelHeap_valid fun _ => 0
  have hproc := procStart_valid ⟨_, hinit⟩
  obtain ⟨p, s₁, hstep₁, hpcbs₁, hcreated₁, o, cs, hplace, hs₁⟩ := exists_create
    (procStart ⟨kmallocInit (fun _ => 0) 0x00200000 0x00100000, []⟩) hinit rfl
  obtain ⟨-, rfl⟩ := Prod.mk.inj (Option.some.inj hplace)
  obtain ⟨q, s₂, hstep₂, hpcbs₂, -, -⟩ := exists_create s₁ hs₁ rfl
  have hrun := (Run.nil.snoc hstep₁).snoc hstep₂
  have hpcbs : s₂.pcbs = [(q, 1), (p, 0)] := by
    rw [hpcbs₂, hpcbs₁, hcreated₁]
    rfl
  obtain ⟨hdistinct, hkeeps⟩ := (pid_unique_iff (by decide) (by decide) (by decide) .nil).mpr
    (fun pre st hpre hrun' e _ => by
      have h1 := created_le hrun'
      have h2 : pre.length ≤ 2 := hpre.length_le
      omega) _ _ (List.prefix_refl _) hrun
  have hapart := (hrun.invariant (ProcValid 0x00200000 0x00300000) hproc
    fun _ _ _ h hstep => procStep_valid (by decide) (by decide) h hstep).apart
  rw [hpcbs, List.pairwise_cons] at hapart
  refine ⟨p, q, s₂, hrun, hpcbs, hdistinct (q, 1) ?_ (p, 0) ?_ ?_, hkeeps⟩
  · exact hpcbs ▸ List.mem_cons_self
  · exact hpcbs ▸ List.mem_cons_of_mem _ List.mem_cons_self
  · exact (hapart.1 (p, 0) List.mem_cons_self).ne

end OsKernel
