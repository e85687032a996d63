import OsKernel.KmallocHeap

/-! # Process control blocks (`pcb.h`, `pcb.c`)

A `pcb_t` is thirteen 32-bit words in memory: the enumeration `state` and the pointer
`next` take four bytes each like the registers between them, so that the compiler puts
no padding anywhere.  `create_process` takes its memory from `kmalloc` and stores into
seven of the fields.
-/
namespace OsKernel

/-- `process_state_t` -/
inductive ProcessState
  | ready
  | running
  | blocked
  | terminated
  deriving DecidableEq, Repr

/-- The value of an enumerator. -/
def ProcessState.code : ProcessState → UInt32
  | .ready => 0
  | .running => 1
  | .blocked => 2
  | .terminated => 3

/-- The members of `pcb_t`. -/
inductive PcbField
  | pid | state | eax | ebx | ecx | edx | esi | edi | esp | ebp | eip | eflags | next
  deriving DecidableEq, Repr

/-- `offsetof(pcb_t, f)` -/
def PcbField.offset : PcbField → Nat
  | .pid => 0
  | .state => 4
  | .eax => 8
  | .ebx => 12
  | .ecx => 16
  | .edx => 20
  | .esi => 24
  | .edi => 28
  | .esp => 32
  | .ebp => 36
  | .eip => 40
  | .eflags => 44
  | .next => 48

/-- `sizeof(pcb_t)` -/
def pcbSize : UInt32 := 52

/-- `pcb->f` -/
def pcbGet (mem : Memory) (pcb : Ptr) (f : PcbField) : UInt32 :=
  UInt32.ofNat (mem.load (pcb.toNat + f.offset) 4)

/-- `pcb->f = v` -/
def pcbSet (mem : Memory) (pcb : Ptr) (f : PcbField) (v : UInt32) : Memory :=
  mem.store (pcb.toNat + f.offset) 4 v.toNat

/-! ## Reading and writing fields -/

/-- Two PCBs share no byte. -/
def Apart (p q : Ptr) : Prop := p.toNat + 52 ≤ q.toNat ∨ q.toNat + 52 ≤ p.toNat

instance (p q : Ptr) : Decidable (Apart p q) := inferInstanceAs (Decidable (_ ∨ _))

variable {mem mem' : Memory} {p q : Ptr} {f g : PcbField} {v : UInt32} {x : Nat}

theorem Apart.symm (h : Apart p q) : Apart q p := Or.symm h

instance : Std.Symm Apart := ⟨fun _ _ => Apart.symm⟩

theorem Apart.ne (h : Apart p q) : p ≠ q := by
  rintro rfl
  rcases h with h | h <;> omega

theorem PcbField.offset_le (f : PcbField) : f.offset + 4 ≤ 52 := by
  cases f <;> decide

theorem PcbField.offset_disjoint (h : f ≠ g) :
    f.offset + 4 ≤ g.offset ∨ g.offset + 4 ≤ f.offset := by
  cases f <;> cases g <;> first | exact absurd rfl h | decide

/-- A field is the four bytes at its offset. -/
theorem pcbGet_congr
    (h : ∀ x, p.toNat + f.offset ≤ x → x < p.toNat + f.offset + 4 → mem' x = mem x) :
    pcbGet mem' p f = pcbGet mem p f := by
  rw [pcbGet, pcbGet, Memory.load_congr h]

/-- Memories that agree on a PCB agree on its fields. -/
theorem pcbGet_eq (h : ∀ x, p.toNat ≤ x → x < p.toNat + 52 → mem' x = mem x) (f : PcbField) :
    pcbGet mem' p f = pcbGet mem p f := by
  have := f.offset_le
  exact pcbGet_congr fun x h1 h2 => h x (by omega) (by omega)

@[simp] theorem pcbGet_pcbSet_self : pcbGet (pcbSet mem p f v) p f = v := by
  have hv : v.toNat % 256 ^ 4 = v.toNat := Nat.mod_eq_of_lt v.toNat_lt
  rw [pcbGet, pcbSet, Memory.load_store, hv, UInt32.ofNat_toNat]

theorem pcbGet_pcbSet_of_ne (h : f ≠ g) : pcbGet (pcbSet mem p f v) p g = pcbGet mem p g := by
  have := PcbField.offset_disjoint h
  rw [pcbGet, pcbSet, Memory.load_store_disjoint (by omega), pcbGet]

theorem pcbSet_outside (h : x < p.toNat ∨ p.toNat + 52 ≤ x) : pcbSet mem p f v x = mem x := by
  have := f.offset_le
  exact Memory.store_outside (by omega)

theorem pcbGet_pcbSet_apart (h : Apart p q) : pcbGet (pcbSet mem p f v) q g = pcbGet mem q g :=
  pcbGet_eq (fun x h1 h2 => pcbSet_outside (by rcases h with h | h <;> omega)) g

/-- A store into one field leaves the other fields of all PCBs. -/
theorem pcbGet_pcbSet_field (h : p = q ∨ Apart p q) (hfg : f ≠ g) :
    pcbGet (pcbSet mem p f v) q g = pcbGet mem q g := by
  rcases h with rfl | h
  · exact pcbGet_pcbSet_of_ne hfg
  · exact pcbGet_pcbSet_apart h

/-! ## Creating a process -/

/-- The stores of `create_process` into its new block. -/
def initPcb (mem : Memory) (newPcb : Ptr) (pid entryPoint : UInt32) : Memory :=
  let mem := pcbSet mem newPcb .pid pid
  let mem := pcbSet mem newPcb .state ProcessState.ready.code
  let mem := pcbSet mem newPcb .eip entryPoint
  let mem := pcbSet mem newPcb .esp 0
  let mem := pcbSet mem newPcb .ebp 0
  let mem := pcbSet mem newPcb .eflags 0x202
  pcbSet mem newPcb .next 0

/-- `create_process` returns a pointer and leaves a memory and a `next_pid` behind. -/
inductive CreateProcess (h : Heap) (nextPid entryPoint : UInt32) :
    Ptr → Memory → UInt32 → Prop
  | null {mem : Memory} (hret : KmallocReturns h pcbSize 0 mem) :
      CreateProcess h nextPid entryPoint 0 mem nextPid
  | created {newPcb : Ptr} {mem : Memory} (hret : KmallocReturns h pcbSize newPcb mem)
      (hne : newPcb ≠ 0) :
      CreateProcess h nextPid entryPoint newPcb (initPcb mem newPcb nextPid entryPoint)
        (nextPid + 1)

/-- The value `create_process` gives to a field; the general registers get none. -/
def initialValue (pid entryPoint : UInt32) : PcbField → Option UInt32
  | .pid => some pid
  | .state => some ProcessState.ready.code
  | .eip => some entryPoint
  | .esp => some 0
  | .ebp => some 0
  | .eflags => some 0x202
  | .next => some 0
  | .eax | .ebx | .ecx | .edx | .esi | .edi => none

/-- **The fields of a new PCB**: those that `create_process` stores, and for the others
what the memory held. -/
theorem pcbGet_initPcb (mem : Memory) (p : Ptr) (pid entryPoint : UInt32) (f : PcbField) :
    pcbGet (initPcb mem p pid entryPoint) p f =
      (initialValue pid entryPoint f).getD (pcbGet mem p f) := by
  cases f <;>
    simp [initPcb, initialValue, pcbGet_pcbSet_of_ne]

theorem initPcb_outside {pid entryPoint : UInt32} (h : x < p.toNat ∨ p.toNat + 52 ≤ x) :
    initPcb mem p pid entryPoint x = mem x := by
  simp only [initPcb, pcbSet_outside h]

/-- `create_process` has one outcome. -/
theorem CreateProcess.unique {h : Heap} {nextPid entryPoint pid pid' : UInt32} {pcb pcb' : Ptr}
    (hc : CreateProcess h nextPid entryPoint pcb mem pid)
    (hc' : CreateProcess h nextPid entryPoint pcb' mem' pid') :
    pcb = pcb' ∧ mem = mem' ∧ pid = pid' := by
  cases hc with
  | null hret =>
    cases hc' with
    | null hret' => exact ⟨rfl, (Prod.mk.inj (hret.unique hret')).2, rfl⟩
    | created hret' hne => exact absurd (Prod.mk.inj (hret.unique hret')).1.symm hne
  | created hret hne =>
    cases hc' with
    | null hret' => exact absurd (Prod.mk.inj (hret.unique hret')).1 hne
    | created hret' hne' =>
      obtain ⟨rfl, rfl⟩ := Prod.mk.inj (hret.unique hret')
      exact ⟨rfl, rfl, rfl⟩

section Create
variable {start stop : Nat} {st : HeapState} {cs : List Chunk} (hstart : 0 < start)
  (hstop : stop < 2 ^ 32) (h : HeapValid start stop st cs)
include hstart hstop h

/-- **`create_process`** returns.  Without a free block of the size of a PCB it returns
`NULL` and changes nothing; otherwise the new PCB is a live allocation more, at the payload
of the first such block. -/
theorem createProcess_spec (nextPid entryPoint : UInt32) :
    (place 12 52 cs = none ∧ CreateProcess st.heap nextPid entryPoint 0 st.heap.mem nextPid) ∨
    ∃ o cs' pcb mem, place 12 52 cs = some (o, cs') ∧ pcb.toNat = start + o + 12 ∧ pcb ≠ 0 ∧
      KmallocReturns st.heap pcbSize pcb mem ∧
      CreateProcess st.heap nextPid entryPoint pcb (initPcb mem pcb nextPid entryPoint)
        (nextPid + 1) ∧
      HeapValid start stop
        ⟨{ st.heap with mem := initPcb mem pcb nextPid entryPoint }, (pcb, pcbSize) :: st.live⟩
        cs' ∧
      Keeps st.heap.mem mem start stop (liveFrom 12 start cs) := by
  rcases kmalloc_chunks hstart hstop h pcbSize with
    ⟨hplace, hr⟩ | ⟨o, cs', pcb, mem, hplace, hptr, hne, hr, hvalid, hk⟩
  · exact Or.inl ⟨hplace, .null hr⟩
  · refine Or.inr ⟨o, cs', pcb, mem, hplace, hptr, hne, hr, .created hr hne, ?_, hk⟩
    exact hvalid.store_live List.mem_cons_self fun x hx => initPcb_outside hx

/-- A `create_process` that returned `NULL` changed nothing. -/
theorem createProcess_null {nextPid entryPoint pid : UInt32} {mem : Memory}
    (hcreate : CreateProcess st.heap nextPid entryPoint 0 mem pid) :
    mem = st.heap.mem ∧ pid = nextPid := by
  rcases createProcess_spec hstart hstop h nextPid entryPoint with
    ⟨-, hnull⟩ | ⟨o, cs', pcb, mem', -, -, hne, -, hcreate', -⟩
  · exact (hcreate.unique hnull).2
  · exact absurd (hcreate.unique hcreate').1.symm hne

/-- A `create_process` that returned a PCB made a live allocation of it. -/
theorem createProcess_created {nextPid entryPoint pid : UInt32} {pcb : Ptr} {mem : Memory}
    (hcreate : CreateProcess st.heap nextPid entryPoint pcb mem pid) (hne : pcb ≠ 0) :
    ∃ cs' m, mem = initPcb m pcb nextPid entryPoint ∧ pid = nextPid + 1 ∧
      HeapValid start stop ⟨{ st.heap with mem }, (pcb, pcbSize) :: st.live⟩ cs' ∧
      Keeps st.heap.mem m start stop (liveFrom 12 start cs) := by
  rcases createProcess_spec hstart hstop h nextPid entryPoint with
    ⟨-, hnull⟩ | ⟨o, cs', pcb', m, -, -, -, -, hcreate', hvalid, hk⟩
  · exact absurd (hcreate.unique hnull).1 hne
  · obtain ⟨rfl, rfl, rfl⟩ := hcreate.unique hcreate'
    exact ⟨cs', m, rfl, rfl, hvalid, hk⟩

end Create

end OsKernel
