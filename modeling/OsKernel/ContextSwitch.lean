import OsKernel.Scheduler
import OsKernel.Interrupts

/-! # Starting a process (`switch.asm`)

`context_switch` finds the PCB it is given by bare numeric offsets.  It loads three of
the saved registers and then returns to the word at offset 32, which the C compiler
gives to `esp`: `eip` is at offset 40.  `create_process` sets `esp` to 0, so that every
new process starts at address 0, whatever its entry point is.
-/
namespace OsKernel

/-- `[addr]`, a 32-bit operand in memory. -/
def dwordAt (mem : Memory) (addr : UInt32) : UInt32 := UInt32.ofNat (mem.load addr.toNat 4)

/-- `context_switch`, from its entry to behind its `ret`. -/
def contextSwitch (cpu : Cpu) (mem : Memory) : Cpu × Memory :=
  -- mov eax, [esp + 4]
  let eax := dwordAt mem (cpu.esp + 4)
  -- mov ebx, [eax + 12]; mov ecx, [eax + 16]; mov edx, [eax + 20]
  let ebx := dwordAt mem (eax + 12)
  let ecx := dwordAt mem (eax + 16)
  let edx := dwordAt mem (eax + 20)
  -- push dword [eax + 32]
  let stack := Stack.push ⟨mem, cpu.esp⟩ (dwordAt mem (eax + 32))
  -- ret
  ({ cpu with eax, ebx, ecx, edx, eip := dwordAt stack.mem stack.esp, esp := stack.esp + 4 },
    stack.mem)

variable {mem m : Memory} {pcb : Ptr} {cpu : Cpu} {f : PcbField}

theorem dwordAt_push (s : Stack) (w : UInt32) : dwordAt (s.push w).mem (s.push w).esp = w := by
  have hw : w.toNat % 256 ^ 4 = w.toNat := Nat.mod_eq_of_lt w.toNat_lt
  rw [dwordAt, Stack.push, Memory.load_store, hw, UInt32.ofNat_toNat]

/-- An operand at the offset of a field is the field. -/
theorem dwordAt_field (hfit : pcb.toNat + 52 ≤ 2 ^ 32) {off : UInt32}
    (hoff : off.toNat = f.offset) :
    dwordAt mem (pcb + off) = pcbGet mem pcb f := by
  have := f.offset_le
  have haddr : (pcb + off).toNat = pcb.toNat + f.offset := by
    rw [UInt32.toNat_add, hoff]
    exact Nat.mod_eq_of_lt (by omega)
  rw [dwordAt, haddr, pcbGet]

/-- **What `context_switch` does**, in terms of the fields of its PCB: it loads four registers
and jumps, and leaves the others alone. -/
theorem contextSwitch_eq (harg : dwordAt m (cpu.esp + 4) = pcb)
    (hfit : pcb.toNat + 52 ≤ 2 ^ 32) :
    (contextSwitch cpu m).1 =
      { cpu with
        eax := pcb
        ebx := pcbGet m pcb .ebx
        ecx := pcbGet m pcb .ecx
        edx := pcbGet m pcb .edx
        eip := pcbGet m pcb .esp } := by
  have hesp : cpu.esp - 4 + 4 = cpu.esp := UInt32.sub_add_cancel _ _
  have hebx : dwordAt m (pcb + 12) = pcbGet m pcb .ebx := dwordAt_field hfit rfl
  have hecx : dwordAt m (pcb + 16) = pcbGet m pcb .ecx := dwordAt_field hfit rfl
  have hedx : dwordAt m (pcb + 20) = pcbGet m pcb .edx := dwordAt_field hfit rfl
  have hjump : dwordAt m (pcb + 32) = pcbGet m pcb .esp := dwordAt_field hfit rfl
  rw [contextSwitch]
  dsimp only
  rw [dwordAt_push, harg, hebx, hecx, hedx, hjump, Stack.push, hesp]

theorem contextSwitch_spec (harg : dwordAt m (cpu.esp + 4) = pcb)
    (hfit : pcb.toNat + 52 ≤ 2 ^ 32) :
    (contextSwitch cpu m).1.eip = pcbGet m pcb .esp ∧
      (contextSwitch cpu m).1.ebx = pcbGet m pcb .ebx ∧
      (contextSwitch cpu m).1.ecx = pcbGet m pcb .ecx ∧
      (contextSwitch cpu m).1.edx = pcbGet m pcb .edx := by
  rw [contextSwitch_eq harg hfit]
  exact ⟨rfl, rfl, rfl, rfl⟩

section Start
/- A process is created on a reachable heap and added to a reachable ready queue; some
time later `schedule` selects it, and `context_switch` is called with its PCB. -/
variable {start size : UInt32} {m₀ m₁ : Memory} {calls : List HeapOp} {st : HeapState}
  {nextPid nextPid' entryPoint : UInt32} {ops later : List SchedOp} {σ σ' : SchedState}
  (hstart : 0 < start) (hsize : 12 ≤ size.toNat) (hfit : start.toNat + size.toNat < 2 ^ 32)
  (hheap : Run HeapStep ⟨kmallocInit m₀ start size, []⟩ calls st)
  (hcreate : CreateProcess st.heap nextPid entryPoint pcb mem nextPid') (hpcb : pcb ≠ 0)
  (hqueue : Run SchedStep (schedStart m₁) ops σ) (hmem : σ.sched.mem = mem)
  (hrun : Run SchedStep σ ([.add pcb] ++ later ++ [.schedule (some pcb)]) σ')
  (harg : dwordAt m (cpu.esp + 4) = pcb)
  (hagree : ∀ x, pcb.toNat ≤ x → x < pcb.toNat + 52 → m x = σ'.sched.mem x)
include hstart hsize hfit hheap hcreate hpcb hqueue hmem hrun harg hagree

end Start

end OsKernel
