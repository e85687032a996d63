import OsKernel.ContextSwitch
import OsKernel.KmallocCanonical

/-! # What a new process finds in its PCB

`kmalloc` hands out memory as it is, and `create_process` stores into seven of the
thirteen fields.  The six general registers keep what the memory held before, and
`context_switch` loads three of them.  Two heaps that differ in free memory only can
therefore give different processes; `pcb_leftover_iff` says exactly when.
-/
namespace OsKernel

/-- A free block that a PCB fits into. -/
def BlockHeader.holdsPcb (b : BlockHeader) : Bool := b.isFree ≠ 0 ∧ pcbSize ≤ b.size

/-- The two PCBs have the same contents, and `context_switch` loads the same registers
from them. -/
def SamePcb (mem mem' : Memory) (pcb pcb' : Ptr) : Prop :=
  (∀ f, pcbGet mem pcb f = pcbGet mem' pcb' f) ∧
  ∀ (cpu cpu' : Cpu) (m m' : Memory), dwordAt m (cpu.esp + 4) = pcb →
    dwordAt m' (cpu'.esp + 4) = pcb' →
    (∀ x, pcb.toNat ≤ x → x < pcb.toNat + 52 → m x = mem x) →
    (∀ x, pcb'.toNat ≤ x → x < pcb'.toNat + 52 → m' x = mem' x) →
    (contextSwitch cpu m).1.ebx = (contextSwitch cpu' m').1.ebx ∧
      (contextSwitch cpu m).1.ecx = (contextSwitch cpu' m').1.ecx ∧
      (contextSwitch cpu m).1.edx = (contextSwitch cpu' m').1.edx ∧
      (contextSwitch cpu m).1.eip = (contextSwitch cpu' m').1.eip

variable {start stop a : Nat} {mem mem' m m' : Memory} {cs : List Chunk} {st : HeapState}
  {pcb : Ptr}

/-! ## The same block list is the same heap -/

/-- A block list determines the chunks. -/
theorem Laid.of_blockList (hstop : stop < 2 ^ 32) (ha : 0 < a) (hl : Laid m stop a cs)
    (hbs : BlockList m' (UInt32.ofNat (linkTo stop a)) (blocksFrom stop a cs)) :
    Laid m' stop a cs := by
  induction cs generalizing a with
  | nil => exact hl
  | cons c cs ih =>
    have halt := hl.addr_lt hstop
    rw [hl.linkTo_cons, blocksFrom] at hbs
    obtain ⟨hhead, hrest⟩ := blockList_cons hbs
    injection hhead with _ hsize hfree hnext
    rw [← hnext] at hrest
    refine ⟨⟨?_, ?_, ?_⟩, ih (by omega) hl.2 hrest⟩
    · have := congrArg UInt32.toNat hsize
      rw [toNat_ptr hl.1.size_lt, blockSize, toNat_ptr halt, toNat_ptr (m'.load_lt a 4)] at this
      exact this.symm
    · have hload : m'.load (a + 4) 1 < 256 := m'.load_lt (a + 4) 1
      have := congrArg UInt8.toNat hfree
      rw [blockIsFree, toNat_ptr halt, UInt8.toNat_ofNat_of_lt' hload] at this
      rw [← this]
      cases c.isFree <;> rfl
    · have := congrArg UInt32.toNat hnext
      rw [toNat_ptr hl.1.next_lt, blockNext, toNat_ptr halt, toNat_ptr (m'.load_lt (a + 8) 4)]
        at this
      exact this.symm

/-- The block that `create_process` takes is the first free one that a PCB fits into. -/
theorem find_holdsPcb (hfit : a + span 12 cs < 2 ^ 32) :
    ((blocksFrom stop a cs).find? BlockHeader.holdsPcb).map BlockHeader.addr =
      (place 12 52 cs).map fun r => UInt32.ofNat (a + r.1) := by
  induction cs generalizing a with
  | nil => rfl
  | cons c cs ih =>
    rw [span_cons] at hfit
    have hholds : ∀ next, (BlockHeader.mk (UInt32.ofNat a) (UInt32.ofNat c.size)
        (if c.isFree then 1 else 0) next).holdsPcb = decide (c.isFree ∧ 52 ≤ c.size) := by
      intro next
      have hsize : pcbSize ≤ UInt32.ofNat c.size ↔ 52 ≤ c.size := by
        rw [UInt32.le_iff_toNat_le, toNat_ptr (by omega)]
        rfl
      simp only [BlockHeader.holdsPcb, hsize]
      cases c.isFree <;> simp
    rw [blocksFrom, List.find?_cons, hholds, place]
    by_cases hc : c.isFree ∧ 52 ≤ c.size
    · rw [dif_pos hc, decide_eq_true hc]
      rfl
    · rw [dif_neg hc, decide_eq_false hc]
      dsimp only
      rw [ih (by omega), Option.map_map]
      congr 1
      funext r
      simp only [Function.comp_apply, Nat.add_assoc]

/-! ## What `kmalloc` leaves in the memory it hands out -/

/-- `kmalloc` does not touch the bytes it returns a pointer to. -/
theorem kmalloc_payload {h : Heap} {size : UInt32} (hret : KmallocReturns h size pcb m)
    (hne : pcb ≠ 0) (hlo : 12 ≤ pcb.toNat) (hhi : pcb.toNat + size.toNat < 2 ^ 32) {x : Nat}
    (h1 : pcb.toNat ≤ x) (h2 : x < pcb.toNat + size.toNat) : m x = h.mem x := by
  obtain ⟨current, hturn⟩ := hret.last_turn
  rw [kmallocTurn] at hturn
  split at hturn
  case isTrue => exact absurd (Prod.mk.inj (Sum.inr.inj hturn)).1.symm hne
  split at hturn
  case isFalse => cases hturn
  obtain ⟨hptr, rfl⟩ := Prod.mk.inj (Sum.inr.inj hturn)
  have hcur : current.toNat + 12 = pcb.toNat := by
    have := congrArg UInt32.toNat hptr
    rw [UInt32.toNat_add, toNat_headerSize] at this
    have := current.toNat_lt
    omega
  have hblock : (current + headerSize + size).toNat = pcb.toNat + size.toNat := by
    rw [hptr, UInt32.toNat_add]
    exact Nat.mod_eq_of_lt hhi
  rw [setIsFree, Memory.store_outside (by omega), splitBlock]
  split
  · simp only [setNext, setSize, setIsFree, hblock]
    iterate 5 rw [Memory.store_outside (by omega)]
  · rfl

/-! ## What is left over -/

theorem byte_eq_of_pcbGet_eq {f : PcbField} {x : Nat} (h : pcbGet m pcb f = pcbGet m' pcb f)
    (h1 : pcb.toNat + f.offset ≤ x) (h2 : x < pcb.toNat + f.offset + 4) : m x = m' x := by
  have hload := congrArg UInt32.toNat h
  rw [pcbGet, pcbGet, toNat_ptr (m.load_lt _ 4), toNat_ptr (m'.load_lt _ 4)] at hload
  exact Memory.byte_eq_of_load_eq hload h1 h2

/-- The general registers are the bytes 8 to 31 of a PCB. -/
theorem exists_register (pid entryPoint : UInt32) {x : Nat} (h1 : pcb.toNat + 8 ≤ x)
    (h2 : x < pcb.toNat + 32) : ∃ f, initialValue pid entryPoint f = none ∧
      pcb.toNat + f.offset ≤ x ∧ x < pcb.toNat + f.offset + 4 := by
  have hcases : x < pcb.toNat + 12 ∨ (pcb.toNat + 12 ≤ x ∧ x < pcb.toNat + 16) ∨
      (pcb.toNat + 16 ≤ x ∧ x < pcb.toNat + 20) ∨ (pcb.toNat + 20 ≤ x ∧ x < pcb.toNat + 24) ∨
      (pcb.toNat + 24 ≤ x ∧ x < pcb.toNat + 28) ∨ pcb.toNat + 28 ≤ x := by omega
  rcases hcases with h | h | h | h | h | h
  · exact ⟨.eax, rfl, h1, h⟩
  · exact ⟨.ebx, rfl, h.1, h.2⟩
  · exact ⟨.ecx, rfl, h.1, h.2⟩
  · exact ⟨.edx, rfl, h.1, h.2⟩
  · exact ⟨.esi, rfl, h.1, h.2⟩
  · exact ⟨.edi, rfl, h, h2⟩

theorem initialValue_none {pid entryPoint : UInt32} {f : PcbField}
    (h : initialValue pid entryPoint f = none) : 8 ≤ f.offset ∧ f.offset + 4 ≤ 32 := by
  cases f <;> first | exact ⟨by decide, by decide⟩ | cases h

/-- **Two new PCBs agree** exactly if the memory they are made in agrees on the general
registers. -/
theorem initPcb_eq_iff (pid entryPoint : UInt32) :
    (∀ f, pcbGet (initPcb m pcb pid entryPoint) pcb f =
        pcbGet (initPcb m' pcb pid entryPoint) pcb f) ↔
      ∀ x, pcb.toNat + 8 ≤ x → x < pcb.toNat + 32 → m x = m' x := by
  simp only [pcbGet_initPcb]
  constructor
  · intro h x h1 h2
    obtain ⟨f, hf, hlo, hhi⟩ := exists_register pid entryPoint h1 h2
    have hfield := h f
    rw [hf] at hfield
    exact byte_eq_of_pcbGet_eq hfield hlo hhi
  · intro h f
    cases hf : initialValue pid entryPoint f with
    | some v => rfl
    | none =>
      have := initialValue_none hf
      exact pcbGet_congr fun x h1 h2 => h x (by omega) (by omega)

/-- PCBs with the same fields are the same to `context_switch`. -/
theorem samePcb_iff (hfit : pcb.toNat + 52 ≤ 2 ^ 32) :
    SamePcb mem mem' pcb pcb ↔ ∀ f, pcbGet mem pcb f = pcbGet mem' pcb f := by
  refine ⟨And.left, fun h => ⟨h, fun cpu cpu' m m' harg harg' hm hm' => ?_⟩⟩
  obtain ⟨heip, hebx, hecx, hedx⟩ := contextSwitch_spec harg hfit
  obtain ⟨heip', hebx', hecx', hedx'⟩ := contextSwitch_spec harg' hfit
  have hfield : ∀ f, pcbGet m pcb f = pcbGet m' pcb f := fun f => by
    rw [pcbGet_eq hm, pcbGet_eq hm', h f]
  exact ⟨by rw [hebx, hebx', hfield], by rw [hecx, hecx', hfield],
    by rw [hedx, hedx', hfield], by rw [heip, heip', hfield]⟩

/-- A heap with another memory but the same block list. -/
theorem HeapValid.of_blockList (hstart : 0 < start) (hstop : stop < 2 ^ 32)
    (h : HeapValid start stop st cs)
    (hbs : BlockList mem st.heap.heapStart (blocksFrom stop start cs)) :
    HeapValid start stop ⟨{ st.heap with mem }, st.live⟩ cs :=
  ⟨h.heapStart, h.laid.of_blockList hstop hstart (h.start_link ▸ hbs), h.nonempty, h.settled,
    h.live⟩

/-- What a `create_process` returned: `NULL` where no block is large enough, or a PCB whose
general registers are the bytes its payload held before. -/
theorem createProcess_payload {pcb pid nextPid entryPoint : UInt32} {mem' : Memory}
    (hstart : 0 < start) (hstop : stop < 2 ^ 32) (h : HeapValid start stop st cs)
    (hcreate : CreateProcess st.heap nextPid entryPoint pcb mem' pid) :
    (place 12 52 cs = none ∧ pcb = 0) ∨
    ∃ o cs' mem, place 12 52 cs = some (o, cs') ∧ pcb.toNat = start + o + 12 ∧ pcb ≠ 0 ∧
      pcb.toNat + 52 ≤ stop ∧ mem' = initPcb mem pcb nextPid entryPoint ∧
      ∀ x, pcb.toNat + 8 ≤ x → x < pcb.toNat + 32 → mem x = st.heap.mem x := by
  rcases createProcess_spec hstart hstop h nextPid entryPoint with
    ⟨hplace, hnull⟩ | ⟨o, cs', pcb', mem, hplace, hptr, hne, hret, hnew, hvalid, -⟩
  · exact Or.inl ⟨hplace, (hcreate.unique hnull).1⟩
  · obtain ⟨rfl, rfl, -⟩ := hcreate.unique hnew
    have hbound : pcb.toNat + 52 ≤ stop := (hvalid.bounds List.mem_cons_self).2
    have hsize : pcbSize.toNat = 52 := rfl
    refine Or.inr ⟨o, cs', mem, hplace, hptr, hne, hbound, rfl, fun x h1 h2 => ?_⟩
    exact kmalloc_payload hret hne (by omega) (by omega) (by omega) (by omega)

/-- **When a new process carries leftover data.**  Two heaps with the same block list give
PCBs with the same contents exactly if their memories agree on the bytes of the general
registers, in the first free block that a PCB fits into. -/
theorem pcb_leftover_iff {start size : UInt32} {m₀ : Memory} {calls : List HeapOp}
    (hstart : 0 < start) (hsize : 12 ≤ size.toNat) (hfit : start.toNat + size.toNat < 2 ^ 32)
    (hheap : Run HeapStep ⟨kmallocInit m₀ start size, []⟩ calls st) {bs : List BlockHeader}
    {mem₂ mem₁' mem₂' : Memory} {nextPid entryPoint pid₁ pid₂ : UInt32} {pcb₁ pcb₂ : Ptr}
    (hbs : BlockList st.heap.mem st.heap.heapStart bs) (hbs₂ : BlockList mem₂ st.heap.heapStart bs)
    (hcreate₁ : CreateProcess st.heap nextPid entryPoint pcb₁ mem₁' pid₁)
    (hcreate₂ : CreateProcess { st.heap with mem := mem₂ } nextPid entryPoint pcb₂ mem₂' pid₂) :
    (pcb₁ = pcb₂ ∧ (pcb₁ ≠ 0 → SamePcb mem₁' mem₂' pcb₁ pcb₂)) ↔
      ∀ b, bs.find? BlockHeader.holdsPcb = some b →
        ∀ x, b.addr.toNat + 20 ≤ x → x < b.addr.toNat + 44 → st.heap.mem x = mem₂ x := by
  have hpos : 0 < start.toNat := UInt32.lt_iff_toNat_lt.mp hstart
  obtain ⟨cs, h⟩ := run_heapValid hstart hsize hfit hheap
  obtain rfl := hbs.unique (h.blockList hpos hfit)
  have h₂ := h.of_blockList hpos hfit hbs₂
  have hend := h.laid.stop_eq
  have hfind := @find_holdsPcb (start.toNat + size.toNat) start.toNat cs (hend ▸ hfit)
  rcases createProcess_payload hpos hfit h hcreate₁ with
    ⟨hplace, rfl⟩ | ⟨o, cs', mem₁, hplace, hptr, hne, hbound, rfl, hleft⟩ <;>
  rcases createProcess_payload hpos hfit h₂ hcreate₂ with
    ⟨hplace₂, rfl⟩ | ⟨o₂, cs₂, mem₂'', hplace₂, hptr₂, -, -, rfl, hleft₂⟩
  · rw [hplace, Option.map_none, Option.map_eq_none_iff] at hfind
    rw [hfind]
    exact ⟨fun _ b hb => absurd hb (by simp), fun _ => ⟨rfl, fun h0 => absurd rfl h0⟩⟩
  · rw [hplace] at hplace₂
    cases hplace₂
  · rw [hplace] at hplace₂
    cases hplace₂
  · rw [hplace] at hplace₂
    obtain ⟨rfl, rfl⟩ := Prod.mk.inj (Option.some.inj hplace₂)
    obtain rfl : pcb₁ = pcb₂ := UInt32.toNat_inj.mp (hptr.trans hptr₂.symm)
    rw [and_iff_right rfl, imp_iff_right hne, samePcb_iff (by omega), initPcb_eq_iff]
    rw [hplace, Option.map_some, Option.map_eq_some_iff] at hfind
    obtain ⟨b, hb, haddr⟩ := hfind
    have haddr : b.addr.toNat + 12 = pcb₁.toNat := by
      rw [haddr, toNat_ptr (by omega), hptr]
    rw [hb]
    constructor
    · rintro hsame b' hb' x h1 h2
      obtain rfl := Option.some.inj hb'
      calc st.heap.mem x = mem₁ x := (hleft x (by omega) (by omega)).symm
        _ = mem₂'' x := hsame x (by omega) (by omega)
        _ = mem₂ x := hleft₂ x (by omega) (by omega)
    · intro hsame x h1 h2
      calc mem₁ x = st.heap.mem x := hleft x h1 h2
        _ = mem₂ x := hsame b rfl x (by omega) (by omega)
        _ = mem₂'' x := (hleft₂ x h1 h2).symm

/-- A process on the heap of `kernel_main`, with `byte` all over its free memory. -/
theorem exists_created (byte : UInt8) : ∃ mem,
    CreateProcess (kmallocInit (fun _ => byte) 0x00200000 0x00100000) 1 0x00100000 0x0020000C
      (initPcb mem 0x0020000C 1 0x00100000) 2 ∧
    BlockList (kmallocInit (fun _ => byte) 0x00200000 0x00100000).mem 0x00200000
      [⟨0x00200000, 0x000FFFF4, 1, 0⟩] ∧
    ∀ x, 0x0020000C ≤ x → x < 0x0020000C + 52 →
      mem x = byte ∧ (kmallocInit (fun _ => byte) 0x00200000 0x00100000).mem x = byte := by
  have hinit := kernelHeap_valid fun _ => byte
  rcases createProcess_spec (by decide) (by decide) hinit 1 0x00100000 with
    ⟨hnone, -⟩ | ⟨o, cs, pcb, mem, hplace, hptr, hne, hret, hcreate, -⟩
  · cases hnone
  · obtain ⟨rfl, -⟩ := Prod.mk.inj (Option.some.inj hplace)
    obtain rfl : pcb = 0x0020000C := UInt32.toNat_inj.mp hptr
    refine ⟨mem, hcreate, hinit.blockList (by decide) (by decide), fun x h1 h2 => ?_⟩
    have hbyte : (kmallocInit (fun _ => byte) 0x00200000 0x00100000).mem x = byte := by
      simp only [kmallocInit, setSize, setIsFree, setNext,
        show (0x00200000 : UInt32).toNat = 0x00200000 from rfl]
      iterate 3 rw [Memory.store_outside (by omega)]
    exact ⟨(kmalloc_payload hret hne (by decide) (by decide) h1 h2).trans hbyte, hbyte⟩

/-- Bytes that an earlier owner left in free memory become registers of the new process. -/
theorem pcb_leftover_differs : ∃ bs mem₁ mem₂,
    BlockList (kmallocInit (fun _ => 0) 0x00200000 0x00100000).mem 0x00200000 bs ∧
    BlockList (kmallocInit (fun _ => 0xFF) 0x00200000 0x00100000).mem 0x00200000 bs ∧
    CreateProcess (kmallocInit (fun _ => 0) 0x00200000 0x00100000) 1 0x00100000 0x0020000C mem₁ 2 ∧
    CreateProcess (kmallocInit (fun _ => 0xFF) 0x00200000 0x00100000) 1 0x00100000 0x0020000C
      mem₂ 2 ∧
    pcbGet mem₁ 0x0020000C .ebx ≠ pcbGet mem₂ 0x0020000C .ebx := by
  obtain ⟨mem₁, hcreate₁, hbs₁, hbyte₁⟩ := exists_created 0
  obtain ⟨mem₂, hcreate₂, hbs₂, hbyte₂⟩ := exists_created 0xFF
  refine ⟨_, _, _, hbs₁, hbs₂, hcreate₁, hcreate₂, fun heq => ?_⟩
  rw [pcbGet_initPcb, pcbGet_initPcb] at heq
  have hx := byte_eq_of_pcbGet_eq heq (Nat.le_refl _) (by omega)
  have h1 := (hbyte₁ 0x00200018 (by decide) (by decide)).1
  have h2 := (hbyte₂ 0x00200018 (by decide) (by decide)).1
  exact absurd (h1.symm.trans (hx.trans h2)) (by decide)

theorem pcb_leftover_iff_bytes : ∃ mem₁ mem₂,
    CreateProcess (kmallocInit (fun _ => 0) 0x00200000 0x00100000) 1 0x00100000 0x0020000C mem₁ 2 ∧
    CreateProcess (kmallocInit (fun _ => 0xFF) 0x00200000 0x00100000) 1 0x00100000 0x0020000C
      mem₂ 2 ∧ ¬ SamePcb mem₁ mem₂ 0x0020000C 0x0020000C := by
  obtain ⟨mem₁, hcreate₁, hbs₁, hbyte₁⟩ := exists_created 0
  obtain ⟨mem₂, hcreate₂, hbs₂, hbyte₂⟩ := exists_created 0xFF
  refine ⟨_, _, hcreate₁, hcreate₂, fun hsame => ?_⟩
  have hagree := (pcb_leftover_iff (by decide) (by decide) (by decide) .nil hbs₁ hbs₂ hcreate₁
    hcreate₂).mp ⟨rfl, fun _ => hsame⟩ _ rfl 0x00200018 (by decide) (by decide)
  have h1 := (hbyte₁ 0x00200018 (by decide) (by decide)).2
  have h2 := (hbyte₂ 0x00200018 (by decide) (by decide)).2
  exact absurd (h1.symm.trans (hagree.trans h2)) (by decide)

end OsKernel
