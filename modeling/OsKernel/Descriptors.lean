import Mathlib.Data.List.Induction
import Mathlib.Tactic.SplitIfs
import OsKernel.ByteMemory
import OsKernel.Runs

/-! # Segment and gate descriptors (`gdt_and_idt/gdt.c`, `idt.c`)

The two tables are bytes: eight for each descriptor, with the fields of the packed structures
at their offsets, little-endian.  `segmentAt` and `gateAt` read the eight bytes the way the
CPU does, which puts the parts of a base, a limit or an address together again.  What is
read is what was set, and a call changes no byte outside its own descriptor.
-/
namespace OsKernel

/-! ## Setting an entry -/

/-- `gdt_set_entry`, on the bytes of `gdt`. -/
def gdtSetEntry (index : Nat) (base limit : UInt32) (access granularity : UInt8)
    (gdt : Memory) : Memory :=
  let e := 8 * index
  -- the base
  let gdt := gdt.store (e + 2) 2 (base &&& 0xFFFF).toUInt16.toNat
  let gdt := gdt.store (e + 4) 1 ((base >>> 16) &&& 0xFF).toUInt8.toNat
  let gdt := gdt.store (e + 7) 1 ((base >>> 24) &&& 0xFF).toUInt8.toNat
  -- the limit, with the flags above its highest bits
  let gdt := gdt.store e 2 (limit &&& 0xFFFF).toUInt16.toNat
  let gdt := gdt.store (e + 6) 1 ((limit >>> 16) &&& 0x0F).toUInt8.toNat
  let gdt := gdt.store (e + 6) 1 (gdt (e + 6) ||| (granularity &&& 0xF0)).toNat
  gdt.store (e + 5) 1 access.toNat

/-- `idt_set_entry`, on the bytes of `idt`. -/
def idtSetEntry (vector : UInt8) (handler : UInt32) (selector : UInt16) (typeAttr : UInt8)
    (idt : Memory) : Memory :=
  let e := 8 * vector.toNat
  let idt := idt.store e 2 (handler &&& 0xFFFF).toUInt16.toNat
  let idt := idt.store (e + 6) 2 ((handler >>> 16) &&& 0xFFFF).toUInt16.toNat
  let idt := idt.store (e + 2) 2 selector.toNat
  let idt := idt.store (e + 4) 1 0
  idt.store (e + 5) 1 typeAttr.toNat

/-! ## Reading an entry -/

/-- A segment. -/
structure Segment where
  base : Nat
  limit : Nat
  access : Nat
  flags : Nat
  deriving DecidableEq, Repr

/-- A gate. -/
structure Gate where
  handler : Nat
  selector : Nat
  reserved : Nat
  typeAttr : Nat
  deriving DecidableEq, Repr

/-- The segment that the eight bytes of a slot describe. -/
def segmentAt (gdt : Memory) (index : Nat) : Segment where
  base := gdt.load (8 * index + 2) 2 + 2 ^ 16 * gdt.load (8 * index + 4) 1 +
    2 ^ 24 * gdt.load (8 * index + 7) 1
  limit := gdt.load (8 * index) 2 + 2 ^ 16 * (gdt.load (8 * index + 6) 1 % 16)
  access := gdt.load (8 * index + 5) 1
  flags := gdt.load (8 * index + 6) 1 / 16

/-- The gate that the eight bytes of a vector describe. -/
def gateAt (idt : Memory) (vector : Nat) : Gate where
  handler := idt.load (8 * vector) 2 + 2 ^ 16 * idt.load (8 * vector + 6) 2
  selector := idt.load (8 * vector + 2) 2
  reserved := idt.load (8 * vector + 4) 1
  typeAttr := idt.load (8 * vector + 5) 1

variable {m m' : Memory} {i x : Nat} {base limit handler : UInt32} {selector : UInt16}
  {access granularity typeAttr vector : UInt8}

/-- A field of a slot, in two tables with the same bytes there. -/
theorem load_field (h : ∀ x, 8 * i ≤ x → x < 8 * i + 8 → m x = m' x) (k n : Nat)
    (hkn : k + n ≤ 8) : m.load (8 * i + k) n = m'.load (8 * i + k) n :=
  Memory.load_congr fun x h1 h2 => h x (by omega) (by omega)

/-- A slot is its own eight bytes. -/
theorem segmentAt_congr (h : ∀ x, 8 * i ≤ x → x < 8 * i + 8 → m x = m' x) :
    segmentAt m i = segmentAt m' i := by
  have hzero : m.load (8 * i) 2 = m'.load (8 * i) 2 := load_field h 0 2 (by decide)
  rw [segmentAt, segmentAt, hzero, load_field h 2 2 (by decide), load_field h 4 1 (by decide),
    load_field h 5 1 (by decide), load_field h 6 1 (by decide), load_field h 7 1 (by decide)]

theorem gateAt_congr (h : ∀ x, 8 * i ≤ x → x < 8 * i + 8 → m x = m' x) :
    gateAt m i = gateAt m' i := by
  have hzero : m.load (8 * i) 2 = m'.load (8 * i) 2 := load_field h 0 2 (by decide)
  rw [gateAt, gateAt, hzero, load_field h 2 2 (by decide), load_field h 4 1 (by decide),
    load_field h 5 1 (by decide), load_field h 6 2 (by decide)]

/-! ## Bytes and nibbles -/

theorem low16_toNat (w : UInt32) : (w &&& 0xFFFF).toUInt16.toNat = w.toNat % 2 ^ 16 := by
  rw [UInt32.toNat_toUInt16, UInt32.toNat_and]
  change (w.toNat &&& (2 ^ 16 - 1)) % 2 ^ 16 = _
  rw [Nat.and_two_pow_sub_one_eq_mod, Nat.mod_mod]

theorem high16_toNat (w : UInt32) : ((w >>> 16) &&& 0xFFFF).toUInt16.toNat = w.toNat / 2 ^ 16 := by
  have hlt := w.toNat_lt
  rw [low16_toNat, UInt32.toNat_shiftRight, Nat.shiftRight_eq_div_pow]
  exact Nat.mod_eq_of_lt (by change w.toNat / 2 ^ 16 < _; omega)

/-- A byte of a word. -/
theorem byte_toNat (w s : UInt32) (hs : s.toNat < 32) :
    ((w >>> s) &&& 0xFF).toUInt8.toNat = w.toNat / 2 ^ s.toNat % 2 ^ 8 := by
  rw [UInt32.toNat_toUInt8, UInt32.toNat_and, UInt32.toNat_shiftRight, Nat.mod_eq_of_lt hs,
    Nat.shiftRight_eq_div_pow]
  change (w.toNat / 2 ^ s.toNat &&& (2 ^ 8 - 1)) % 2 ^ 8 = _
  rw [Nat.and_two_pow_sub_one_eq_mod, Nat.mod_mod]

/-- The highest bits of a limit. -/
theorem limitHigh_toNat (w : UInt32) :
    ((w >>> 16) &&& 0x0F).toUInt8.toNat = w.toNat / 2 ^ 16 % 2 ^ 4 := by
  rw [UInt32.toNat_toUInt8, UInt32.toNat_and, UInt32.toNat_shiftRight, Nat.shiftRight_eq_div_pow]
  change (w.toNat / 2 ^ 16 &&& (2 ^ 4 - 1)) % 2 ^ 8 = _
  rw [Nat.and_two_pow_sub_one_eq_mod]
  omega

/-- **One byte for two fields**: a nibble below the flags. -/
theorem nibbles_toNat {low flags : UInt8} (hlow : low.toNat < 16) :
    (low ||| (flags &&& 0xF0)).toNat = low.toNat + 16 * (flags.toNat / 16) := by
  have hmask : ∀ n < 256, n &&& 0xF0 = (n / 16) <<< 4 := by decide +kernel
  have hflags : (flags &&& 0xF0).toNat = (flags.toNat / 16) <<< 4 := by
    rw [UInt8.toNat_and]
    exact hmask _ flags.toNat_lt
  rw [UInt8.toNat_or, hflags, Nat.or_comm, ← Nat.shiftLeft_add_eq_or_of_lt hlow,
    Nat.shiftLeft_eq, Nat.add_comm, Nat.mul_comm]

/-! ## What is read is what was set -/

/-- The segment that the arguments of `gdt_set_entry` stand for; the limit has 20 bits. -/
def Segment.ofArgs (base limit : UInt32) (access granularity : UInt8) : Segment :=
  ⟨base.toNat, limit.toNat % 2 ^ 20, access.toNat, granularity.toNat / 16⟩

/-- The gate that the arguments of `idt_set_entry` stand for. -/
def Gate.ofArgs (handler : UInt32) (selector : UInt16) (typeAttr : UInt8) : Gate :=
  ⟨handler.toNat, selector.toNat, 0, typeAttr.toNat⟩

/-- **`gdt_set_entry` stays inside its slot.** -/
theorem gdtSetEntry_outside (h : x < 8 * i ∨ 8 * i + 8 ≤ x) :
    gdtSetEntry i base limit access granularity m x = m x := by
  rw [gdtSetEntry]
  simp (disch := omega) only [Memory.store_outside]

/-- **`idt_set_entry` stays inside its gate.** -/
theorem idtSetEntry_outside (h : x < 8 * vector.toNat ∨ 8 * vector.toNat + 8 ≤ x) :
    idtSetEntry vector handler selector typeAttr m x = m x := by
  rw [idtSetEntry]
  simp (disch := omega) only [Memory.store_outside]

/-- A byte that was written. -/
theorem store_byte (m : Memory) (a : Nat) (b : UInt8) : m.store a 1 b.toNat a = b := by
  rw [Memory.store, Function.update_self, UInt8.ofNat_toNat]

/-- The byte that holds the flags and the highest bits of the limit. -/
theorem gdtSetEntry_granularity :
    (gdtSetEntry i base limit access granularity m).load (8 * i + 6) 1 =
      limit.toNat / 2 ^ 16 % 2 ^ 4 + 16 * (granularity.toNat / 16) := by
  have hlow : ((limit >>> 16) &&& 0x0F).toUInt8.toNat < 16 := by
    rw [limitHigh_toNat]
    exact Nat.mod_lt _ (by decide)
  have hg := granularity.toNat_lt
  rw [gdtSetEntry]
  simp (disch := omega) only [Memory.load_store_disjoint, Memory.load_store, store_byte]
  rw [nibbles_toNat hlow, limitHigh_toNat]
  exact Nat.mod_eq_of_lt (by omega)

/-- **A segment is read as it was set.** -/
theorem segmentAt_gdtSetEntry :
    segmentAt (gdtSetEntry i base limit access granularity m) i =
      .ofArgs base limit access granularity := by
  have hbase := base.toNat_lt
  have haccess := access.toNat_lt
  have hmid : ((base >>> 16) &&& 0xFF).toUInt8.toNat = base.toNat / 2 ^ 16 % 2 ^ 8 :=
    byte_toNat base 16 (by decide)
  have hhigh : ((base >>> 24) &&& 0xFF).toUInt8.toNat = base.toNat / 2 ^ 24 % 2 ^ 8 :=
    byte_toNat base 24 (by decide)
  rw [segmentAt, gdtSetEntry_granularity, Segment.ofArgs, gdtSetEntry]
  simp (disch := omega) only [Memory.load_store_disjoint, Memory.load_store, low16_toNat, hmid,
    hhigh, Segment.mk.injEq]
  omega

/-- **A gate is read as it was set.** -/
theorem gateAt_idtSetEntry :
    gateAt (idtSetEntry vector handler selector typeAttr m) vector.toNat =
      .ofArgs handler selector typeAttr := by
  have hhandler := handler.toNat_lt
  have hselector := selector.toNat_lt
  have htype := typeAttr.toNat_lt
  rw [gateAt, Gate.ofArgs, idtSetEntry]
  simp (disch := omega) only [Memory.load_store_disjoint, Memory.load_store, low16_toNat handler,
    high16_toNat, Gate.mk.injEq]
  omega

/-! ## Calls -/

/-- The bytes of the two tables. -/
structure DescriptorTables where
  gdt : Memory
  idt : Memory

/-- A call that sets a descriptor. -/
inductive DescriptorCall
  | gdt (index : Fin 5) (base limit : UInt32) (access granularity : UInt8)
  | idt (vector : UInt8) (handler : UInt32) (selector : UInt16) (typeAttr : UInt8)
  deriving DecidableEq, Repr

/-- What a call does. -/
def DescriptorCall.run : DescriptorCall → DescriptorTables → DescriptorTables
  | .gdt index base limit access granularity, t =>
    { t with gdt := gdtSetEntry index base limit access granularity t.gdt }
  | .idt vector handler selector typeAttr, t =>
    { t with idt := idtSetEntry vector handler selector typeAttr t.idt }

/-- The tables after some calls. -/
def DescriptorTables.after (t : DescriptorTables) (calls : List DescriptorCall) :
    DescriptorTables := calls.foldl (fun t call => call.run t) t

/-- The segment a call sets in a slot. -/
def DescriptorCall.segment (i : Fin 5) : DescriptorCall → Option Segment
  | .gdt index base limit access granularity =>
    if index = i then some (.ofArgs base limit access granularity) else none
  | .idt _ _ _ _ => none

/-- The gate a call sets for a vector. -/
def DescriptorCall.gate (v : UInt8) : DescriptorCall → Option Gate
  | .gdt _ _ _ _ _ => none
  | .idt vector handler selector typeAttr =>
    if vector = v then some (.ofArgs handler selector typeAttr) else none

/-- The last call that sets something decides. -/
def lastOr {α β : Type*} (f : α → Option β) (calls : List α) (before : β) : β :=
  (calls.filterMap f).getLast?.getD before

theorem lastOr_concat {α β : Type*} (f : α → Option β) (calls : List α) (call : α) (before : β) :
    lastOr f (calls ++ [call]) before = (f call).getD (lastOr f calls before) := by
  rw [lastOr, getLast?_filterMap_concat, Option.getD_or, ← lastOr]

/-- **One call**, seen from one slot. -/
theorem DescriptorCall.segmentAt_run (call : DescriptorCall) (t : DescriptorTables) (i : Fin 5) :
    segmentAt (call.run t).gdt i = (call.segment i).getD (segmentAt t.gdt i) := by
  cases call with
  | idt => rfl
  | gdt index base limit access granularity =>
    rw [DescriptorCall.run, DescriptorCall.segment]
    split_ifs with hi
    · rw [hi]
      exact segmentAt_gdtSetEntry
    · have hne : (index : Nat) ≠ i := fun h => hi (Fin.ext h)
      exact segmentAt_congr fun x h1 h2 => gdtSetEntry_outside (by omega)

/-- **One call**, seen from one gate. -/
theorem DescriptorCall.gateAt_run (call : DescriptorCall) (t : DescriptorTables) (v : UInt8) :
    gateAt (call.run t).idt v.toNat = (call.gate v).getD (gateAt t.idt v.toNat) := by
  cases call with
  | gdt => rfl
  | idt vector handler selector typeAttr =>
    rw [DescriptorCall.run, DescriptorCall.gate]
    split_ifs with hv
    · rw [hv]
      exact gateAt_idtSetEntry
    · have hne : vector.toNat ≠ v.toNat := fun h => hv (UInt8.toNat_inj.mp h)
      exact gateAt_congr fun x h1 h2 => idtSetEntry_outside (by omega)

theorem DescriptorTables.after_concat (t : DescriptorTables) (calls : List DescriptorCall)
    (call : DescriptorCall) : t.after (calls ++ [call]) = call.run (t.after calls) :=
  List.foldl_append

/-- **Any calls**, seen from one slot and one gate. -/
theorem DescriptorTables.at_after (t : DescriptorTables) (calls : List DescriptorCall) (i : Fin 5)
    (v : UInt8) :
    segmentAt (t.after calls).gdt i =
        lastOr (DescriptorCall.segment i) calls (segmentAt t.gdt i) ∧
      gateAt (t.after calls).idt v.toNat =
        lastOr (DescriptorCall.gate v) calls (gateAt t.idt v.toNat) := by
  induction calls using List.reverseRecOn with
  | nil => exact ⟨rfl, rfl⟩
  | append_singleton calls call ih =>
    rw [t.after_concat, lastOr_concat, lastOr_concat, call.segmentAt_run, call.gateAt_run, ih.1,
      ih.2]
    exact ⟨rfl, rfl⟩

/-- **Descriptors decode to what was encoded.**  After `gdt_set_entry` the eight bytes of the
slot are read as the base, the 20 bits of the limit, the access byte and the flags that were
given, and after `idt_set_entry` those of the gate as the handler, the selector and the type,
with a reserved byte of 0.  No other byte changes.  After any calls of the two each slot and
each gate is read as the arguments of the last call for it, or as it was before if there is
none. -/
theorem descriptors_decode (t : DescriptorTables) :
    (∀ (i : Fin 5) (base limit : UInt32) (access granularity : UInt8),
      segmentAt (gdtSetEntry i base limit access granularity t.gdt) i =
          .ofArgs base limit access granularity ∧
        ∀ x, x < 8 * i.val ∨ 8 * i.val + 8 ≤ x →
          gdtSetEntry i base limit access granularity t.gdt x = t.gdt x) ∧
    (∀ (vector : UInt8) (handler : UInt32) (selector : UInt16) (typeAttr : UInt8),
      gateAt (idtSetEntry vector handler selector typeAttr t.idt) vector.toNat =
          .ofArgs handler selector typeAttr ∧
        ∀ x, x < 8 * vector.toNat ∨ 8 * vector.toNat + 8 ≤ x →
          idtSetEntry vector handler selector typeAttr t.idt x = t.idt x) ∧
    ∀ (calls : List DescriptorCall) (i : Fin 5) (v : UInt8),
      segmentAt (t.after calls).gdt i =
          lastOr (DescriptorCall.segment i) calls (segmentAt t.gdt i) ∧
        gateAt (t.after calls).idt v.toNat =
          lastOr (DescriptorCall.gate v) calls (gateAt t.idt v.toNat) :=
  ⟨fun _ _ _ _ _ => ⟨segmentAt_gdtSetEntry, fun _ hx => gdtSetEntry_outside hx⟩,
    fun _ _ _ _ => ⟨gateAt_idtSetEntry, fun _ hx => idtSetEntry_outside hx⟩,
    fun calls i v => t.at_after calls i v⟩

/-- The kernel's code segment, set after another one in the same slot. -/
example : segmentAt ((⟨fun _ => 0xFF, fun _ => 0⟩ : DescriptorTables).after
    [.gdt 1 0x12345678 0x9ABCD 0x92 0x40, .gdt 2 1 2 3 4, .gdt 1 0 0xFFFFF 0x9A 0xC0]).gdt 1 =
      ⟨0, 0xFFFFF, 0x9A, 0xC⟩ := by
  decide

end OsKernel
