import Mathlib.Data.Finset.Max
import Mathlib.Data.Fintype.Basic

/-! # Interrupt controllers

A controller has eight lines; the lower its number, the more urgent a line is.  A line that
is raised and not masked asks the processor for service.  When the processor takes it, the
line is in service until the processor says that it is done, and until then only more urgent
lines get through.

Two controllers make a pair: the second one drives line 2 of the first.  A controller is
programmed byte by byte; after the command that starts it over, the next data bytes are not
masks but the vector offset, the wiring and the mode.
-/
namespace OsKernel

/-! ## The most urgent of some lines -/

section First
variable {α : Type*} [LinearOrder α] {s t : Finset α} {i j : α}

/-- The most urgent line. -/
def first (s : Finset α) : Option α := if h : s.Nonempty then some (s.min' h) else none

/-- All but the most urgent line. -/
def dropFirst (s : Finset α) : Finset α := s.filter fun i => first s ≠ some i

theorem first_eq_some : first s = some i ↔ i ∈ s ∧ ∀ j ∈ s, i ≤ j := by
  unfold first
  split_ifs with hs
  · rw [Option.some_inj]
    constructor
    · rintro rfl
      exact ⟨s.min'_mem hs, fun j hj => s.min'_le j hj⟩
    · rintro ⟨hi, hle⟩
      exact le_antisymm (s.min'_le i hi) (hle _ (s.min'_mem hs))
  · exact iff_of_false (by simp) fun h => hs ⟨i, h.1⟩

theorem mem_dropFirst : j ∈ dropFirst s ↔ j ∈ s ∧ first s ≠ some j := Finset.mem_filter

theorem dropFirst_subset (s : Finset α) : dropFirst s ⊆ s := Finset.filter_subset _ s

/-- A line that is not the most urgent one stays. -/
theorem mem_dropFirst_of_lt (hj : j ∈ s) (hi : i ∈ s) (hlt : i < j) : j ∈ dropFirst s :=
  mem_dropFirst.mpr ⟨hj, fun h => absurd ((first_eq_some.mp h).2 i hi) (not_le.mpr hlt)⟩

end First

/-! ## One controller -/

/-- What the next data byte is. -/
inductive DataByte
  | mask
  | offset
  | wiring
  | mode
  deriving DecidableEq, Repr

/-- A controller. -/
structure Controller where
  next : DataByte
  single : Bool
  needsMode : Bool
  offset : UInt8
  wiring : UInt8
  mode : UInt8
  mask : UInt8
  raised : Finset (Fin 8)
  serving : Finset (Fin 8)
  deriving DecidableEq

namespace Controller

/-- A byte at the command port: start over, or the end of an interrupt.  Commands that turn
the priorities round or select a register change nothing here. -/
def command (c : Controller) (v : UInt8) : Controller :=
  if v &&& 0x10 ≠ 0 then
    { c with
      next := .offset
      single := v &&& 0x02 ≠ 0
      needsMode := v &&& 0x01 ≠ 0
      mode := 0
      mask := 0
      raised := ∅
      serving := ∅ }
  else if v &&& 0x08 ≠ 0 then c
  else if v >>> 5 = 1 then { c with serving := dropFirst c.serving }
  else if v >>> 5 = 3 then { c with serving := c.serving.filter fun i => i.val ≠ (v &&& 7).toNat }
  else c

/-- What follows the wiring. -/
def afterWiring (c : Controller) : DataByte := if c.needsMode then .mode else .mask

/-- A byte at the data port. -/
def data (c : Controller) (v : UInt8) : Controller :=
  match c.next with
  | .mask => { c with mask := v }
  | .offset =>
    { c with offset := v &&& 0xF8, next := if c.single then c.afterWiring else .wiring }
  | .wiring => { c with wiring := v, next := c.afterWiring }
  | .mode => { c with mode := v, next := .mask }

/-- The lines that are not masked. -/
def enabled (c : Controller) : Finset (Fin 8) :=
  Finset.univ.filter fun i => c.mask.toNat.testBit i = false

/-- The line that asks for service, if no line in service is as urgent. -/
def request (c : Controller) : Option (Fin 8) :=
  if c.next = .mask then
    first ((c.raised ∩ c.enabled).filter fun i => ∀ j ∈ c.serving, i < j)
  else none

/-- A line is taken.  In the mode that ends interrupts by itself it is not in service. -/
def serve (c : Controller) (i : Fin 8) : Controller :=
  { c with
    raised := c.raised.erase i
    serving := if c.mode &&& 0x02 ≠ 0 then c.serving else insert i c.serving }

/-- The vector of a line. -/
def vector (c : Controller) (i : Fin 8) : UInt8 := c.offset + UInt8.ofNat i.val

variable {c : Controller} {i j : Fin 8}

theorem mem_enabled : i ∈ c.enabled ↔ c.mask.toNat.testBit i = false := by
  rw [enabled, Finset.mem_filter, and_iff_right (Finset.mem_univ i)]

/-- **Which line asks for service**: the most urgent of those raised and not masked, if it is
more urgent than all that are in service. -/
theorem request_eq_some : c.request = some i ↔ c.next = .mask ∧
    i ∈ c.raised ∧ i ∈ c.enabled ∧ (∀ j ∈ c.serving, i < j) ∧
      ∀ j ∈ c.raised, j ∈ c.enabled → i ≤ j := by
  unfold request
  split_ifs with hnext
  · rw [first_eq_some, and_iff_right hnext]
    simp only [Finset.mem_filter, Finset.mem_inter]
    constructor
    · rintro ⟨⟨⟨hraised, henabled⟩, hserving⟩, hleast⟩
      refine ⟨hraised, henabled, hserving, fun j hj hj' => ?_⟩
      by_contra hlt
      have hurgent : ∀ k ∈ c.serving, j < k := fun k hk =>
        (not_le.mp hlt).trans (hserving k hk)
      exact hlt (hleast j ⟨⟨hj, hj'⟩, hurgent⟩)
    · rintro ⟨hraised, henabled, hserving, hleast⟩
      exact ⟨⟨⟨hraised, henabled⟩, hserving⟩, fun j hj => hleast j hj.1.1 hj.1.2⟩
  · exact iff_of_false (by simp) fun h => hnext h.1

end Controller

/-! ## A pair -/

/-- A controller and the one that drives its line 2. -/
structure Cascade where
  master : Controller
  slave : Controller
  deriving DecidableEq

namespace Cascade

/-- The master with line 2 as the slave drives it. -/
def wired (p : Cascade) : Controller :=
  { p.master with
    raised := if p.slave.request.isSome then insert 2 p.master.raised
      else p.master.raised.erase 2 }

/-- The two know how they are wired. -/
def joined (p : Cascade) : Bool := p.master.wiring &&& 0x04 ≠ 0 ∧ p.slave.wiring &&& 0x07 = 2

/-- The processor takes an interrupt: its vector, and the pair afterwards. -/
def acknowledge (p : Cascade) : Option (UInt8 × Cascade) :=
  match p.wired.request with
  | none => none
  | some i =>
    if i = 2 ∧ p.joined then
      p.slave.request.map fun j => (p.slave.vector j, ⟨p.wired.serve 2, p.slave.serve j⟩)
    else some (p.master.vector i, ⟨p.wired.serve i, p.slave⟩)

/-- The line that asked is quiet again when the processor takes it, and the master answers
with its last vector; it is not in service. -/
def spurious (p : Cascade) : UInt8 × Cascade := (p.master.vector 7, p)

/-- The line of the slave that asked is quiet again when the processor takes it. -/
def spuriousSlave (p : Cascade) : UInt8 × Cascade :=
  (p.slave.vector 7, ⟨p.master.serve 2, p.slave⟩)

/-- A device raises one of the sixteen lines. -/
def raise (p : Cascade) (n : Fin 16) : Cascade :=
  if n.val < 8 then { p with master.raised := insert (Fin.ofNat 8 n) p.master.raised }
  else { p with slave.raised := insert (Fin.ofNat 8 n) p.slave.raised }

/-- A device lowers a line that was not taken yet. -/
def lower (p : Cascade) (n : Fin 16) : Cascade :=
  if n.val < 8 then { p with master.raised := p.master.raised.erase (Fin.ofNat 8 n) }
  else { p with slave.raised := p.slave.raised.erase (Fin.ofNat 8 n) }

/-- The controller of a line. -/
def controllerOf (p : Cascade) (n : Fin 16) : Controller := if n.val < 8 then p.master else p.slave

/-- The lines that are not masked. -/
def enabled (p : Cascade) : Finset (Fin 16) :=
  Finset.univ.filter fun n => Fin.ofNat 8 n ∈ (p.controllerOf n).enabled

/-- The lines that are raised. -/
def raised (p : Cascade) : Finset (Fin 16) :=
  Finset.univ.filter fun n => Fin.ofNat 8 n ∈ (p.controllerOf n).raised

end Cascade
end OsKernel
