import OsKernel.PmmAccounting
import Mathlib.Data.Multiset.Range
import Mathlib.Data.Multiset.UnionInter

/-! # No page is handed out twice

The manager does not know who holds a page.  A ledger does: it records, for every
page handed out and not freed since, the client that got it, one entry for every
time the page was handed out.  Clients free only pages the ledger says are theirs
(a stretch may be freed piecemeal), and write only into those.  `LedgerValid` is
the invariant that ties the ledger to the bitmap and to `used_pages`.
-/
namespace OsKernel

variable {Client : Type*} [DecidableEq Client]

/-- The manager, and the pages held by each client. -/
structure Ledger (Client : Type*) where
  phys : PhysState
  owned : Multiset (Client × Paddr)

/-- What a client can do. -/
inductive ClientOp (Client : Type*)
  | alloc (c : Client)
  | allocN (c : Client) (n : UInt64)
  | free (c : Client) (addr : Paddr)
  | freeN (c : Client) (addr : Paddr) (n : UInt64)
  | write (c : Client) (addr : Paddr) (offset : Nat) (byte : UInt8)

/-- The `n` pages from `addr` on, as ledger entries of `c`. -/
def pagesOf (c : Client) (addr : Paddr) (n : Nat) : Multiset (Client × Paddr) :=
  (Multiset.range n).map (fun i => (c, addr + UInt64.ofNat i * pageSize))

/-- The ledger after an allocator returned to `c`. -/
def Ledger.grant (l : Ledger Client) (c : Client) (n : Nat) :
    AllocReturn × PhysState → Ledger Client
  | (.page addr, s') => ⟨s', pagesOf c addr n + l.owned⟩
  | (.failed _, s') => ⟨s', l.owned⟩

/-- One call of one client.  Frees and writes name only pages the client owns. -/
inductive LedgerStep : Ledger Client → ClientOp Client → Ledger Client → Prop
  | alloc (l : Ledger Client) (c : Client) :
      LedgerStep l (.alloc c) (l.grant c 1 (pmmAlloc l.phys))
  | allocN (l : Ledger Client) (c : Client) (n : UInt64) :
      LedgerStep l (.allocN c n) (l.grant c n.toNat (pmmAllocN l.phys n))
  | free (l : Ledger Client) {c : Client} {addr : Paddr} (h : (c, addr) ∈ l.owned) :
      LedgerStep l (.free c addr)
        ⟨{ l.phys with pmm := pmmFree l.phys.pmm addr }, l.owned.erase (c, addr)⟩
  | freeN (l : Ledger Client) {c : Client} {addr : Paddr} {n : UInt64}
      (h : pagesOf c addr n.toNat ≤ l.owned) :
      LedgerStep l (.freeN c addr n)
        ⟨{ l.phys with pmm := pmmFreeN l.phys.pmm addr n }, l.owned - pagesOf c addr n.toNat⟩
  | write (l : Ledger Client) {c : Client} {addr : Paddr} {offset : Nat} {byte : UInt8}
      (h : (c, addr) ∈ l.owned) (hoff : offset < 4096) :
      LedgerStep l (.write c addr offset byte)
        ⟨{ l.phys with mem := Function.update l.phys.mem (addr.toNat + offset) byte }, l.owned⟩

/-- The ledger invariant, for a run that started in `s₀`. -/
structure LedgerValid (s₀ : PhysState) (l : Ledger Client) : Prop where
  unique : (l.owned.map Prod.snd).Nodup
  clear_at_start : ∀ e ∈ l.owned, ∃ p ∈ freeSet s₀.pmm.bitmap, e.2 = pageAddr p
  marked : ∀ p ∈ freeSet l.phys.pmm.bitmap, ∀ e ∈ l.owned, e.2 ≠ pageAddr p
  free_at_start : freeSet l.phys.pmm.bitmap ⊆ freeSet s₀.pmm.bitmap
  count : l.phys.pmm.usedPages = s₀.pmm.usedPages + UInt64.ofNat l.owned.card

variable {s₀ s' : PhysState} {l l' : Ledger Client}

omit [DecidableEq Client] in
theorem pagesOf_pageAddr (c : Client) (p n : Nat) :
    pagesOf c (pageAddr p) n = (Finset.Ico p (p + n)).val.map (fun q => (c, pageAddr q)) := by
  have hIco : (Finset.Ico p (p + n)).val = (Multiset.range n).map (fun i => p + i) := by
    change (↑(List.range' p (p + n - p)) : Multiset Nat) = _
    rw [Nat.add_sub_cancel_left, List.range'_eq_map_range]
    rfl
  rw [pagesOf, hIco, Multiset.map_map]
  exact Multiset.map_congr rfl fun i _ => by rw [pageAddr_add]; rfl

/-! ## What each call preserves -/

omit [DecidableEq Client] in
theorem ledgerValid_initial (s₀ : PhysState) : LedgerValid s₀ (⟨s₀, 0⟩ : Ledger Client) where
  unique := by simp
  clear_at_start := by simp
  marked := by simp
  free_at_start := Finset.Subset.refl _
  count := by simp

omit [DecidableEq Client] in
/-- Handing out free pages. -/
theorem LedgerValid.take (h : LedgerValid s₀ l) {P : Finset Nat} (ht : Taken l.phys P s')
    (c : Client) :
    LedgerValid s₀ (⟨s', P.val.map (fun p => (c, pageAddr p)) + l.owned⟩ : Ledger Client) := by
  have hlt : ∀ p ∈ P, p < pmmMaxPages := fun p hp => freeSet_lt (ht.free hp)
  have hsub : freeSet s'.pmm.bitmap ⊆ freeSet l.phys.pmm.bitmap := by
    rw [ht.freeSet_eq]
    exact Finset.sdiff_subset
  constructor
  · -- the new pages are distinct, and free pages are nobody's
    rw [Multiset.map_add, Multiset.nodup_add, Multiset.map_map]
    refine ⟨?_, h.unique, ?_⟩
    · exact Multiset.Nodup.map_on
        (fun p hp q hq he => pageAddr_inj (hlt p hp) (hlt q hq) he) P.nodup
    · rw [Multiset.disjoint_left]
      intro a ha ha'
      obtain ⟨p, hp, rfl⟩ := Multiset.mem_map.mp ha
      obtain ⟨e, he, heq⟩ := Multiset.mem_map.mp ha'
      exact h.marked p (ht.free hp) e he heq
  · intro e he
    rcases Multiset.mem_add.mp he with he | he
    · obtain ⟨p, hp, rfl⟩ := Multiset.mem_map.mp he
      exact ⟨p, h.free_at_start (ht.free hp), rfl⟩
    · exact h.clear_at_start e he
  · intro p hp e he
    rcases Multiset.mem_add.mp he with he | he
    · obtain ⟨q, hq, rfl⟩ := Multiset.mem_map.mp he
      intro heq
      rw [pageAddr_inj (hlt q hq) (freeSet_lt hp) heq] at hq
      rw [ht.freeSet_eq] at hp
      exact (Finset.mem_sdiff.mp hp).2 hq
    · exact h.marked p (hsub hp) e he
  · exact hsub.trans h.free_at_start
  · rw [ht.usedPages_eq, h.count, Multiset.card_add, Multiset.card_map, Finset.card_val,
      UInt64.ofNat_add]
    grind

omit [DecidableEq Client] in
/-- Giving one page back. -/
theorem LedgerValid.release {s : PhysState} {e : Client × Paddr} {rest : Multiset (Client × Paddr)}
    (h : LedgerValid s₀ ⟨s, e ::ₘ rest⟩) :
    LedgerValid s₀ ⟨{ s with pmm := pmmFree s.pmm e.2 }, rest⟩ := by
  obtain ⟨p, hp, hpe⟩ := h.clear_at_start e (Multiset.mem_cons_self e rest)
  have hlt := freeSet_lt hp
  rcases pmmFree_cases s.pmm e.2 with ⟨-, hfree⟩ | ⟨q, hqe, hrel⟩
  · exact absurd hpe (h.marked p (hfree p hlt hpe) e (Multiset.mem_cons_self e rest))
  have hpq : q = p := pageAddr_inj hrel.lt hlt (hqe.symm.trans hpe)
  subst hpq
  have hunique := h.unique
  rw [Multiset.map_cons, Multiset.nodup_cons] at hunique
  constructor
  · exact hunique.2
  · exact fun e' he' => h.clear_at_start e' (Multiset.mem_cons_of_mem he')
  · intro r hr e' he' heq
    rw [hrel.freeSet_eq] at hr
    rcases Finset.mem_insert.mp hr with rfl | hr
    · exact hunique.1 (Multiset.mem_map.mpr ⟨e', he', heq.trans hpe.symm⟩)
    · exact h.marked r hr e' (Multiset.mem_cons_of_mem he') heq
  · rw [hrel.freeSet_eq]
    exact Finset.insert_subset hp h.free_at_start
  · have hcount := h.count
    rw [Multiset.card_cons, UInt64.ofNat_add] at hcount
    rw [hrel.usedPages_eq, hcount]
    grind

omit [DecidableEq Client] in
/-- Giving a stretch back, one page after the other. -/
theorem LedgerValid.releaseN {s : PhysState} {c : Client} {addr : Paddr} {n : Nat}
    {rest : Multiset (Client × Paddr)} (h : LedgerValid s₀ ⟨s, pagesOf c addr n + rest⟩) :
    LedgerValid s₀ ⟨{ s with pmm := pmmFreeTurns s.pmm addr n }, rest⟩ := by
  induction n generalizing rest with
  | zero => simpa [pagesOf, pmmFreeTurns] using h
  | succ n ih =>
    have hsplit : pagesOf c addr (n + 1) + rest =
        pagesOf c addr n + (c, addr + UInt64.ofNat n * pageSize) ::ₘ rest := by
      rw [pagesOf, Multiset.range_succ, Multiset.map_cons, Multiset.cons_add, Multiset.add_cons]
      rfl
    rw [hsplit] at h
    rw [pmmFreeTurns_succ]
    exact (ih h).release

/-- Every call of every client keeps the ledger valid. -/
theorem LedgerValid.step {op : ClientOp Client} (h : LedgerValid s₀ l)
    (hstep : LedgerStep l op l') : LedgerValid s₀ l' := by
  cases hstep with
  | alloc c =>
    rcases pmmAlloc_outcome l.phys with ⟨why, heq⟩ | ⟨p, s', heq, -, htaken⟩
    · rw [heq]; exact h
    · rw [heq]
      have hvalid := h.take htaken c
      rwa [← Nat.Ico_succ_singleton, ← pagesOf_pageAddr] at hvalid
  | allocN c n =>
    rcases pmmAllocN_outcome l.phys n with ⟨why, heq⟩ | ⟨p, s', heq, -, htaken⟩
    · rw [heq]; exact h
    · rw [heq]
      have hvalid := h.take htaken c
      rwa [← pagesOf_pageAddr] at hvalid
  | @free c addr hmem =>
    have howned : LedgerValid s₀ ⟨l.phys, (c, addr) ::ₘ l.owned.erase (c, addr)⟩ := by
      rw [Multiset.cons_erase hmem]
      exact h
    exact howned.release
  | @freeN c addr n hle =>
    have howned : LedgerValid s₀
        ⟨l.phys, pagesOf c addr n.toNat + (l.owned - pagesOf c addr n.toNat)⟩ := by
      rw [add_tsub_cancel_of_le hle]
      exact h
    exact howned.releaseN
  | write hmem hoff => exact ⟨h.unique, h.clear_at_start, h.marked, h.free_at_start, h.count⟩

theorem run_ledgerValid {ops : List (ClientOp Client)} (hrun : Run LedgerStep ⟨s₀, 0⟩ ops l) :
    LedgerValid s₀ l :=
  hrun.invariant (LedgerValid s₀) (ledgerValid_initial s₀) fun _ _ _ h hs => h.step hs

/-! ## What a client may rely on -/

/-- Byte `x` lies in the page at `addr`. -/
def InPage (addr : Paddr) (x : Nat) : Prop := addr.toNat ≤ x ∧ x < addr.toNat + 4096

omit [DecidableEq Client] in
/-- Two entries of the ledger are disjoint byte ranges. -/
theorem LedgerValid.disjoint (h : LedgerValid s₀ l) :
    l.owned.Pairwise fun e e' =>
      e.2.toNat + 4096 ≤ e'.2.toNat ∨ e'.2.toNat + 4096 ≤ e.2.toNat := by
  obtain ⟨entries, hentries⟩ := Quot.exists_rep l.owned
  refine ⟨entries, hentries.symm, ?_⟩
  have hunique := h.unique
  rw [← hentries] at hunique
  have hne : (entries.map Prod.snd).Pairwise (· ≠ ·) := Multiset.coe_nodup.mp hunique
  refine (List.pairwise_map.mp hne).imp_of_mem fun {e e'} he he' hdiff => ?_
  have hmem : ∀ {e}, e ∈ entries → e ∈ l.owned := fun h => hentries ▸ Multiset.mem_coe.mpr h
  obtain ⟨p, hp, hpe⟩ := h.clear_at_start e (hmem he)
  obtain ⟨q, hq, hqe⟩ := h.clear_at_start e' (hmem he')
  have hpq : p ≠ q := fun hpq => hdiff (by rw [hpe, hqe, hpq])
  rw [hpe, hqe, toNat_pageAddr (freeSet_lt hp).le, toNat_pageAddr (freeSet_lt hq).le]
  omega

omit [DecidableEq Client] in
/-- A page that is about to be handed out holds no byte of an owned page. -/
theorem LedgerValid.not_inPage (h : LedgerValid s₀ l) {P : Finset Nat} (ht : Taken l.phys P s')
    {e : Client × Paddr} (he : e ∈ l.owned) {x : Nat} (hx : InPage e.2 x) : x / 4096 ∉ P := by
  intro hmem
  obtain ⟨p, hp, hpe⟩ := h.clear_at_start e he
  rw [InPage, hpe, toNat_pageAddr (freeSet_lt hp).le] at hx
  have hdiv : x / 4096 = p := by omega
  rw [hdiv] at hmem
  exact h.marked p (ht.free hmem) e he hpe

/-- The client a call is made by, when the call writes to memory on its behalf. -/
def ClientOp.writer : ClientOp Client → Option Client
  | .write c _ _ _ => some c
  | _ => none

/-- Only a client's own writes change the bytes of its pages. -/
theorem LedgerValid.frame (h : LedgerValid s₀ l) {op : ClientOp Client}
    (hstep : LedgerStep l op l') {e : Client × Paddr} (he : e ∈ l.owned)
    (hwriter : op.writer ≠ some e.1) {x : Nat} (hx : InPage e.2 x) :
    l'.phys.mem x = l.phys.mem x := by
  cases hstep with
  | alloc c =>
    rcases pmmAlloc_outcome l.phys with ⟨why, heq⟩ | ⟨p, s', heq, -, htaken⟩
    · rw [heq]; rfl
    · rw [heq]; exact htaken.frame x (h.not_inPage htaken he hx)
  | allocN c n =>
    rcases pmmAllocN_outcome l.phys n with ⟨why, heq⟩ | ⟨p, s', heq, -, htaken⟩
    · rw [heq]; rfl
    · rw [heq]; exact htaken.frame x (h.not_inPage htaken he hx)
  | free _ => rfl
  | freeN _ => rfl
  | @write c addr offset byte hmem hoff =>
    -- the writer's page is another page than `e`'s: one page has one owner
    refine Function.update_of_ne (fun hxeq => hwriter ?_) _ _
    obtain ⟨p, hp, hpe⟩ := h.clear_at_start _ hmem
    obtain ⟨q, hq, hqe⟩ := h.clear_at_start e he
    simp only at hpe
    rw [InPage, hxeq, hpe, hqe, toNat_pageAddr (freeSet_lt hp).le,
      toNat_pageAddr (freeSet_lt hq).le] at hx
    have hpq : p = q := by omega
    have hsame : (c, addr) = e := by
      apply Multiset.inj_on_of_nodup_map h.unique _ hmem _ he
      rw [hqe, ← hpq]
      exact hpe
    rw [← hsame]
    rfl

theorem pmmAlloc_zeroed {s : PhysState} {addr : Paddr} (h : pmmAlloc s = (.page addr, s')) :
    ∀ x, InPage addr x → s'.mem x = 0 := by
  intro x hx
  obtain ⟨p, rfl, htaken⟩ := pmmAlloc_page h
  have hp : p < pmmMaxPages := htaken.page_lt
  rw [InPage, toNat_pageAddr hp.le] at hx
  exact htaken.zeroed x (Finset.mem_singleton.mpr (by omega))

theorem pmmAllocN_zeroed {s : PhysState} {n : UInt64} {addr : Paddr}
    (h : pmmAllocN s n = (.page addr, s')) :
    ∀ x, addr.toNat ≤ x → x < addr.toNat + n.toNat * 4096 → s'.mem x = 0 := by
  intro x h1 h2
  obtain ⟨p, rfl, hp, htaken⟩ := pmmAllocN_page h
  rw [toNat_pageAddr (by omega)] at h1 h2
  exact htaken.zeroed x (Finset.mem_Ico.mpr (by omega))

/-- **No page is handed out twice.**  In every state of every run, the owned pages
are disjoint, aligned, inside the memory and were clear at the start; `used_pages`
has grown by their number; a page an allocator is about to return reads as zeros;
and no call changes a byte of an owned page, its owner's writes apart. -/
theorem pmm_pages_owned_once (s : PhysState) {ops : List (ClientOp Client)} {l : Ledger Client}
    (hrun : Run LedgerStep ⟨s, 0⟩ ops l) :
    (l.owned.Pairwise fun e e' =>
      e.2.toNat + 4096 ≤ e'.2.toNat ∨ e'.2.toNat + 4096 ≤ e.2.toNat) ∧
    (∀ e ∈ l.owned, e.2.toNat % 4096 = 0 ∧ e.2.toNat + 4096 ≤ physMemSize.toNat ∧
      e.2.toNat / 4096 ∈ freeSet s.pmm.bitmap) ∧
    l.phys.pmm.usedPages - s.pmm.usedPages = UInt64.ofNat l.owned.card ∧
    l.owned.card ≤ pmmMaxPages ∧
    (∀ addr s', pmmAlloc l.phys = (.page addr, s') → ∀ x, InPage addr x → s'.mem x = 0) ∧
    (∀ n addr s', pmmAllocN l.phys n = (.page addr, s') →
      ∀ x, addr.toNat ≤ x → x < addr.toNat + n.toNat * 4096 → s'.mem x = 0) ∧
    ∀ op l', LedgerStep l op l' → ∀ e ∈ l.owned, op.writer ≠ some e.1 →
      ∀ x, InPage e.2 x → l'.phys.mem x = l.phys.mem x := by
  have h := run_ledgerValid hrun
  refine ⟨h.disjoint, ?_, ?_, ?_, fun _ _ => pmmAlloc_zeroed, fun _ _ _ => pmmAllocN_zeroed,
    fun op l' hstep e he hw x hx => h.frame hstep he hw hx⟩
  · intro e he
    obtain ⟨p, hp, hpe⟩ := h.clear_at_start e he
    have hlt := freeSet_lt hp
    rw [hpe, toNat_pageAddr hlt.le, mul_page_div, toNat_physMemSize]
    rw [pmmMaxPages_eq] at hlt
    exact ⟨Nat.mul_mod_left p 4096, by omega, hp⟩
  · rw [h.count]
    grind
  · -- the addresses of the ledger are distinct page addresses
    have hsub : (l.owned.map Prod.snd).toFinset ⊆ (Finset.range pmmMaxPages).image pageAddr := by
      intro a ha
      obtain ⟨e, he, rfl⟩ := Multiset.mem_map.mp (Multiset.mem_toFinset.mp ha)
      obtain ⟨p, hp, hpe⟩ := h.clear_at_start e he
      exact Finset.mem_image.mpr ⟨p, Finset.mem_range.mpr (freeSet_lt hp), hpe.symm⟩
    have hcard := (Finset.card_le_card hsub).trans Finset.card_image_le
    rwa [Multiset.toFinset_card_of_nodup h.unique, Multiset.card_map, Finset.card_range] at hcard

/-- Two clients of a fresh manager: one page for client `0`, three for client `1`. -/
theorem pmm_pages_owned_once_fresh :
    let l₀ : Ledger Nat := ⟨⟨freshPmm, fun _ => 0⟩, 0⟩
    let l₁ := l₀.grant 0 1 (pmmAlloc l₀.phys)
    let l₂ := l₁.grant 1 3 (pmmAllocN l₁.phys 3)
    l₂.phys.pmm.usedPages - 0 = UInt64.ofNat l₂.owned.card ∧ l₂.owned.card ≤ pmmMaxPages := by
  intro l₀ l₁ l₂
  have h := pmm_pages_owned_once ⟨freshPmm, fun _ => 0⟩
    ((Run.nil.snoc (LedgerStep.alloc l₀ 0)).snoc (LedgerStep.allocN l₁ 1 3))
  exact ⟨h.2.2.1, h.2.2.2.1⟩

end OsKernel
