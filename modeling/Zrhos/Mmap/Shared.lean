import Zrhos.Lib.Steps
import Zrhos.Mmap.Cow
import Zrhos.Mmap.Regions

/-! Parent and child behind a fork, on a region that both share. -/
namespace Zrhos.Mmap
open Steps OrderedSet

/-- The two tasks and the history: the byte that either of them stored last at an address,
and for each load the byte stored there last and the byte that it returned. -/
structure Pair where
  phys : Phys
  parent : Task
  child : Task
  last : ℕ → Option ℕ
  loads : List (Option ℕ × ℕ)

inductive Side where
  | parent
  | child
  deriving DecidableEq, Repr

inductive PairAct where
  | store (side : Side) (va b : ℕ)
  | load (side : Side) (va : ℕ)
  deriving DecidableEq, Repr

def PairAct.va : PairAct → ℕ
  | .store _ va _ => va
  | .load _ va => va

def Pair.task (p : Pair) : Side → Task
  | .parent => p.parent
  | .child => p.child

def Pair.setTask (p : Pair) (t : Task) : Side → Pair
  | .parent => { p with parent := t }
  | .child => { p with child := t }

/-- An access with the page faults that it takes. -/
def Pair.step (p : Pair) : PairAct → Option Pair
  | .store side va b =>
    match userStore p.phys (p.task side) va b with
    | .error _ => none
    | .ok (s, t) =>
      some { p.setTask t side with phys := s, last := Function.update p.last va (some b) }
  | .load side va =>
    match userLoad p.phys (p.task side) va with
    | .error _ => none
    | .ok (b, s, t) =>
      some { p.setTask t side with phys := s, loads := p.loads ++ [(p.last va, b)] }

/-- Behind `copy_mmap`. -/
def pairInit (s : Phys) (t nt : Task) : Pair := ⟨s, t, nt, fun _ => none, []⟩

/-- Every load has returned what was stored last, whoever stored it. -/
def Pair.Seen (p : Pair) : Prop := ∀ b b', (some b, b') ∈ p.loads → b' = b

/-- The address belongs to the region. -/
def MmapNode.Owns (n : MmapNode) (t : Task) (va : ℕ) : Prop :=
  regionAt t (pgRoundDown va) = some n ∧ pgRoundDown va ∈ n.vas

def Present (t : Task) (va : ℕ) : Prop := t.pagetable (vpn va) &&& PTE_V ≠ 0

/-- An access to the region, at a page that the parent had when it forked. Permissions
without frame bits keep user pages and page tables apart. -/
def TouchedBefore (t : Task) (n : MmapNode) (_ : Pair) (a : PairAct) : Prop :=
  (∀ m ∈ t.tree, PermOk m.perm) ∧ n.Owns t a.va ∧ Present t a.va

instance (t : Task) (n : MmapNode) (p : Pair) : DecidablePred (TouchedBefore t n p) := by
  intro a
  unfold TouchedBefore MmapNode.Owns Present
  infer_instance

/-- The frame that a fork gives a page of a shared region. -/
def forkFrame (t : Task) (n : MmapNode) (va : ℕ) : ℕ :=
  PTE2PA (userPte (PTE2PA (t.pagetable (vpn va))) n.perm)

/-- Different pages of the region that are present lie in different frames. -/
def FramesApart (t : Task) (n : MmapNode) : Prop :=
  ∀ va va', n.Owns t va → n.Owns t va' → Present t va → Present t va' →
    forkFrame t n va = forkFrame t n va' → vpn va = vpn va'

variable {s s' : Phys} {t t' nt nt' u u' : Task} {n : MmapNode} {p p' : Pair} {a : PairAct}
  {va bits scause pa : ℕ}

/-! ### Accesses to a page that is there -/

/-- An access to a page with the entry that its region asks for changes no table. -/
theorem access_direct (hentry : ∃ q, u.pagetable (vpn va) = userPte q n.perm)
    (hown : regionAt u (pgRoundDown va) = some n) {fuel : ℕ}
    (h : access bits scause fuel s u va = .ok (pa, s', u')) :
    s' = s ∧ u' = u ∧ translate u va bits = some pa := by
  obtain ⟨q, hq⟩ := hentry
  induction fuel with
  | zero => cases h
  | succ fuel ih =>
    unfold access at h
    cases htr : translate u va bits with
    | some pa' =>
      rw [htr] at h
      cases h
      exact ⟨rfl, rfl, rfl⟩
    | none =>
      rw [htr] at h
      obtain ⟨⟨s₁, u₁⟩, hfault, hrest⟩ := bind_ok h
      clear h
      obtain ⟨m, hm, hcases⟩ := handlePagefault_cases hfault
      rw [hown] at hm
      cases hm
      rw [hq] at hcases
      rcases hcases with ⟨rfl, rfl, -⟩ | ⟨_, _, habsent, -⟩ | ⟨-, hclear, -, hperm, -⟩
      · rw [← htr]
        exact ih hrest
      · exact absurd habsent (userPte_valid _ _)
      · apply absurd hclear
        rw [← ne_eq, writable_userPte]
        exact writable_iff.mp hperm

theorem canonical_of_translate (h : translate u va bits = some pa) : Canonical va := by
  unfold translate at h
  dsimp only at h
  split_ifs at h with hc
  exact hc.1

theorem frame_of_translate (h : translate u va bits = some pa) :
    pa = PTE2PA (u.pagetable (vpn va)) := (translate_some h).1.2.2.symm

/-- Two addresses that the hardware accepts and that have one table entry. -/
theorem page_of_vpn {va' : ℕ} (hc : Canonical va) (hc' : Canonical va') (hv : vpn va = vpn va') :
    va / PGSIZE = va' / PGSIZE := by
  simp only [Canonical, vpn, PGSIZE] at *
  omega

/-! ### The fork -/

/-- What the fork has left behind for the region. -/
structure Forked (t t' nt' : Task) (n : MmapNode) : Prop where
  entries : ∀ va, n.Owns t va → Present t va →
    t'.pagetable (vpn va) = userPte (PTE2PA (t.pagetable (vpn va))) n.perm ∧
      nt'.pagetable (vpn va) = userPte (PTE2PA (t.pagetable (vpn va))) n.perm
  regions : ∀ va, n.Owns t va →
    regionAt t' (pgRoundDown va) = some n ∧ regionAt nt' (pgRoundDown va) = some n

theorem Forked.of_copyMmap (hs : Sorted MmapNode.addr t.tree) (hnt : nt.tree = [])
    (hn : n.flag &&& MAP_PRIVATE = 0) (h : copyMmap s t nt = .ok (s', t', nt')) :
    Forked t t' nt' n := by
  obtain ⟨hall, ht, -, -⟩ := copyMmap_ok h
  have hcopied := copyAll_copied hall
  have hperm : copyPerm n = n.perm := by
    unfold copyPerm
    rw [if_neg (not_not.mpr hn)]
  constructor
  case entries =>
    intro va hown hpresent
    have hmem : n ∈ t.tree := regionAt_mem hown.1
    have hpage : (n, pgRoundDown va) ∈ regionPages t.tree := mem_regionPages.mpr ⟨hmem, hown.2⟩
    have hinst := hcopied.installed _ hpage (by rw [vpn_pgRoundDown]; exact hpresent)
    simp only [vpn_pgRoundDown, hperm] at hinst
    exact hinst
  case regions =>
    intro va hown
    have htree : t'.tree = t.tree := by rw [ht]
    have hnew : nt'.tree = t.tree := by
      unfold copyMmap at h
      obtain ⟨⟨s₁, t₁, nt₁⟩, h₁, h₂⟩ := bind_ok h
      cases h₂
      have hall := copyRegions_tree h₁ (by rw [hnt]; exact hs)
      rw [hnt] at hall
      exact hall
    rw [regionAt_congr htree, regionAt_congr hnew]
    exact ⟨hown.1, hown.1⟩

/-! ### Runs -/

/-- The tables are those behind the fork, and the memory holds what was stored last. -/
structure Sharing (t t' nt' : Task) (n : MmapNode) (p : Pair) : Prop where
  parent : p.parent = t'
  child : p.child = nt'
  stored : ∀ va b, p.last va = some b → Canonical va ∧ n.Owns t va ∧ Present t va ∧
    p.phys.mem (forkFrame t n va) (va % PGSIZE) = b
  seen : p.Seen

theorem Sharing.entry (h : Sharing t t' nt' n p) (hf : Forked t t' nt' n) (hown : n.Owns t va)
    (hpresent : Present t va) (side : Side) :
    (p.task side).pagetable (vpn va) = userPte (PTE2PA (t.pagetable (vpn va))) n.perm ∧
      regionAt (p.task side) (pgRoundDown va) = some n := by
  obtain ⟨hparent, hchild⟩ := hf.entries va hown hpresent
  obtain ⟨hregion, hregion'⟩ := hf.regions va hown
  cases side with
  | parent =>
    rw [Pair.task, h.parent]
    exact ⟨hparent, hregion⟩
  | child =>
    rw [Pair.task, h.child]
    exact ⟨hchild, hregion'⟩

/-- Both sides reach the same frame. -/
theorem Sharing.access (h : Sharing t t' nt' n p) (hf : Forked t t' nt' n)
    (hown : n.Owns t va) (hpresent : Present t va) {side : Side} {fuel : ℕ}
    (ha : access bits scause fuel p.phys (p.task side) va = .ok (pa, s', u')) :
    s' = p.phys ∧ p.setTask u' side = p ∧ pa = forkFrame t n va ∧ Canonical va := by
  obtain ⟨hentry, hregion⟩ := h.entry hf hown hpresent side
  obtain ⟨rfl, rfl, htr⟩ := access_direct ⟨_, hentry⟩ hregion ha
  refine ⟨rfl, ?_, ?_, canonical_of_translate htr⟩
  · cases side <;> rfl
  · rw [frame_of_translate htr, hentry]
    rfl

theorem Sharing.store (h : Sharing t t' nt' n p) (hf : Forked t t' nt' n)
    (hapart : FramesApart t n) {side : Side} {b : ℕ} (hown : n.Owns t va)
    (hpresent : Present t va) (hs : p.step (.store side va b) = some p') :
    Sharing t t' nt' n p' := by
  unfold Pair.step at hs
  simp only at hs
  split at hs
  · cases hs
  case _ s₁ u₁ hstore =>
    unfold userStore at hstore
    obtain ⟨⟨pa, s₂, u₂⟩, haccess, hstore⟩ := bind_ok hstore
    obtain ⟨rfl, hset, rfl, hcanonical⟩ := h.access hf hown hpresent haccess
    cases hstore
    cases hs
    rw [hset]
    constructor
    case parent => exact h.parent
    case child => exact h.child
    case stored =>
      intro va' b' hlast
      dsimp only at hlast ⊢
      by_cases hva : va' = va
      · subst hva
        rw [Function.update_self] at hlast
        cases hlast
        refine ⟨hcanonical, hown, hpresent, ?_⟩
        rw [Function.update_self, Function.update_self]
      · rw [Function.update_of_ne hva] at hlast
        obtain ⟨hcanonical', hown', hpresent', hmem⟩ := h.stored va' b' hlast
        refine ⟨hcanonical', hown', hpresent', ?_⟩
        rw [← hmem]
        by_cases hframe : forkFrame t n va' = forkFrame t n va
        · have hpage := page_of_vpn hcanonical' hcanonical
            (hapart va' va hown' hown hpresent' hpresent hframe)
          have hoff : va' % PGSIZE ≠ va % PGSIZE := by
            intro hoff
            apply hva
            rw [← Nat.div_add_mod va' PGSIZE, hpage, hoff, Nat.div_add_mod]
          rw [hframe, Function.update_self, Function.update_of_ne hoff]
        · rw [Function.update_of_ne hframe]
    case seen => exact h.seen

theorem Sharing.load (h : Sharing t t' nt' n p) (hf : Forked t t' nt' n) {side : Side}
    (hown : n.Owns t va) (hpresent : Present t va)
    (hs : p.step (.load side va) = some p') : Sharing t t' nt' n p' := by
  unfold Pair.step at hs
  simp only at hs
  split at hs
  · cases hs
  case _ b s₁ u₁ hload =>
    unfold userLoad at hload
    obtain ⟨⟨pa, s₂, u₂⟩, haccess, hload⟩ := bind_ok hload
    obtain ⟨rfl, hset, rfl, -⟩ := h.access hf hown hpresent haccess
    cases hload
    cases hs
    rw [hset]
    constructor
    case parent => exact h.parent
    case child => exact h.child
    case stored => exact h.stored
    case seen =>
      intro b b' hmem
      rcases List.mem_append.mp hmem with hmem | hmem
      · exact h.seen b b' hmem
      · rw [List.mem_singleton] at hmem
        obtain ⟨hlast, rfl⟩ := Prod.mk.inj hmem
        exact (h.stored va b hlast.symm).2.2.2

/-- An access to the region, whether the page was there at the fork or not. -/
def InRegion (t : Task) (n : MmapNode) (_ : Pair) (a : PairAct) : Prop := n.Owns t a.va

instance (t : Task) (n : MmapNode) (p : Pair) : DecidablePred (InRegion t n p) := by
  intro a
  unfold InRegion MmapNode.Owns
  infer_instance

def onePage : MmapNode := ⟨0x10000000, 4096, 6, 5⟩

theorem framesApart_onePage (t : Task) : FramesApart t onePage := by
  have hpage : ∀ va, onePage.Owns t va → vpn va = vpn 0x10000000 := by
    intro va hown
    have hmem : pgRoundDown va ∈ [0x10000000] := hown.2
    rw [← vpn_pgRoundDown va, List.mem_singleton.mp hmem]
  intro va va' hown hown' _ _ _
  rw [hpage va hown, hpage va' hown']

/-- The first task maps the page, touches it or not and forks. -/
def forkShared (touched : Bool) : Except Stop (Phys × Task × Task) := do
  let (s, t) ← utaskCreate machine.trampoline machine.phys 0
  let (_, s, t) ← sysMmap s t 0x10000000 4096 6 5
  let (s, t) ← if touched then userStore s t 0x10000000 1 else .ok (s, t)
  let (s, nt) ← utaskCreate machine.trampoline s 0
  check (t.tree = [onePage] ∧ nt.tree = [])
  return (s, t, nt)

/-- The child stores a seven, and the parent loads. -/
def sevenActs : List PairAct := [.store .child 0x10000000 7, .load .parent 0x10000000]

/-- The byte that the parent loads. -/
def loadsSeven (meets : Task → MmapNode → Pair → PairAct → Prop)
    [∀ t n p a, Decidable (meets t n p a)] (touched : Bool) (b : ℕ) :
    Except Stop (Phys × Task × Task) := do
  let (s, t, nt) ← forkShared touched
  let (s', t', nt') ← copyMmap s t nt
  check (((after Pair.step (meets t onePage) (pairInit s' t' nt') sevenActs).map Pair.loads) =
    some [(some 7, b)])
  check (t.tree = [onePage] ∧ nt.tree = [])
  return (s, t, nt)

theorem reached_of_loadsSeven {meets : Task → MmapNode → Pair → PairAct → Prop}
    [∀ t n p a, Decidable (meets t n p a)] {touched : Bool} {b : ℕ}
    (h : (loadsSeven meets touched b).toBool = true) : ∃ s t nt s' t' nt' p,
      t.tree = [onePage] ∧ nt.tree = [] ∧ copyMmap s t nt = .ok (s', t', nt') ∧
      Reached Pair.step (meets t onePage) (pairInit s' t' nt') p ∧
      p.loads = [(some 7, b)] := by
  obtain ⟨⟨s, t, nt⟩, h⟩ := ok_of_toBool h
  unfold loadsSeven at h
  obtain ⟨⟨s₀, t₀, nt₀⟩, -, h⟩ := bind_ok h
  obtain ⟨⟨s', t', nt'⟩, hfork, h⟩ := bind_ok h
  obtain ⟨_, hloads, h⟩ := bind_ok h
  obtain ⟨_, htrees, h⟩ := bind_ok h
  cases h
  obtain ⟨p, hafter, hp⟩ := Option.map_eq_some_iff.mp (of_check hloads)
  exact ⟨s, t, nt, s', t', nt', p, (of_check htrees).1, (of_check htrees).2, hfork,
    reached_after hafter, hp⟩

end Zrhos.Mmap
