import Zrhos.Mmap.Cow

/-! What a task can learn from pages it is given. Faults hand out pages as the allocator
returns them, with whatever they held before. -/
namespace Zrhos.Mmap
open OrderedSet

/-- What happens: the task maps anonymous memory and loads, with the page faults this takes,
and the kernel takes a page for itself, for a page table or for nodes. What it writes there
no load of the run sees. -/
inductive UserOp where
  | mmap (addr sz perm flag : ℕ)
  | load (va : ℕ)
  | own

/-- One step, with the bytes loaded. -/
def userStep (s : Phys) (t : Task) : UserOp → Except Stop (List ℕ × Phys × Task)
  | .mmap addr sz perm flag => do
    let (_, s, t) ← sysMmap s t addr sz perm flag
    return ([], s, t)
  | .load va => do
    let (b, s, t) ← userLoad s t va
    return ([b], s, t)
  | .own => do
    let (_, s) ← memMalloc s
    return ([], s, t)

def userRun : List UserOp → Phys → Task → Except Stop (List ℕ × Phys × Task)
  | [], s, t => .ok ([], s, t)
  | op :: ops, s, t => do
    let (bs, s, t) ← userStep s t op
    let (cs, s, t) ← userRun ops s t
    return (bs ++ cs, s, t)

/-- Permissions carry no frame bits. -/
def CleanOp : UserOp → Prop
  | .mmap _ _ perm _ => PermOk perm
  | _ => True

/-- A load from an absent page is given a page that holds the bytes `mem`, in its list link
too. -/
def FreshAs (mem : ℕ → ℕ → ℕ) (s : Phys) (t : Task) : UserOp → Prop
  | .load va => t.pagetable (vpn va) &&& PTE_V = 0 → ∀ pa s', memMalloc s = .ok (pa, s') →
      ∀ k < PGSIZE, mem pa k = s.mem pa k
  | _ => True

/-- Every step of the run meets the condition in the state it is taken from. -/
def Meets (c : Phys → Task → UserOp → Prop) : List UserOp → Phys → Task → Prop
  | [], _, _ => True
  | op :: ops, s, t => c s t op ∧
      ∀ bs s' t', userStep s t op = .ok (bs, s', t') → Meets c ops s' t'

/-- Two states of the kernel that the task cannot tell apart: `s`, and `s` with the bytes
`mem`. -/
structure Twin (s : Phys) (mem : ℕ → ℕ → ℕ) (t : Task) : Prop where
  frames : FramesOk s
  perms : ∀ n ∈ t.tree, PermOk n.perm
  agree : ∀ v P, UserMaps (t.pagetable v) P → ∀ k < PGSIZE, mem P k = s.mem P k

variable {s s' : Phys} {mem : ℕ → ℕ → ℕ} {t t' : Task} {va : ℕ}

/-! ### The bytes of pages decide nothing -/

/-- The result of an operation with other bytes in memory. -/
def inMem {α : Type} (mem : ℕ → ℕ → ℕ) (x : Except Stop (α × Phys)) : Except Stop (α × Phys) :=
  x.map fun p => (p.1, { p.2 with mem := mem })

theorem memMalloc_inMem : memMalloc { s with mem := mem } = inMem mem (memMalloc s) := by
  unfold memMalloc
  cases s.pages with
  | cons p rest => rfl
  | nil =>
    dsimp only
    split_ifs <;> rfl

theorem userPage_inMem : userPage { s with mem := mem } = inMem mem (userPage s) := by
  unfold userPage
  rw [memMalloc_inMem]
  cases memMalloc s <;> rfl

theorem handlePagefault_inMem {stval scause : ℕ} (h15 : scause ≠ 15) :
    handlePagefault { s with mem := mem } t stval scause =
      (handlePagefault s t stval scause).map fun p => ({ p.1 with mem := mem }, p.2) := by
  have hw (pte : ℕ) : ¬ (PTE_FLAGS pte &&& PTE_W = 0 ∧ accessPerm scause = PERM_W) := fun h =>
    h15 (accessPerm_eq_W.mp h.2)
  unfold handlePagefault
  dsimp only
  cases regionAt t (pgRoundDown stval) with
  | none => rfl
  | some n =>
    dsimp only
    rw [if_neg (hw _), if_neg (hw _)]
    split_ifs
    · rfl
    · rfl
    · rw [userPage_inMem]
      cases userPage s with
      | error e => rfl
      | ok p =>
        obtain ⟨pa, s₁⟩ := p
        change (uvmMap t.pagetable (pgRoundDown stval) pa n.perm false >>= _) =
          (uvmMap t.pagetable (pgRoundDown stval) pa n.perm false >>= _).map _
        cases uvmMap t.pagetable (pgRoundDown stval) pa n.perm false <;> rfl
    · rfl

theorem access_inMem {bits scause fuel : ℕ} (h15 : scause ≠ 15) :
    access bits scause fuel { s with mem := mem } t va =
      (access bits scause fuel s t va).map fun p => (p.1, { p.2.1 with mem := mem }, p.2.2) := by
  induction fuel generalizing s t with
  | zero => rfl
  | succ fuel ih =>
    unfold access
    cases translate t va bits with
    | some pa => rfl
    | none =>
      dsimp only
      rw [handlePagefault_inMem h15]
      cases handlePagefault s t va scause with
      | error e => rfl
      | ok p =>
        obtain ⟨s₁, t₁⟩ := p
        exact ih

/-! ### Pages stay alike -/

theorem Twin.fault {stval : ℕ} (h : Twin s mem t) (hfresh : FreshAs mem s t (.load stval))
    (he : handlePagefault s t stval 13 = .ok (s', t')) : Twin s' mem t' ∧ s'.mem = s.mem := by
  obtain ⟨n, hn, ⟨rfl, rfl, -⟩ | ⟨pa, s₁, hv, hp, rfl, rfl⟩ | ⟨-, -, h15, -⟩⟩ :=
    handlePagefault_cases he
  · exact ⟨h, rfl⟩
  · have ht := (userPage_taken h.frames hp).1
    obtain ⟨s₂, hm, -⟩ := userPage_ok hp
    have hmem : (refCntInc s₁ pa).mem = s.mem := ht.mem_eq
    refine ⟨⟨ht.frames.congr rfl rfl, h.perms, fun v P hmaps k hk => ?_⟩, hmem⟩
    rw [hmem]
    by_cases hvv : v = vpn stval
    · dsimp only at hmaps
      rw [hvv, Function.update_self] at hmaps
      have hnew := userMaps_userPte (h.perms n (regionAt_mem hn)) ht.inUse.aligned
        (ht.inUse.lt_word ht.frames)
      rw [hnew.iff_eq.mp hmaps]
      exact hfresh hv pa s₂ hm k hk
    · dsimp only at hmaps
      rw [Function.update_of_ne hvv] at hmaps
      exact h.agree v P hmaps k hk
  · exact absurd h15 (by decide)

/-- A second fault finds the page there. -/
theorem FreshAs.fault {stval : ℕ} (h : FreshAs mem s t (.load stval))
    (he : handlePagefault s t stval 13 = .ok (s', t')) : FreshAs mem s' t' (.load stval) := by
  obtain ⟨n, hn, ⟨rfl, rfl, -⟩ | ⟨pa, s₁, -, -, -, rfl⟩ | ⟨-, -, h15, -⟩⟩ :=
    handlePagefault_cases he
  · exact h
  · intro hv
    dsimp only at hv
    rw [Function.update_self] at hv
    exact absurd hv (userPte_valid _ _)
  · exact absurd h15 (by decide)

theorem Twin.access {fuel pa : ℕ} (h : Twin s mem t) (hfresh : FreshAs mem s t (.load va))
    (he : Mmap.access 0 13 fuel s t va = .ok (pa, s', t')) :
    Twin s' mem t' ∧ s'.mem = s.mem ∧ UserMaps (t'.pagetable (vpn va)) pa := by
  induction fuel generalizing s t with
  | zero => cases he
  | succ fuel ih =>
    unfold Mmap.access at he
    split at he
    case _ htr =>
      cases he
      exact ⟨h, rfl, (translate_some htr).1⟩
    · obtain ⟨⟨s₁, t₁⟩, hf, he⟩ := bind_ok he
      obtain ⟨h₁, hmem⟩ := h.fault hfresh hf
      obtain ⟨h₂, hmem', hmaps⟩ := ih h₁ (hfresh.fault hf) he
      exact ⟨h₂, hmem'.trans hmem, hmaps⟩

theorem sysMmap_phys {addr sz perm flag r : ℕ}
    (h : sysMmap s t addr sz perm flag = .ok (r, s', t')) :
    s' = s ∧ t'.pagetable = t.pagetable ∧
      (∀ n ∈ t'.tree, n ∈ t.tree ∨ n.perm = perm) ∧
      ∀ mem, sysMmap { s with mem := mem } t addr sz perm flag = .ok (r, { s with mem := mem }, t') := by
  unfold sysMmap mmapByObj at h
  split at h
  · cases h
  case _ hflags =>
    dsimp only at h
    split at h
    · cases h
    case _ tree hins =>
      simp only [Bool.false_eq_true, ↓reduceIte, Except.ok.injEq, Prod.mk.injEq] at h
      obtain ⟨rfl, rfl, rfl⟩ := h
      refine ⟨rfl, rfl, fun n hn => ?_, fun mem => ?_⟩
      · rcases (insert_mem hins n).mp hn with rfl | hn
        · exact Or.inr rfl
        · exact Or.inl hn
      · unfold sysMmap mmapByObj
        rw [if_neg hflags]
        dsimp only
        rw [hins]
        rfl

theorem sysMmap_error {addr sz perm flag : ℕ} {e : Stop}
    (h : sysMmap s t addr sz perm flag = .error e) :
    sysMmap { s with mem := mem } t addr sz perm flag = .error e := by
  cases hr : sysMmap { s with mem := mem } t addr sz perm flag with
  | error e' =>
    unfold sysMmap mmapByObj at h hr
    split at h
    case _ hflags =>
      rw [if_pos hflags] at hr
      exact hr ▸ h
    case _ hflags =>
      rw [if_neg hflags] at hr
      dsimp only at h hr
      split at h
      case _ hins =>
        rw [hins] at hr
        exact hr ▸ h
      · cases h
  | ok r =>
    obtain ⟨r, s₁, t₁⟩ := r
    have := (sysMmap_phys hr).2.2.2 s.mem
    rw [h] at this
    cases this

theorem Twin.mmap {addr sz perm flag r : ℕ} (h : Twin s mem t) (hp : PermOk perm)
    (he : sysMmap s t addr sz perm flag = .ok (r, s', t')) : Twin s' mem t' := by
  obtain ⟨rfl, hpt, htree, -⟩ := sysMmap_phys he
  refine ⟨h.frames, fun n hn => ?_, fun v P hm => ?_⟩
  · rcases htree n hn with hn | hn
    · exact h.perms n hn
    · rwa [hn]
  · rw [hpt] at hm
    exact h.agree v P hm

/-! ### Runs -/

/-- One load in both states. -/
theorem Twin.load (h : Twin s mem t) (hfresh : FreshAs mem s t (.load va)) :
    (∃ e, userLoad s t va = .error e ∧ userLoad { s with mem := mem } t va = .error e) ∨
      ∃ b s' t', userLoad s t va = .ok (b, s', t') ∧
        userLoad { s with mem := mem } t va = .ok (b, { s' with mem := mem }, t') ∧
        Twin s' mem t' := by
  have htwin : Mmap.access 0 13 3 { s with mem := mem } t va =
      (Mmap.access 0 13 3 s t va).map fun p => (p.1, { p.2.1 with mem := mem }, p.2.2) :=
    access_inMem (by decide)
  unfold userLoad
  rw [htwin]
  cases ha : Mmap.access 0 13 3 s t va with
  | error e => exact Or.inl ⟨e, rfl, rfl⟩
  | ok p =>
    obtain ⟨pa, s₁, t₁⟩ := p
    obtain ⟨h₁, -, hmaps⟩ := h.access hfresh ha
    have hbyte := h₁.agree _ _ hmaps (va % PGSIZE) (Nat.mod_lt _ (by decide))
    refine Or.inr ⟨s₁.mem pa (va % PGSIZE), s₁, t₁, rfl, ?_, h₁⟩
    rw [← hbyte]
    rfl

/-- One step in both states. -/
theorem Twin.step {op : UserOp} (h : Twin s mem t) (hop : CleanOp op)
    (hfresh : FreshAs mem s t op) :
    (∃ e, userStep s t op = .error e ∧ userStep { s with mem := mem } t op = .error e) ∨
      ∃ bs s' t', userStep s t op = .ok (bs, s', t') ∧
        userStep { s with mem := mem } t op = .ok (bs, { s' with mem := mem }, t') ∧
        Twin s' mem t' := by
  cases op with
  | mmap addr sz perm flag =>
    dsimp only [userStep]
    cases hm : sysMmap s t addr sz perm flag with
    | error e =>
      rw [sysMmap_error hm]
      exact Or.inl ⟨e, rfl, rfl⟩
    | ok p =>
      obtain ⟨r, s₁, t₁⟩ := p
      have hs := (sysMmap_phys hm).1
      rw [(sysMmap_phys hm).2.2.2 mem]
      refine Or.inr ⟨[], s₁, t₁, rfl, ?_, h.mmap hop hm⟩
      rw [hs]
      rfl
  | load va =>
    dsimp only [userStep]
    rcases h.load hfresh with ⟨e, he, he'⟩ | ⟨b, s₁, t₁, he, he', h₁⟩
    · rw [he, he']
      exact Or.inl ⟨e, rfl, rfl⟩
    · rw [he, he']
      exact Or.inr ⟨[b], s₁, t₁, rfl, rfl, h₁⟩
  | own =>
    have htwin : memMalloc { s with mem := mem } = inMem mem (memMalloc s) := memMalloc_inMem
    dsimp only [userStep]
    rw [htwin]
    cases hm : memMalloc s with
    | error e => exact Or.inl ⟨e, rfl, rfl⟩
    | ok p =>
      obtain ⟨pa, s₁⟩ := p
      have ht := memMalloc_taken h.frames hm
      refine Or.inr ⟨[], s₁, t, rfl, rfl, ht.frames, h.perms, fun v P hmaps => ?_⟩
      rw [ht.mem_eq]
      exact h.agree v P hmaps

/-- A run goes on from where its first step leads. -/
theorem userRun_cons {op : UserOp} {ops : List UserOp} {bs : List ℕ}
    (he : userStep s t op = .ok (bs, s', t')) :
    userRun (op :: ops) s t = (userRun ops s' t').map fun x => (bs ++ x.1, x.2) := by
  rw [userRun, he]
  change (userRun ops s' t' >>= _) = _
  cases userRun ops s' t' with
  | error e => rfl
  | ok x => rfl

theorem Twin.run {ops : List UserOp} (h : Twin s mem t) (hops : ∀ op ∈ ops, CleanOp op)
    (hfresh : Meets (FreshAs mem) ops s t) :
    (∃ e, userRun ops s t = .error e ∧ userRun ops { s with mem := mem } t = .error e) ∨
      ∃ bs s' t', userRun ops s t = .ok (bs, s', t') ∧
        userRun ops { s with mem := mem } t = .ok (bs, { s' with mem := mem }, t') ∧
        Twin s' mem t' := by
  induction ops generalizing s t with
  | nil => exact Or.inr ⟨[], s, t, rfl, rfl, h⟩
  | cons op ops ih =>
    rcases h.step (hops op List.mem_cons_self) hfresh.1 with
      ⟨e, he, he'⟩ | ⟨bs, s₁, t₁, he, he', h₁⟩
    · rw [userRun, userRun, he, he']
      exact Or.inl ⟨e, rfl, rfl⟩
    · rw [userRun_cons he, userRun_cons he']
      rcases ih h₁ (fun op hop => hops op (List.mem_cons_of_mem _ hop))
        (hfresh.2 bs s₁ t₁ he) with ⟨e, hr, hr'⟩ | ⟨cs, s₂, t₂, hr, hr', h₂⟩
      · rw [hr, hr']
        exact Or.inl ⟨e, rfl, rfl⟩
      · rw [hr, hr']
        exact Or.inr ⟨bs ++ cs, s₂, t₂, rfl, rfl, h₂⟩

theorem freshAs_self (op : UserOp) : FreshAs s.mem s t op := by
  cases op with
  | load va => exact fun _ _ _ _ _ _ => rfl
  | mmap addr sz perm flag => trivial
  | own => trivial

/-- What a run keeps, whatever the pages hold. -/
theorem run_perms {ops : List UserOp} {bs : List ℕ} (hf : FramesOk s)
    (hp : ∀ n ∈ t.tree, PermOk n.perm) (hops : ∀ op ∈ ops, CleanOp op)
    (h : userRun ops s t = .ok (bs, s', t')) : FramesOk s' ∧ ∀ n ∈ t'.tree, PermOk n.perm := by
  induction ops generalizing s t bs with
  | nil =>
    cases h
    exact ⟨hf, hp⟩
  | cons op ops ih =>
    unfold userRun at h
    obtain ⟨⟨cs, s₁, t₁⟩, he, h⟩ := bind_ok h
    obtain ⟨⟨ds, s₂, t₂⟩, hr, h⟩ := bind_ok h
    cases h
    have htwin : Twin s s.mem t := ⟨hf, hp, fun _ _ _ _ _ => rfl⟩
    rcases htwin.step (hops op List.mem_cons_self) (freshAs_self op) with
      ⟨e, he', -⟩ | ⟨bs', s₁', t₁', he', -, h₁⟩
    · rw [he] at he'
      cases he'
    · rw [he] at he'
      cases he'
      exact ih h₁.frames h₁.perms (fun op hop => hops op (List.mem_cons_of_mem _ hop)) hr

/-! ### Pages the allocator can hand out -/

/-- What a step keeps of the pages. -/
structure PagesKept (s s' : Phys) : Prop where
  frames : FramesOk s'
  mem_eq : s'.mem = s.mem
  keeps : ∀ q, InUse s q → InUse s' q

theorem Taken.pagesKept {p : ℕ} (h : Taken s s' p) : PagesKept s s' :=
  ⟨h.frames, h.mem_eq, h.keeps⟩

theorem handlePagefault_pagesKept {stval : ℕ} (hf : FramesOk s)
    (h : handlePagefault s t stval 13 = .ok (s', t')) : PagesKept s s' := by
  obtain ⟨n, hn, ⟨rfl, rfl, -⟩ | ⟨pa, s₁, -, hp, rfl, rfl⟩ | ⟨-, -, h15, -⟩⟩ :=
    handlePagefault_cases h
  · exact ⟨hf, rfl, fun q hq => hq⟩
  · have ht := (userPage_taken hf hp).1
    exact ⟨ht.frames.congr rfl rfl, ht.mem_eq, fun q hq => (ht.keeps q hq).congr rfl rfl⟩
  · exact absurd h15 (by decide)

theorem access_pagesKept {fuel pa : ℕ} (hf : FramesOk s)
    (h : Mmap.access 0 13 fuel s t va = .ok (pa, s', t')) : PagesKept s s' := by
  induction fuel generalizing s t with
  | zero => cases h
  | succ fuel ih =>
    unfold Mmap.access at h
    split at h
    · cases h
      exact ⟨hf, rfl, fun q hq => hq⟩
    · obtain ⟨⟨s₁, t₁⟩, hfault, h⟩ := bind_ok h
      have h₁ := handlePagefault_pagesKept hf hfault
      have h₂ := ih h₁.frames h
      exact ⟨h₂.frames, h₂.mem_eq.trans h₁.mem_eq, fun q hq => h₂.keeps q (h₁.keeps q hq)⟩

theorem userStep_pagesKept {op : UserOp} {bs : List ℕ} (hf : FramesOk s)
    (h : userStep s t op = .ok (bs, s', t')) : PagesKept s s' := by
  cases op with
  | mmap addr sz perm flag =>
    obtain ⟨⟨r, s₁, t₁⟩, hm, h⟩ := bind_ok h
    cases h
    obtain rfl := (sysMmap_phys hm).1
    exact ⟨hf, rfl, fun q hq => hq⟩
  | load va =>
    obtain ⟨⟨b, s₁, t₁⟩, hl, h⟩ := bind_ok h
    cases h
    obtain ⟨⟨P, s₂, t₂⟩, ha, hb⟩ := bind_ok hl
    cases hb
    exact access_pagesKept hf ha
  | own =>
    obtain ⟨⟨pa, s₁⟩, hm, h⟩ := bind_ok h
    cases h
    exact (memMalloc_taken hf hm).pagesKept

/-- Where the pages that are free at the start hold the same, so do those a run is given. -/
theorem meets_of_free {ops : List UserOp} (hf : FramesOk s)
    (h : ∀ P, ¬ InUse s P → ∀ k < PGSIZE, mem P k = s.mem P k) :
    Meets (FreshAs mem) ops s t := by
  induction ops generalizing s t with
  | nil => trivial
  | cons op ops ih =>
    refine ⟨?_, fun bs s₁ t₁ he => ?_⟩
    · cases op with
      | load va =>
        intro _ pa s₁ hm k hk
        exact h pa (memMalloc_taken hf hm).free k hk
      | mmap addr sz perm flag => trivial
      | own => trivial
    · have hkept := userStep_pagesKept hf he
      refine ih hkept.frames fun P hP k hk => ?_
      rw [hkept.mem_eq]
      exact h P (fun hu => hP (hkept.keeps P hu)) k hk

/-! ### A fresh page reads as it was left -/

theorem load_mapped {fuel pa P : ℕ} (hm : UserMaps (t.pagetable (vpn va)) pa)
    (he : access 0 13 fuel s t va = .ok (P, s', t')) :
    P = pa ∧ s' = s ∧ translate t' va 0 = some P := by
  induction fuel with
  | zero => cases he
  | succ fuel ih =>
    unfold access at he
    split at he
    case _ htr =>
      cases he
      exact ⟨((translate_some htr).1.iff_eq.mp hm).symm, rfl, htr⟩
    · obtain ⟨⟨s₁, t₁⟩, hf, hrest⟩ := bind_ok he
      obtain ⟨n, hn, ⟨rfl, rfl, -⟩ | ⟨pa, s₁, hv, -⟩ | ⟨-, -, h15, -⟩⟩ := handlePagefault_cases hf
      · exact ih hrest
      · exact absurd hv hm.1
      · exact absurd h15 (by decide)

theorem load_fresh {fuel P : ℕ} (hf : FramesOk s) (hp : ∀ n ∈ t.tree, PermOk n.perm)
    (hv : t.pagetable (vpn va) &&& PTE_V = 0)
    (he : access 0 13 fuel s t va = .ok (P, s', t')) :
    (∃ s₁, memMalloc s = .ok (P, s₁)) ∧ s'.mem = s.mem ∧ translate t' va 0 = some P := by
  induction fuel with
  | zero => cases he
  | succ fuel ih =>
    unfold access at he
    split at he
    case _ htr => exact absurd hv (translate_some htr).1.1
    · obtain ⟨⟨s₂, t₂⟩, hfault, hrest⟩ := bind_ok he
      obtain ⟨n, hn, ⟨rfl, rfl, -⟩ | ⟨pa, s₃, -, hpage, rfl, rfl⟩ | ⟨-, -, h15, -⟩⟩ :=
        handlePagefault_cases hfault
      · exact ih hrest
      · have ht := (userPage_taken hf hpage).1
        obtain ⟨s₄, hm, rfl⟩ := userPage_ok hpage
        have hmaps := userMaps_userPte (hp n (regionAt_mem hn)) ht.inUse.aligned
          (ht.inUse.lt_word ht.frames)
        obtain ⟨rfl, rfl, htr⟩ := load_mapped (by
          dsimp only
          rw [Function.update_self]
          exact hmaps) hrest
        exact ⟨⟨s₄, hm⟩, ht.mem_eq, htr⟩
      · exact absurd h15 (by decide)

/-- All bytes of a page are found in the same frame. -/
theorem translate_page {k bits P : ℕ} (h : translate t va bits = some P) (hk : k < PGSIZE) :
    translate t (pgRoundDown va + k) bits = some P := by
  have hv : vpn (pgRoundDown va + k) = vpn va := by
    simp only [vpn, pgRoundDown, PGSIZE] at *
    omega
  have hc : Canonical (pgRoundDown va + k) ↔ Canonical va := by
    simp only [Canonical, pgRoundDown, PGSIZE] at *
    omega
  unfold translate at h ⊢
  simp only [hv, hc]
  exact h

theorem userLoad_mapped {k P : ℕ} (h : translate t va 0 = some P) (hk : k < PGSIZE) :
    userLoad s t (pgRoundDown va + k) = .ok (s.mem P k, s, t) := by
  have hoff : (pgRoundDown va + k) % PGSIZE = k := by
    simp only [pgRoundDown, PGSIZE] at *
    omega
  unfold userLoad access
  rw [translate_page h hk]
  change Except.ok (s.mem P ((pgRoundDown va + k) % PGSIZE), s, t) = _
  rw [hoff]

/-- Behind a load from an absent page, all bytes of the page are as they were in memory. -/
theorem userLoad_fresh {b : ℕ} (hf : FramesOk s) (hp : ∀ n ∈ t.tree, PermOk n.perm)
    (hv : t.pagetable (vpn va) &&& PTE_V = 0) (he : userLoad s t va = .ok (b, s', t')) :
    ∃ pa s₁, memMalloc s = .ok (pa, s₁) ∧
      ∀ k < PGSIZE, userLoad s' t' (pgRoundDown va + k) = .ok (s.mem pa k, s', t') := by
  obtain ⟨⟨P, s₁, t₁⟩, ha, hb⟩ := bind_ok he
  obtain ⟨⟨s₂, hm⟩, hmem, htr⟩ := load_fresh hf hp hv ha
  cases hb
  refine ⟨P, s₂, hm, fun k hk => ?_⟩
  rw [userLoad_mapped htr hk, hmem]

/-- Every byte of the page of `va` is a zero. -/
def ReadsZero (s : Phys) (t : Task) (va : ℕ) : Prop :=
  ∀ k < PGSIZE, (userLoad s t (pgRoundDown va + k)).map (·.1) = .ok 0

/-- Two runs whose faults are given pages that hold the same return the same bytes, whatever
the pages of others hold. A page that a load brings in reads as zeros where the page that
`mem_malloc` returned held zeros, and only there. -/
theorem fresh_memory_zero (hf : FramesOk s) (hp : ∀ n ∈ t.tree, PermOk n.perm) :
    (∀ mem ops, (∀ v P, UserMaps (t.pagetable v) P → ∀ k < PGSIZE, mem P k = s.mem P k) →
      (∀ op ∈ ops, CleanOp op) → Meets (FreshAs mem) ops s t →
      (userRun ops s t).map (·.1) = (userRun ops { s with mem := mem } t).map (·.1)) ∧
    ∀ ops bs s₁ t₁ va b s₂ t₂, (∀ op ∈ ops, CleanOp op) → userRun ops s t = .ok (bs, s₁, t₁) →
      t₁.pagetable (vpn va) &&& PTE_V = 0 → userLoad s₁ t₁ va = .ok (b, s₂, t₂) →
      (ReadsZero s₂ t₂ va ↔ FreshAs (fun _ _ => 0) s₁ t₁ (.load va)) := by
  refine ⟨fun mem ops hagree hops hfresh => ?_, fun ops bs s₁ t₁ va b s₂ t₂ hops hr hv hl => ?_⟩
  · rcases (Twin.mk hf hp hagree).run hops hfresh with ⟨e, hr, hr'⟩ | ⟨bs, s₁, t₁, hr, hr', -⟩
    · rw [hr, hr']
    · rw [hr, hr']
      rfl
  · obtain ⟨hf₁, hp₁⟩ := run_perms hf hp hops hr
    obtain ⟨pa, s₃, hm, hbytes⟩ := userLoad_fresh hf₁ hp₁ hv hl
    constructor
    · intro hzero _ pa' s' hm' k hk
      cases hm.symm.trans hm'
      have hbyte := hzero k hk
      rw [hbytes k hk] at hbyte
      exact (Except.ok.inj hbyte).symm
    · intro hfresh k hk
      rw [hbytes k hk, ← hfresh hv pa s₃ hm k hk]
      rfl

/-! ### One used page -/

/-- The first eight bytes of each page on the list hold the address of the next one. -/
def Linked (s : Phys) : Prop :=
  ∀ xs p ys, s.pages = xs ++ p :: ys → ∀ i < 8, s.mem p i = ys.headD 0 / 256 ^ i % 256

/-- A machine with one free page, which another task has left full of the byte `b`. The link
that `mem_free` wrote is null. -/
def usedPage (b : ℕ) : Phys :=
  mmapInit (fun p k => if p = 0x80201000 ∧ 8 ≤ k then b else 0) [0x80201000] 0x80202000

def emptyTask : Task := userTask 0x80000000 0x80200000 0

/-- The fault takes the free page, and the kernel then three for its tables. -/
def mapAndLoad : List UserOp :=
  [.mmap 0x10000000 4096 (PERM_R ||| PERM_W) MAP_ANONYMOUS, .load 0x10000008, .own, .own,
    .load 0x10000fff]

theorem usedPage_framesOk (b : ℕ) : FramesOk (usedPage b) := by
  have hmem {p : ℕ} (hp : p ∈ (usedPage b).pages) : p = 0x80201000 := List.mem_singleton.mp hp
  refine ⟨List.pairwise_singleton _ _, fun p hp => ?_, fun p hp => ?_, fun p hp => ?_, ?_, ?_, ?_⟩
  · rw [hmem hp]
    decide
  · rw [hmem hp]
    decide
  · rw [hmem hp]
    change 0x80201000 < 0x80202000
    decide
  · change 0x80202000 % PGSIZE = 0
    decide
  · change 0 < 0x80202000
    decide
  · change 0x80202000 ≤ MEMSTOP
    decide

theorem usedPage_linked (b : ℕ) : Linked (usedPage b) := by
  intro xs p ys h i hi
  have hlen := congrArg List.length h
  rw [List.length_append, List.length_cons] at hlen
  obtain rfl : xs = [] := List.eq_nil_of_length_eq_zero (by
    change 1 = _ at hlen
    omega)
  obtain rfl : ys = [] := (List.cons.inj h).2.symm
  change (if p = 0x80201000 ∧ 8 ≤ i then b else 0) = 0 / 256 ^ i % 256
  rw [if_neg (by omega), Nat.zero_div]

/-- The free page is full of sevens, and what the page below the heap holds changes
nothing. -/
theorem fresh_page_zero :
    (userRun mapAndLoad (usedPage 7) emptyTask).map (·.1) =
      (userRun mapAndLoad { usedPage 7 with
        mem := fun p k => if p = 0x801ff000 then 9 else (usedPage 7).mem p k } emptyTask).map
        (·.1) := by
  refine (fresh_memory_zero (usedPage_framesOk 7) fun n hn => absurd hn List.not_mem_nil).1 _ _
    (fun v P hm k _ => ?_) (fun op hop => ?_) ?_
  · refine if_neg ?_
    rintro rfl
    exact userTask_not_userMaps (by decide) v hm
  · fin_cases hop
    · exact (by decide : (PERM_R ||| PERM_W) % 2 ^ 32 < 2 ^ 10)
    · trivial
    · trivial
    · trivial
    · trivial
  · refine meets_of_free (usedPage_framesOk 7) fun P hP k _ => if_neg ?_
    rintro rfl
    exact hP ⟨by decide, by decide, by decide, by decide⟩

/-- Two states that differ in a page the task does not map, and the bytes it loads. -/
theorem fresh_page_leaks :
    Linked (usedPage 7) ∧ Linked (usedPage 0) ∧
      (∀ v, ¬ UserMaps (emptyTask.pagetable v) 0x80201000) ∧
      (∀ p, p ≠ 0x80201000 → (usedPage 7).mem p = (usedPage 0).mem p) ∧
      (userRun mapAndLoad (usedPage 7) emptyTask).toOption.map (·.1) = some [7, 7] ∧
      (userRun mapAndLoad (usedPage 0) emptyTask).toOption.map (·.1) = some [0, 0] := by
  refine ⟨usedPage_linked 7, usedPage_linked 0, userTask_not_userMaps (by decide), fun p hp => ?_,
    by decide, by decide⟩
  funext k
  exact (if_neg fun h => hp h.1).trans (if_neg fun h => hp h.1).symm

end Zrhos.Mmap
