import Zrhos.Exec.Plan

/-! The end of a successful `exec`: the pages that the old image gives back, and what is left of
the new one. -/
namespace Zrhos.Exec
open Mmap Overlay

section
variable {κ : Type} (cnt : Counters κ)

/-- The pages that are given back when the addresses `vas` are counted down. -/
def released : List ℕ → κ → List ℕ
  | [], _ => []
  | va :: vas, c => (cnt.dec c va).1.toList ++ released vas (cnt.dec c va).2

/-- The pages that the end of the old image gives back: those of its page table, and those that
lose their counter when `mmap_destroy` counts down the addresses of its regions. -/
def givenBack (a : Alloc κ) (old : Image) : List ℕ :=
  old.tables ++ released cnt (old.tree.flatMap MmapNode.vas) a.counters

end

/-- Nothing that an image needs for the page `v` is given back. -/
def Spared (given : List ℕ) (im : Image) (v : ℕ) : Prop :=
  (∀ p ∈ im.tables, p ∉ given) ∧ PTE2PA (im.pagetable v) ∉ given

instance (given : List ℕ) (im : Image) (v : ℕ) : Decidable (Spared given im v) :=
  inferInstanceAs (Decidable (_ ∧ _))

/-- The task finds `b` at `a`, on a page that is its own, as the page table is, and that it may
read, and write and execute as `flags` say. -/
structure Shows {κ : Type} (k : Kern κ) (im : Image) (flags a b : ℕ) : Prop where
  tables : ∀ p ∈ im.tables, k.alloc.InUse p
  frame : k.alloc.InUse (PTE2PA (im.pagetable (vpn a)))
  user : im.pagetable (vpn a) &&& PTE_V ≠ 0 ∧ im.pagetable (vpn a) &&& PTE_U ≠ 0
  read : im.pagetable (vpn a) &&& PTE_R ≠ 0
  write : im.pagetable (vpn a) &&& PTE_W ≠ 0 ↔ flags &&& ELF_PROG_FLAG_WRITE ≠ 0
  exec : im.pagetable (vpn a) &&& PTE_X ≠ 0 ↔ flags &&& ELF_PROG_FLAG_EXEC ≠ 0
  byte : k.mem (PTE2PA (im.pagetable (vpn a))) (a % PGSIZE) = b

/-- The pages `ps` were freed. -/
structure Freed {κ : Type} (ps : List ℕ) (k k' : Kern κ) : Prop where
  keeps : ∀ q, k.alloc.InUse q → q ∉ ps → k'.alloc.InUse q ∧ k'.mem q = k.mem q
  listed : ∀ q ∈ k.alloc.pages, q ∈ k'.alloc.pages
  frees : ∀ q ∈ ps, q ≠ 0 → q ∈ k'.alloc.pages

variable {κ : Type} {cnt : Counters κ} {a₀ a a' : Alloc κ} {im im' old : Image} {pt₀ : ℕ → ℕ}
  {L : List Page} {mem₀ mem : ℕ → ℕ → ℕ} {s : Phys} {k k' k'' : Kern κ} {p q : ℕ}
  {ps qs vas : List ℕ} {f : File} {argv : List (List ℕ)} {trampoline highLevel : ℕ}
  {tf tf' : Trapframe}

/-! ### Giving back -/

theorem mem_memFree : p ∈ (Mmap.memFree s q).pages → p = q ∨ p ∈ s.pages := by
  unfold Mmap.memFree
  split
  · exact fun h => Or.inl (List.mem_singleton.mp h)
  · have hsplit := List.takeWhile_append_dropWhile (p := fun x => decide (x < q)) (l := s.pages)
    dsimp only
    split_ifs
    · exact Or.inr
    · intro h
      rw [← hsplit, List.mem_append]
      simp only [List.mem_append, List.mem_cons] at h
      tauto
    · exact List.mem_cons.mp

/-- Freeing takes no page off the list and puts the freed one on it. -/
theorem memFree_mem (h : p ∈ s.pages ∨ p = q ∧ q ≠ 0) : p ∈ (Mmap.memFree s q).pages := by
  unfold Mmap.memFree
  split
  case _ hs =>
    rw [hs] at h
    rcases h with h | h
    · cases h
    · exact List.mem_singleton.mpr h.1
  case _ q₀ rest hs =>
    have hsplit := List.takeWhile_append_dropWhile (p := fun x => decide (x < q)) (l := s.pages)
    dsimp only
    split_ifs with hlt heq
    · rcases h with h | ⟨rfl, hp⟩
      · exact h
      · cases hd : s.pages.dropWhile (fun x => decide (x < p)) with
        | nil =>
          rw [hd] at heq
          exact absurd heq.symm hp
        | cons y ys =>
          rw [hd] at heq hsplit
          rw [← hsplit, ← show y = p from heq]
          simp
    · rw [← hsplit, List.mem_append] at h
      simp only [List.mem_append, List.mem_cons]
      tauto
    · exact List.mem_cons.mpr (h.symm.imp_left And.left)

/-- Only free pages are written. -/
theorem memFree_bytes (hne : p ≠ q) (hp : p ∉ s.pages) : (Mmap.memFree s q).mem p = s.mem p := by
  unfold Mmap.memFree
  split
  case _ hs => exact setLink_of_ne hne
  case _ q₀ rest hs =>
    dsimp only
    split_ifs with hlt heq
    · rfl
    · refine (setLink_of_ne hne).trans (setLink_of_ne ?_)
      rintro rfl
      have hxs : s.pages.takeWhile (fun x => decide (x < q)) ≠ [] := by
        rw [hs, List.takeWhile_cons_of_pos (by simpa using hlt)]
        simp
      exact hp ((List.takeWhile_sublist _).subset (LinkedList.lastOr_mem hxs))
    · exact setLink_of_ne hne

theorem Freed.refl : Freed [] k k := ⟨fun _ hq _ => ⟨hq, rfl⟩, fun _ hq => hq, by simp⟩

theorem Freed.trans (h : Freed ps k k') (h' : Freed qs k' k'') : Freed (ps ++ qs) k k'' where
  keeps q hq hout := by
    rw [List.mem_append, not_or] at hout
    obtain ⟨huse, hmem⟩ := h.keeps q hq hout.1
    obtain ⟨huse', hmem'⟩ := h'.keeps q huse hout.2
    exact ⟨huse', hmem'.trans hmem⟩
  listed q hq := h'.listed q (h.listed q hq)
  frees q hq hne := by
    rcases List.mem_append.mp hq with hq | hq
    · exact h'.listed q (h.frees q hq hne)
    · exact h'.frees q hq hne

/-- The number of small blocks and the counters matter to no page. -/
theorem Freed.congr (h : Freed ps k k') (hmem : k''.mem = k'.mem)
    (hpages : k''.alloc.pages = k'.alloc.pages) (htop : k''.alloc.heapTop = k'.alloc.heapTop) :
    Freed ps k k'' where
  keeps q hq hout := ⟨Mmap.InUse.congr (h.keeps q hq hout).1 hpages htop,
    hmem ▸ (h.keeps q hq hout).2⟩
  listed q hq := hpages ▸ h.listed q hq
  frees q hq hne := hpages ▸ h.frees q hq hne

theorem memFree_freed : Freed [p] k (memFree k p) := by
  unfold memFree
  split_ifs with hp
  · refine ⟨fun q hq _ => ⟨hq, rfl⟩, fun q hq => hq, fun q hq _ => ?_⟩
    rwa [List.mem_singleton.mp hq]
  · refine ⟨fun q hq hout => ?_, fun q hq => memFree_mem (Or.inl hq), fun q hq hne => ?_⟩
    · rw [List.mem_singleton] at hout
      refine ⟨⟨hq.aligned, hq.ne_null, hq.below, fun hin => ?_⟩, memFree_bytes hout hq.not_free⟩
      exact (mem_memFree hin).elim hout hq.not_free
    · rw [List.mem_singleton] at hq
      exact memFree_mem (Or.inr ⟨hq, hq ▸ hne⟩)

theorem foldl_memFree_freed : Freed ps k (ps.foldl memFree k) := by
  induction ps generalizing k with
  | nil => exact Freed.refl
  | cons p ps ih => exact memFree_freed.trans ih

theorem memFree_counters : (memFree k p).alloc.counters = k.alloc.counters := by
  unfold memFree
  split_ifs
  · rfl
  · rfl

theorem refCntDec_freed (cnt : Counters κ) (k : Kern κ) (va : ℕ) :
    Freed (cnt.dec k.alloc.counters va).1.toList k (refCntDec cnt k va) ∧
      (refCntDec cnt k va).alloc.counters = (cnt.dec k.alloc.counters va).2 := by
  unfold refCntDec
  rcases cnt.dec k.alloc.counters va with ⟨freed | p, counters⟩
  · exact ⟨Freed.refl.congr rfl rfl rfl, rfl⟩
  · have hstart : Freed [] k { k with alloc := { k.alloc with counters } } :=
      Freed.refl.congr rfl rfl rfl
    have hfreed := hstart.trans (memFree_freed (p := p))
    have hcounters := memFree_counters (k := { k with alloc := { k.alloc with counters } }) (p := p)
    exact ⟨hfreed.congr rfl rfl rfl, hcounters⟩

theorem foldl_memFree_counters : (ps.foldl memFree k).alloc.counters = k.alloc.counters := by
  induction ps generalizing k with
  | nil => rfl
  | cons p ps ih => exact ih.trans memFree_counters

/-- What the counters are after a list of addresses. -/
theorem foldl_refCntDec_freed (cnt : Counters κ) (k : Kern κ) (vas : List ℕ) :
    Freed (released cnt vas k.alloc.counters) k
    (vas.foldl (refCntDec cnt) k) ∧ ∀ vs, released cnt (vas ++ vs) k.alloc.counters =
      released cnt vas k.alloc.counters ++
        released cnt vs (vas.foldl (refCntDec cnt) k).alloc.counters := by
  induction vas generalizing k with
  | nil => exact ⟨Freed.refl, fun vs => rfl⟩
  | cons va vas ih =>
    obtain ⟨hfreed, hcounters⟩ := refCntDec_freed cnt k va
    obtain ⟨hrest, happend⟩ := ih (refCntDec cnt k va)
    rw [hcounters] at hrest happend
    refine ⟨hfreed.trans hrest, fun vs => ?_⟩
    rw [List.cons_append, released, released, happend, List.append_assoc, List.foldl_cons]

theorem mmapDestroy_freed (cnt : Counters κ) (k : Kern κ) (tree : List MmapNode) :
    Freed (released cnt (tree.flatMap MmapNode.vas) k.alloc.counters) k
      (mmapDestroy cnt k tree) := by
  have hregions : Freed (released cnt (tree.flatMap MmapNode.vas) k.alloc.counters) k
      (tree.foldl (mmapFreef cnt) k) := by
    induction tree generalizing k with
    | nil => exact Freed.refl
    | cons n tree ih =>
      obtain ⟨hvas, happend⟩ := foldl_refCntDec_freed cnt k n.vas
      rw [List.flatMap_cons, happend]
      have hnode : Freed (released cnt n.vas k.alloc.counters) k (mmapFreef cnt k n) :=
        hvas.congr rfl rfl rfl
      exact hnode.trans (ih (mmapFreef cnt k n))
  exact hregions.congr rfl rfl rfl

/-- The old image and the pages of the strings. -/
theorem commit_freed : Freed (givenBack cnt a old ++ ps) ⟨mem, a⟩
    (ps.foldl memFree (mmapDestroy cnt (freePagetable ⟨mem, a⟩ old.tables) old.tree)) := by
  have htables : Freed old.tables ⟨mem, a⟩ (freePagetable ⟨mem, a⟩ old.tables) :=
    foldl_memFree_freed
  have hdestroyed := mmapDestroy_freed cnt (freePagetable ⟨mem, a⟩ old.tables) old.tree
  rw [freePagetable, foldl_memFree_counters, ← freePagetable] at hdestroyed
  exact (htables.trans hdestroyed).trans foldl_memFree_freed

/-! ### Taking -/

theorem argPages_spec {n : ℕ} (hok : a.Ok) (h : argPages n a = .ok (ps, a')) :
    Grown a a' ∧ ∀ p ∈ ps, a'.InUse p := by
  induction n generalizing a ps with
  | zero =>
    cases h
    exact ⟨Grown.refl hok, by simp⟩
  | succ n ih =>
    obtain ⟨⟨p, a₁⟩, hp, hrest⟩ := bind_ok h
    obtain ⟨⟨ps, a₂⟩, hps, hend⟩ := bind_ok hrest
    cases hend
    obtain ⟨hg, huse, -⟩ := getpage_spec hok hp
    obtain ⟨hg', huse'⟩ := ih hg.ok hps
    refine ⟨hg.trans hg', fun q hq => ?_⟩
    rcases List.mem_cons.mp hq with rfl | hq
    · exact hg'.keeps _ huse
    · exact huse' q hq

/-- The pages of the strings are taken first. -/
theorem plan_argPages {n trapframe : ℕ} (h : argPages n a = .ok (ps, a')) :
    f.plan cnt trampoline trapframe highLevel n a =
      f.plan cnt trampoline trapframe highLevel 0 a' := by
  unfold File.plan
  rw [h]
  rfl

/-- The strings that `sys_exec` fetched, each in a page of its own. -/
theorem fetchArgs_spec {i : ℕ} (h : fetchArgs argv i k = .ok (true, ps, k')) :
    argPages argv.length k.alloc = .ok (ps, k'.alloc) ∧ i + argv.length < MAXARG ∧
      (∀ arg ∈ argv, arg.length < PGSIZE) ∧ ∀ q ∉ ps, k'.mem q = k.mem q := by
  induction argv generalizing i k ps with
  | nil =>
    unfold fetchArgs at h
    split_ifs at h with hi
    · cases h
    · cases h
      exact ⟨rfl, not_le.mp hi, by simp, fun _ _ => rfl⟩
  | cons arg args ih =>
    unfold fetchArgs at h
    split_ifs at h with hi
    · cases h
    obtain ⟨⟨p, a₁⟩, hp, hrest⟩ := bind_ok h
    dsimp only at hrest
    split_ifs at hrest with hlen
    · cases hrest
    obtain ⟨⟨fetched, ps', k₁⟩, hrec, hend⟩ := bind_ok hrest
    cases hend
    obtain ⟨hpages, hcount, hlens, hmem⟩ := ih hrec
    refine ⟨?_, by rw [List.length_cons]; omega, ?_, fun q hq => ?_⟩
    · rw [List.length_cons, argPages, hp]
      change (argPages args.length a₁ >>= _) = _
      rw [hpages]
      rfl
    · intro b hb
      rcases List.mem_cons.mp hb with rfl | hb
      · exact not_le.mp hlen
      · exact hlens b hb
    · rw [List.mem_cons, not_or] at hq
      exact (hmem q hq.2).trans (writeBytes_of_ne hq.1)

/-! ### The new image -/

/-- The new image before the old one goes: its pages, all bytes when the segments are in low memory,
and what was copied to the stack in any case. -/
structure Made {κ : Type} (f : File) (argv : List (List ℕ)) (k : Kern κ) (ps : List ℕ)
    (a : Alloc κ) (im : Image) (L : List Page) (mem : ℕ → ℕ → ℕ) : Prop where
  paged : ∃ pt₀, Paged pt₀ L im.pagetable
  slots : L.map (fun x => (x.v, x.perm)) = f.slots
  frames : ∀ x ∈ L, a.InUse x.frame ∧ x.frame ∉ ps
  tables : ∀ p ∈ im.tables, a.InUse p ∧ p ∉ ps
  bytes : (∀ ph ∈ f.loads, ph.vaddr + (f.data ph).length ≤ USERRDONLYMAP) →
    ∀ x ∈ L, ∀ off < PGSIZE, mem x.frame off = (layAll (pushes argv (VA_USERSTACK + 2 * PGSIZE) [])
      (layAll (f.loads.map fun ph => (ph.vaddr, f.data ph)) fun _ => none)
        (x.v * PGSIZE + off)).getD (k.mem x.frame off)
  copied : ∀ x ∈ L, ∀ off < PGSIZE, ∀ b, argByte argv (x.v * PGSIZE + off) = some b →
    mem x.frame off = b

/-- What a successful `exec` does before the old image goes. -/
theorem exec_made {k₀ : Kern κ} (hok : k.alloc.Ok) (hargs : ∀ arg ∈ argv, arg.length < PGSIZE)
    (hps : ∀ p ∈ ps, k.alloc.InUse p) (hmem : ∀ q ∉ ps, k.mem q = k₀.mem q)
    (h : exec cnt trampoline k old tf highLevel f argv = .ok (k', im, tf')) :
    ∃ a L mem sp, f.plan cnt trampoline old.trapframe highLevel 0 k.alloc = .ok (a, im) ∧
      Made f argv k₀ ps a im L mem ∧
      k' = mmapDestroy cnt (freePagetable ⟨mem, a⟩ old.tables) old.tree ∧
      sp = stackPointer argv (VA_USERSTACK + 2 * PGSIZE) [] ∧
      tf' = ((((tf.set TF_A1 sp).set TF_A0 argv.length).memset 8).set TF_EPC
        (elfhdr (f.bytes 0 EHSIZE)).entry).set TF_SP sp := by
  unfold exec at h
  split at h
  · cases h
  case _ bs hread =>
    obtain ⟨rfl, -⟩ := readi_some hread
    dsimp only at h
    split_ifs at h with hlen hmagic
    obtain ⟨⟨a₁, im₁⟩, htable, hrest₁⟩ := bind_ok h
    obtain ⟨a₂, hcreate, hrest₂⟩ := bind_ok hrest₁
    obtain ⟨⟨k₁, im₂⟩, hload, hrest₃⟩ := bind_ok hrest₂
    obtain ⟨⟨r, a, im₃⟩, hstack, hrest₄⟩ := bind_ok hrest₃
    dsimp only at hrest₄
    split_ifs at hrest₄ with hr
    obtain ⟨⟨s, sp⟩, hpush, hend⟩ := bind_ok hrest₄
    cases hend
    obtain ⟨hstart, -⟩ := userPagetable_mapped hok htable
    obtain ⟨hplan, L, hL, hslots, hbytes⟩ :=
      File.load_planned k.mem hload (hstart.small hcreate)
    rw [List.nil_append] at hL hbytes
    obtain ⟨P, hP, hslots'⟩ := mmapByObj_mapped hstack hL (by decide) (by decide) (by decide)
    have hempty := @emptyBelow_userTask trampoline highLevel old.trapframe
    have hpushed {mem₀ : ℕ → ℕ → ℕ} {w : ℕ → Option ℕ} (hl : Laid (L ++ P) w mem₀ k₁.mem) :=
      pushStack_laid (s := a.phys k₁.mem) hP.paged hempty hl hargs (by decide)
        (show [].length + MAXARG = MAXARG from rfl) (by decide) hpush
    have hframe (x : Page) (hx : x ∈ L ++ P) : a.InUse x.frame ∧ x.frame ∉ ps :=
      ⟨(hP.frames x hx).1, fun hin => (hP.frames x hx).2 (hps _ hin)⟩
    have hmade : Made f argv k₀ ps a im (L ++ P) s.mem := by
      refine ⟨⟨_, hP.paged⟩, ?_, hframe, fun p hp => ?_, fun hlow x hx off hoff => ?_, ?_⟩
      · rw [List.map_append, hslots, hslots']
        rfl
      · exact ⟨(hP.tables p hp).1, fun hin => (hP.tables p hp).2 (hps _ hin)⟩
      · have hl := (hpushed ((hbytes hempty hlow _ Laid.start).extend hP.paged)).1
        rw [hl.pages x hx off hoff, hmem _ (hframe x hx).2]
        rfl
      · intro x hx off hoff b hb
        rw [(hpushed Laid.start).1.pages x hx off hoff, ← argByte, hb]
        rfl
    refine ⟨a, L ++ P, s.mem, sp, ?_, hmade, rfl, (hpushed Laid.start).2, rfl⟩
    change (userPagetable k.alloc _ _ _ >>= _) = _
    rw [htable]
    change (memMallocSmall a₁ _ >>= _) = _
    rw [hcreate]
    change (mapSegments cnt (f.segments _ _) a₂ im₁ >>= _) = _
    rw [hplan]
    change (mmapByObj cnt k₁.alloc im₂ _ _ _ _ >>= _) = _
    rw [hstack]
    rfl

/-- A successful `sys_exec` builds the image of the plan; then it gives pages back. -/
theorem sysExec_made (hok : k.alloc.Ok)
    (h : sysExec cnt trampoline k old tf highLevel f argv = .ok (0, k', im, tf')) :
    ∃ a L mem ps sp,
      f.plan cnt trampoline old.trapframe highLevel argv.length k.alloc = .ok (a, im) ∧
      Made f argv k ps a im L mem ∧ Freed (givenBack cnt a old ++ ps) ⟨mem, a⟩ k' ∧
      sp = stackPointer argv (VA_USERSTACK + 2 * PGSIZE) [] ∧
      tf' = ((((tf.set TF_A1 sp).set TF_A0 argv.length).memset 8).set TF_EPC
        (elfhdr (f.bytes 0 EHSIZE)).entry).set TF_SP sp := by
  obtain ⟨⟨fetched, ps, k₁⟩, hfetch, hrest⟩ := bind_ok h
  dsimp only at hrest
  split_ifs at hrest with hfetched
  swap
  · cases hrest
  subst hfetched
  obtain ⟨⟨k₂, im₂, tf₂⟩, hexec, hend⟩ := bind_ok hrest
  cases hend
  obtain ⟨hpages, -, hlens, hbytes⟩ := fetchArgs_spec hfetch
  obtain ⟨hg, huse⟩ := argPages_spec hok hpages
  obtain ⟨a, L, mem, sp, hplan, hmade, rfl, hsp, htf⟩ := exec_made hg.ok hlens huse hbytes hexec
  exact ⟨a, L, mem, ps, sp, (plan_argPages hpages).trans hplan, hmade, commit_freed, hsp, htf⟩

/-! ### What is left of the image -/

theorem userPte_grants {pa perm i : ℕ} (hi : i = 1 ∨ i = 2 ∨ i = 3) :
    userPte pa perm &&& 1 <<< i ≠ 0 ↔ perm &&& 1 <<< i ≠ 0 := by
  rw [and_flag_ne_zero, and_flag_ne_zero, userPte]
  have hlow : i < 10 ∧ i < 64 ∧ min i 31 = i := by omega
  have hflags : PTE_U.testBit i = false ∧ PTE_V.testBit i = false := by
    rcases hi with rfl | rfl | rfl
    · decide
    · decide
    · decide
  simp [testBit_PA2PTE_low hlow.1, testBit_sext32, hlow.2.1, hlow.2.2, hflags.1, hflags.2]

/-- Pages of a segment can be read always, written and executed as its flags say. -/
theorem flags2perm_grants (flags : ℕ) : flags2perm flags &&& PTE_R ≠ 0 ∧
    (flags2perm flags &&& PTE_W ≠ 0 ↔ flags &&& ELF_PROG_FLAG_WRITE ≠ 0) ∧
    (flags2perm flags &&& PTE_X ≠ 0 ↔ flags &&& ELF_PROG_FLAG_EXEC ≠ 0) := by
  unfold flags2perm
  split_ifs with hx hw hw
  · exact ⟨by decide, iff_of_true (by decide) hw, iff_of_true (by decide) hx⟩
  · exact ⟨by decide, iff_of_false (by decide) hw, iff_of_true (by decide) hx⟩
  · exact ⟨by decide, iff_of_true (by decide) hw, iff_of_false (by decide) hx⟩
  · exact ⟨by decide, iff_of_false (by decide) hw, iff_of_false (by decide) hx⟩

/-- A page of the image stays the task's own exactly when it is spared. -/
theorem Made.shows_iff {x : Page} {va b flags : ℕ} (h : Made f argv k ps a im L mem)
    (hf : Freed (givenBack cnt a old ++ ps) ⟨mem, a⟩ k') (hx : x ∈ L) (hva : vpn va = x.v)
    (hperm : x.perm = flags2perm flags) :
    Shows k' im flags va b ↔
      Spared (givenBack cnt a old) im x.v ∧ mem x.frame (va % PGSIZE) = b := by
  obtain ⟨pt₀, hb⟩ := h.paged
  have hentry := hb.entry x hx
  obtain ⟨hvalid, huser, hpage⟩ := hb.maps hx
  have hframe : PTE2PA (im.pagetable (vpn va)) = x.frame := by rw [hva, hpage]
  obtain ⟨hread, hwrite, hexec⟩ := flags2perm_grants flags
  -- a page that was in use stays so exactly when it is not given back
  have hstays (p : ℕ) (huse : a.InUse p) (hout : p ∉ ps) :
      (k'.alloc.InUse p ↔ p ∉ givenBack cnt a old) := by
    constructor
    · intro hin hgiven
      exact hin.not_free (hf.frees p (List.mem_append_left _ hgiven) huse.ne_null)
    · intro hspared
      refine (hf.keeps p huse fun hin => ?_).1
      exact (List.mem_append.mp hin).elim hspared hout
  obtain ⟨huse, hout⟩ := h.frames x hx
  constructor
  · intro hs
    have hspared : x.frame ∉ givenBack cnt a old := (hstays _ huse hout).mp (hframe ▸ hs.frame)
    refine ⟨⟨fun p hp => ?_, by rwa [← hva, hframe]⟩, ?_⟩
    · exact (hstays p (h.tables p hp).1 (h.tables p hp).2).mp (hs.tables p hp)
    · have hbyte := hs.byte
      rwa [hframe, (hf.keeps _ huse fun hin =>
        (List.mem_append.mp hin).elim hspared hout).2] at hbyte
  · rintro ⟨⟨htables, hspared⟩, hbyte⟩
    rw [← hva, hframe] at hspared
    have hkeeps := hf.keeps _ huse fun hin => (List.mem_append.mp hin).elim hspared hout
    constructor
    case tables =>
      intro p hp
      exact (hstays p (h.tables p hp).1 (h.tables p hp).2).mpr (htables p hp)
    case frame => exact hframe.symm ▸ hkeeps.1
    case user =>
      rw [hva]
      exact ⟨hvalid, huser⟩
    case read =>
      rw [hva, hentry]
      exact (userPte_grants (Or.inl rfl)).mpr (hperm ▸ hread)
    case write =>
      rw [hva, hentry]
      exact (userPte_grants (Or.inr (Or.inl rfl))).trans (hperm ▸ hwrite)
    case exec =>
      rw [hva, hentry]
      exact (userPte_grants (Or.inr (Or.inr rfl))).trans (hperm ▸ hexec)
    case byte => rwa [hframe, hkeeps.2]

end Zrhos.Exec
