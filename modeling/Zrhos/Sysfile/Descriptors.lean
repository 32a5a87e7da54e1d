import Zrhos.Sysfile.Sound

/-! The operations on open files, descriptors and tasks. -/
namespace Zrhos.Sysfile
open Turns Tally
open Sync (TaskState)
open Mmap (upTo mem_upTo)

variable {K K' : Kernel} {i t e f fd n : ℕ} {T : Task} {strict : Prop}

/-! ### Files -/

theorem freeFile_spec (hf : freeFile K = some f) : f < NOFILE ∧ (K.file f).ref = 0 := by
  have hp := List.find?_some hf
  exact ⟨List.mem_range.mp (List.mem_of_find?_eq_some hf), by simpa using hp⟩

theorem freeSlot_spec (hf : freeSlot T = some fd) : fd < NOFILE ∧ T.ofile fd = none := by
  have hp := List.find?_some hf
  exact ⟨List.mem_range.mp (List.mem_of_find?_eq_some hf), by simpa using hp⟩

theorem Counted.allocs_pos (h : Counted K) (ha : K.alloc i = some f) : 0 < allocs K f :=
  tally_pos (mem_upTo (h.alloc_lt i f ha).2) ha

/-- Nobody is allocating a file that has a descriptor. -/
theorem Counted.allocs_eq_zero (h : Counted K) (ht : t < NTASK) (hfd : fd < NOFILE)
    (hs : (K.task t).ofile fd = some f) : allocs K f = 0 ∧ 0 < slots K f := by
  have hpos : 0 < slots K f :=
    tally_pos (f := fun x : ℕ × ℕ => (K.task x.1).ofile x.2) (x := (t, fd))
      (Finset.mem_product.mpr ⟨mem_upTo ht, mem_upTo hfd⟩) hs
  refine ⟨tally_eq_zero.mpr fun j _ hj => ?_, hpos⟩
  have := (h.alloc_new j f hj).1
  omega

theorem filesOn_update {F : File} {a d : ℕ} (hf : f < NOFILE)
    (hfile : K'.file = Function.update K.file f F)
    (hallocs : ∀ x, allocs K' x = Function.update (allocs K) f a x) :
    filesOn K' d + (if 0 < (K.file f).ref ∧ (K.file f).ip = some d ∧ allocs K f = 0 then 1 else 0) =
      filesOn K d + if 0 < F.ref ∧ F.ip = some d ∧ a = 0 then 1 else 0 := by
  have hfun : (fun x => (K'.file x, allocs K' x)) =
      Function.update (fun x => (K.file x, allocs K x)) f (F, a) := by
    funext x
    rw [hfile, hallocs]
    by_cases hx : x = f
    · subst hx
      simp
    · simp [hx]
  unfold filesOn
  rw [hfun]
  exact tally_update (p := fun x : File × ℕ => 0 < x.1.ref ∧ x.1.ip = some d ∧ x.2 = 0) (mem_upTo hf)

/-- A step that changes one file, its descriptors and its allocation. -/
theorem FilesOk.changed (h : FilesOk K) (hf : f < NOFILE)
    (hother : ∀ x, x ≠ f → (K'.file x).ref = (K.file x).ref ∧ slots K' x = slots K x ∧
      allocs K' x = allocs K x)
    (hslot : ∀ t fd x, (K'.task t).ofile fd = some x → x ≠ f → (K.task t).ofile fd = some x)
    (halloc : ∀ j x, K'.alloc j = some x → x ≠ f → K.alloc j = some x)
    (href : (K'.file f).ref = slots K' f + allocs K' f)
    (hnew : ∀ j, K'.alloc j = some f →
      j < NTASK ∧ slots K' f = 0 ∧ ∀ k, K'.alloc k = some f → k = j) : FilesOk K' := by
  refine ⟨fun x hx => ?_, fun t fd x hx => ?_, fun j x hx => ?_, fun j x hx => ?_⟩
  · by_cases hxf : x = f
    · subst hxf
      exact href
    · obtain ⟨hr, hs, ha⟩ := hother x hxf
      rw [hr, hs, ha]
      exact h.file_ref x hx
  · by_cases hxf : x = f
    · subst hxf
      exact hf
    · exact h.slot_lt t fd x (hslot t fd x hx hxf)
  · by_cases hxf : x = f
    · subst hxf
      exact ⟨hf, (hnew j hx).1⟩
    · exact h.alloc_lt j x (halloc j x hx hxf)
  · by_cases hxf : x = f
    · subst hxf
      exact (hnew j hx).2
    · obtain ⟨hs, huniq⟩ := h.alloc_new j x (halloc j x hx hxf)
      rw [(hother x hxf).2.1]
      exact ⟨hs, fun k hk => huniq k (halloc k x hk hxf)⟩

/-- A step that changes files, but not which inodes the files in use are on. -/
theorem Counted.withFiles (h : Counted K) (hfiles : FilesOk K') (hkids : KidsOk K')
    (hinode : K'.inode = K.inode) (hhand : K'.hand = K.hand) (hlost : K'.lost = K.lost)
    (htask : ∀ u, (K'.task u).cwd = (K.task u).cwd ∧ (K'.task u).owns = (K.task u).owns)
    (hon : ∀ d, filesOn K' d = filesOn K d) : Counted K' := by
  refine h.moved hfiles hkids fun d => ?_
  have hhands : handsOn K' d = handsOn K d := by simp only [handsOn, hhand]
  simp only [references, hon, cwdsOn_congr htask, hhands, hinode, hlost]

/-- What the allocation of a file by task `i` makes of the number of its allocations. -/
theorem FilesOk.allocs_set (h : FilesOk K) (hi : i < NTASK) {o : Option ℕ}
    (ho : K.alloc i = some f ∧ o = none ∨ K.alloc i = none ∧ o = some f ∧ allocs K f = 0) (x : ℕ) :
    allocs (K.setAlloc i o) x = Function.update (allocs K) f (if o = none then 0 else 1) x := by
  have hset := allocs_setAlloc (K := K) hi (o := o) x
  rcases ho with ⟨ha, rfl⟩ | ⟨ha, rfl, hzero⟩
  · by_cases hx : x = f
    · subst hx
      rw [Function.update_self, if_pos rfl]
      refine tally_eq_zero.mpr fun j _ hj => ?_
      by_cases hji : j = i
      · subst hji
        simp [Kernel.setAlloc] at hj
      · exact hji ((h.alloc_new i x ha).2 j ((Function.update_of_ne hji _ _).symm.trans hj))
    · have hne : ¬ f = x := fun hfx => hx hfx.symm
      simpa [ha, hx, hne] using hset
  · by_cases hx : x = f
    · subst hx
      simpa [ha, hzero] using hset
    · have hne : ¬ f = x := fun hfx => hx hfx.symm
      simpa [ha, hx, hne] using hset

theorem FilesOk.allocs_eq_one (h : FilesOk K) (hi : i < NTASK) (ha : K.alloc i = some f) :
    allocs K f = 1 := by
  have hset := allocs_setAlloc (K := K) hi (o := none) f
  rw [h.allocs_set hi (Or.inl ⟨ha, rfl⟩)] at hset
  simpa [ha] using hset.symm

theorem Counted.filealloc (h : Counted K) (hi : i < NTASK) (hnone : K.alloc i = none)
    (hfree : freeFile K = some f) : Counted ((K.addFileRef f 1).setAlloc i (some f)) := by
  obtain ⟨hf, hzero⟩ := freeFile_spec hfree
  have href := h.file_ref f hf
  have hslots : slots K f = 0 := by omega
  have hnobody : allocs K f = 0 := by omega
  have hallocs (x : ℕ) : allocs ((K.addFileRef f 1).setAlloc i (some f)) x =
      Function.update (allocs K) f 1 x :=
    h.allocs_set hi (Or.inr ⟨hnone, rfl, hnobody⟩) x
  have hown {j : ℕ} (hj : Function.update K.alloc i (some f) j = some f) : j = i := by
    by_contra hji
    rw [Function.update_of_ne hji] at hj
    exact absurd (h.allocs_pos hj) (by omega)
  refine h.withFiles (h.toFilesOk.changed hf (fun x hx => ⟨?_, rfl, ?_⟩) (fun _ _ _ hs _ => hs)
    (fun j x hj hx => ?_) ?_ fun j hj => ⟨?_, hslots, fun k hk => ?_⟩) (h.toKidsOk.congr rfl rfl)
    rfl rfl rfl (fun _ => ⟨rfl, rfl⟩) fun d => ?_
  · exact congrArg File.ref (Function.update_of_ne hx _ _)
  · rw [hallocs, Function.update_of_ne hx]
  · by_cases hji : j = i
    · subst hji
      exact absurd (by simpa [Kernel.setAlloc] using hj) hx.symm
    · exact (Function.update_of_ne hji _ _).symm.trans hj
  · rw [hallocs, Function.update_self]
    change (Function.update K.file f _ f).ref = ((slots K f : ℕ) : ℤ) + _
    rw [Function.update_self, hslots]
    simp [hzero]
  · rw [hown hj]
    exact hi
  · rw [hown hj, hown hk]
  · have hon := filesOn_update (d := d) hf rfl hallocs
    simpa [hzero] using hon

theorem Counted.fileclose (h : Counted K) (hi : i < NTASK) (ha : K.alloc i = some f) :
    Counted ((K.addFileRef f (-1)).setAlloc i none) := by
  have hf := (h.alloc_lt i f ha).1
  have href := h.file_ref f hf
  obtain ⟨hslots, huniq⟩ := h.alloc_new i f ha
  have hone := h.allocs_eq_one hi ha
  have hallocs (x : ℕ) : allocs ((K.addFileRef f (-1)).setAlloc i none) x =
      Function.update (allocs K) f 0 x :=
    h.allocs_set hi (Or.inl ⟨ha, rfl⟩) x
  have hkept {j x : ℕ} (hj : Function.update K.alloc i none j = some x) : K.alloc j = some x := by
    by_cases hji : j = i
    · subst hji
      simp at hj
    · rwa [Function.update_of_ne hji] at hj
  refine h.withFiles (h.toFilesOk.changed hf (fun x hx => ⟨?_, rfl, ?_⟩) (fun _ _ _ hs _ => hs)
    (fun j x hj _ => hkept hj) ?_ fun j hj => ?_) (h.toKidsOk.congr rfl rfl)
    rfl rfl rfl (fun _ => ⟨rfl, rfl⟩) fun d => ?_
  · exact congrArg File.ref (Function.update_of_ne hx _ _)
  · rw [hallocs, Function.update_of_ne hx]
  · rw [hallocs, Function.update_self]
    change (Function.update K.file f _ f).ref = ((slots K f : ℕ) : ℤ) + _
    rw [Function.update_self, hslots]
    dsimp only
    omega
  · have hji := huniq j (hkept hj)
    subst hji
    simp [Kernel.setAlloc] at hj
  · have hon := filesOn_update (d := d) hf rfl hallocs
    have hgone : (K.file f).ref = 1 := by omega
    simpa [hone, hgone] using hon

/-! ### Descriptors -/

/-- A step that changes one task. If nobody keeps its lock, a dead task has nothing left. -/
theorem KidsOk.setTask (h : KidsOk K)
    (hT : Unlocked K t → (T.state = .DEAD → T.cwd = none ∧ ∀ fd < NOFILE, T.ofile fd = none) ∧
      (T.owns = false → T.state = .RUNNABLE)) : KidsOk (K.setTask t T) := by
  have hself : (K.setTask t T).task t = T := Function.update_self _ _ _
  have hother {u : ℕ} (hu : u ≠ t) : (K.setTask t T).task u = K.task u :=
    Function.update_of_ne hu _ _
  refine ⟨h.kid_lt, h.kid_inj, fun u hdead hu => ?_, fun u howns hu => ?_⟩
  · by_cases hut : u = t
    · subst hut
      rw [hself] at hdead ⊢
      exact (hT hu).1 hdead
    · rw [hother hut] at hdead ⊢
      exact h.dead u hdead hu
  · by_cases hut : u = t
    · subst hut
      rw [hself] at howns ⊢
      exact (hT hu).2 howns
    · rw [hother hut] at howns ⊢
      exact h.owns u howns hu

/-- The tasks whose descriptors a call of `i` changes: its own and those of a task it has
locked. -/
def Reaches (K : Kernel) (i t : ℕ) : Prop :=
  t < NTASK ∧ (t = i ∧ (K.task t).state = .RUNNABLE ∨ K.kid i = some t)

theorem KidsOk.reached (h : KidsOk K) (ht : Reaches K i t) (hs : T.state = (K.task t).state) :
    KidsOk (K.setTask t T) := by
  refine h.setTask fun hu => ?_
  rcases ht.2 with ⟨rfl, hruns⟩ | hkid
  · rw [hs, hruns]
    exact ⟨fun hdead => absurd hdead (by decide), fun _ => rfl⟩
  · exact absurd hkid (hu i)

theorem KidsOk.setSlot (h : KidsOk K) (ht : Reaches K i t) {o : Option ℕ} :
    KidsOk (K.setSlot t fd o) :=
  h.reached ht rfl

theorem setSlot_task {o : Option ℕ} (u : ℕ) : ((K.setSlot t fd o).task u).cwd = (K.task u).cwd ∧
    ((K.setSlot t fd o).task u).owns = (K.task u).owns ∧
    ((K.setSlot t fd o).task u).state = (K.task u).state := by
  by_cases hu : u = t
  · subst hu
    simp [Kernel.setSlot, Kernel.setTask]
  · simp [Kernel.setSlot, Kernel.setTask, hu]

theorem setSlot_ofile {o : Option ℕ} {u d x : ℕ} (h : ((K.setSlot t fd o).task u).ofile d = some x) :
    (K.task u).ofile d = some x ∨ o = some x := by
  by_cases hu : u = t
  · subst hu
    simp only [Kernel.setSlot, Kernel.setTask, Function.update_self] at h
    by_cases hd : d = fd
    · subst hd
      rw [Function.update_self] at h
      exact Or.inr h
    · rw [Function.update_of_ne hd] at h
      exact Or.inl h
  · simp only [Kernel.setSlot, Kernel.setTask, Function.update_of_ne hu] at h
    exact Or.inl h

/-- The stores of `sys_open` to its new file leave its reference count. -/
theorem Counted.openFile (h : Counted K) (hi : i < NTASK) (ha : K.alloc i = some f)
    (hpos : 0 < K.hand i e) (hfree : freeSlot (K.task i) = some fd) {F : File}
    (href : F.ref = (K.file f).ref) (hip : F.ip = some e)
    (hruns : (K.task i).state = .RUNNABLE) :
    Counted ((((K.setFile f F).setSlot i fd (some f)).setAlloc i none).setHand i e
      (K.hand i e - 1)) := by
  obtain ⟨hfd, hslot⟩ := freeSlot_spec hfree
  have hf := (h.alloc_lt i f ha).1
  have hold := h.file_ref f hf
  obtain ⟨hslots, huniq⟩ := h.alloc_new i f ha
  have hone := h.allocs_eq_one hi ha
  generalize hK : (((K.setFile f F).setSlot i fd (some f)).setAlloc i none).setHand i e
    (K.hand i e - 1) = K'
  have hslots' (x : ℕ) : slots K' x = slots K x + if f = x then 1 else 0 := by
    have hset := slots_setSlot (K := K.setFile f F) hi hfd (o := some f) x
    rw [if_neg (by simp [Kernel.setFile, hslot])] at hset
    simp only [Option.some.injEq, Nat.add_zero] at hset
    subst hK
    exact hset
  have hallocs (x : ℕ) : allocs K' x = Function.update (allocs K) f 0 x := by
    subst hK
    exact h.allocs_set hi (Or.inl ⟨ha, rfl⟩) x
  have halloc : K'.alloc = Function.update K.alloc i none := by
    subst hK
    rfl
  have hfile : K'.file = Function.update K.file f F := by
    subst hK
    rfl
  have hkept {j x : ℕ} (hj : K'.alloc j = some x) : K.alloc j = some x ∧ x ≠ f := by
    rw [halloc] at hj
    by_cases hji : j = i
    · subst hji
      simp at hj
    · rw [Function.update_of_ne hji] at hj
      refine ⟨hj, fun hxf => hji (huniq j (hxf ▸ hj))⟩
  have hkids : KidsOk K' := by
    subst hK
    have hslotted : KidsOk (K.setSlot i fd (some f)) :=
      h.toKidsOk.setSlot ⟨hi, Or.inl ⟨rfl, hruns⟩⟩
    exact hslotted.congr rfl rfl
  have hfiles : FilesOk K' := by
    refine h.toFilesOk.changed hf (fun x hx => ⟨?_, ?_, ?_⟩) (fun u d x hs hx => ?_)
      (fun j x hj _ => (hkept hj).1) ?_ fun j hj => absurd rfl (hkept hj).2
    · rw [hfile, Function.update_of_ne hx]
    · rw [hslots', if_neg hx.symm, Nat.add_zero]
    · rw [hallocs, Function.update_of_ne hx]
    · subst hK
      rcases setSlot_ofile (K := K.setFile f F) hs with hs | hs
      · exact hs
      · exact absurd (Option.some.inj hs).symm hx
    · rw [hfile, hslots', hallocs, Function.update_self, Function.update_self, href, hold, hslots,
        hone]
      simp
  refine h.moved hfiles hkids fun d => ?_
  have hon := filesOn_update (d := d) hf hfile hallocs
  have hhands : handsOn K' d + (if d = e then K.hand i e else 0) =
      handsOn K d + if d = e then K.hand i e - 1 else 0 := by
    subst hK
    exact handsOn_setHand hi d
  have hcwds : cwdsOn K' d = cwdsOn K d := by
    subst hK
    exact cwdsOn_congr (fun u => ⟨(setSlot_task u).1, (setSlot_task u).2.1⟩) d
  have hinode : K'.inode = K.inode := by
    subst hK
    rfl
  have hlost : K'.lost = K.lost := by
    subst hK
    rfl
  have hin : (0 < F.ref ∧ F.ip = some d ∧ 0 = 0) ↔ d = e := by
    rw [href, hold, hslots, hone, hip]
    simp [eq_comm]
  rw [if_neg fun hc => absurd (hone.symm.trans hc.2.2) one_ne_zero, if_congr hin rfl rfl] at hon
  rw [hinode, hlost]
  unfold references
  rw [hcwds]
  by_cases hd : d = e
  · subst hd
    simp only [↓reduceIte] at hhands hon
    push_cast
    omega
  · simp only [hd, ↓reduceIte] at hhands hon
    push_cast
    omega

/-- A file with a descriptor is in use and not being allocated. -/
theorem Counted.slot_file (h : Counted K) (ht : t < NTASK) (hfd : fd < NOFILE)
    (hs : (K.task t).ofile fd = some f) :
    f < NOFILE ∧ allocs K f = 0 ∧ 0 < slots K f ∧ (K.file f).ref = slots K f := by
  have hf := h.slot_lt t fd f hs
  obtain ⟨hzero, hpos⟩ := h.allocs_eq_zero ht hfd hs
  have href := h.file_ref f hf
  rw [hzero] at href
  exact ⟨hf, hzero, hpos, by simpa using href⟩

/-- A descriptor gets or loses a file, and the count of the file follows. -/
theorem Counted.slot_files (h : Counted K) (ht : t < NTASK) (hfd : fd < NOFILE)
    (hzero : allocs K f = 0) (hf : f < NOFILE) {o : Option ℕ} {F : File}
    (hold : ∀ x, (K.task t).ofile fd = some x → x = f) (hnew : ∀ x, o = some x → x = f)
    (href : F.ref + (if (K.task t).ofile fd = some f then 1 else 0) =
      (K.file f).ref + if o = some f then 1 else 0)
    (htask : ∀ u, (K'.task u).ofile = ((K.setSlot t fd o).task u).ofile)
    (hfile : K'.file = Function.update K.file f F) (halloc : K'.alloc = K.alloc) : FilesOk K' := by
  have hslots (x : ℕ) : slots K' x + (if (K.task t).ofile fd = some x then 1 else 0) =
      slots K x + if o = some x then 1 else 0 := by
    rw [slots_congr htask]
    exact slots_setSlot ht hfd x
  refine h.toFilesOk.changed hf (fun x hx => ⟨?_, ?_, ?_⟩) (fun u d x hs hx => ?_)
    (fun j x hj _ => halloc ▸ hj) ?_ fun j hj => ?_
  · rw [hfile, Function.update_of_ne hx]
  · have hx' := hslots x
    rw [if_neg fun hs => hx (hold x hs), if_neg fun hs => hx (hnew x hs)] at hx'
    exact hx'
  · rw [allocs_congr halloc]
  · rw [htask] at hs
    rcases setSlot_ofile hs with hs | hs
    · exact hs
    · exact absurd (hnew x hs) hx
  · have hf' := hslots f
    have hr := h.file_ref f hf
    rw [hfile, Function.update_self, allocs_congr halloc, hzero]
    rw [hzero] at hr
    split_ifs at hf' href <;> omega
  · rw [halloc] at hj
    exact absurd (h.allocs_pos hj) (by omega)

theorem Counted.dupSlot (h : Counted K) (hi : i < NTASK) (ht : Reaches K i t) (hfd : fd < NOFILE)
    (hs : (K.task i).ofile fd = some f) (hnone : (K.task t).ofile fd = none) :
    Counted ((K.addFileRef f 1).setSlot t fd (some f)) := by
  obtain ⟨hf, hzero, hpos, href⟩ := h.slot_file hi hfd hs
  refine h.withFiles ?_ ?_ rfl rfl rfl (fun u => ?_) fun d => ?_
  · exact h.slot_files ht.1 hfd hzero hf (fun x hx => absurd (hnone.symm.trans hx) nofun)
      (fun x hx => (Option.some.inj hx).symm) (by simp [hnone]) (fun _ => rfl) rfl rfl
  · exact (h.toKidsOk.setSlot ht).congr rfl rfl
  · exact ⟨(setSlot_task u).1, (setSlot_task u).2.1⟩
  · have hallocs (x : ℕ) : allocs ((K.addFileRef f 1).setSlot t fd (some f)) x =
        Function.update (allocs K) f 0 x := by
      rw [← hzero, Function.update_eq_self]
      rfl
    have hon := filesOn_update (d := d) hf rfl hallocs
    have hbefore : 0 < (K.file f).ref := by omega
    have hafter : 0 < (K.file f).ref + 1 := by omega
    simpa [hzero, hbefore, hafter] using hon

/-- The last close of a file forgets one reference to the inode the file is on. -/
theorem lose_eq : ∃ lost, (if (K.file f).ref = 1 then K.lose f else K) = { K with lost := lost } ∧
    ∀ d, lost d = K.lost d + if (K.file f).ref = 1 ∧ (K.file f).ip = some d then 1 else 0 := by
  by_cases href : (K.file f).ref = 1
  · rw [if_pos href]
    unfold Kernel.lose
    cases hip : (K.file f).ip with
    | none => exact ⟨K.lost, rfl, fun d => by simp⟩
    | some e =>
      refine ⟨_, rfl, fun d => ?_⟩
      by_cases hd : d = e
      · subst hd
        simp [href]
      · have hne : ¬ e = d := fun hed => hd hed.symm
        simp [hd, hne]
  · exact ⟨K.lost, if_neg href, fun d => by simp [href]⟩

theorem Counted.closeSlot (h : Counted K) (ht : Reaches K i t) (hfd : fd < NOFILE)
    (hs : (K.task t).ofile fd = some f) :
    Counted (((if (K.file f).ref = 1 then K.lose f else K).setSlot t fd none).addFileRef f (-1)) := by
  obtain ⟨hf, hzero, hpos, href⟩ := h.slot_file ht.1 hfd hs
  obtain ⟨lost, hlose, hlost⟩ := lose_eq (K := K) (f := f)
  rw [hlose]
  refine h.moved ?_ ?_ fun d => ?_
  · exact h.slot_files (F := { K.file f with ref := (K.file f).ref + -1 }) ht.1 hfd hzero hf
      (fun x hx => Option.some.inj (hx.symm.trans hs)) (fun x hx => by cases hx) (by simp [hs])
      (fun _ => rfl) rfl rfl
  · exact (h.toKidsOk.setSlot ht).congr rfl rfl
  · have hallocs (x : ℕ) : allocs (({ K with lost := lost }.setSlot t fd none).addFileRef f (-1)) x =
        Function.update (allocs K) f 0 x := by
      rw [← hzero, Function.update_eq_self]
      rfl
    have hon := filesOn_update (F := { K.file f with ref := (K.file f).ref + -1 }) (d := d) hf rfl
      hallocs
    have hcwds : cwdsOn (({ K with lost := lost }.setSlot t fd none).addFileRef f (-1)) d =
        cwdsOn K d :=
      cwdsOn_congr (fun u => ⟨(setSlot_task u).1, (setSlot_task u).2.1⟩) d
    have hinode : (({ K with lost := lost }.setSlot t fd none).addFileRef f (-1)).inode = K.inode :=
      rfl
    have hhands : handsOn (({ K with lost := lost }.setSlot t fd none).addFileRef f (-1)) d =
        handsOn K d := rfl
    have hlost' : (({ K with lost := lost }.setSlot t fd none).addFileRef f (-1)).lost = lost := rfl
    rw [hinode, hlost', hlost d]
    unfold references
    rw [hcwds, hhands]
    have hused : 0 < (K.file f).ref := by omega
    have hmore : 0 < (K.file f).ref + -1 ↔ ¬ (K.file f).ref = 1 := by omega
    by_cases hip : (K.file f).ip = some d
    · simp only [hused, hip, hzero, hmore, and_true, ↓reduceIte] at hon ⊢
      split_ifs at hon ⊢ <;> push_cast <;> omega
    · simp only [hip, false_and, and_false, ↓reduceIte] at hon ⊢
      push_cast
      omega

theorem Counted.setOff (h : Counted K) {off : ℕ} :
    Counted (K.setFile f { K.file f with off := off }) := by
  have hfile (x : ℕ) : ((K.setFile f { K.file f with off := off }).file x).ref = (K.file x).ref ∧
      ((K.setFile f { K.file f with off := off }).file x).ip = (K.file x).ip := by
    by_cases hx : x = f
    · subst hx
      simp [Kernel.setFile]
    · simp [Kernel.setFile, hx]
  refine h.withFiles (h.toFilesOk.congr (fun _ => rfl) (fun x => (hfile x).1) rfl)
    (h.toKidsOk.congr rfl rfl) rfl rfl rfl (fun _ => ⟨rfl, rfl⟩) fun d => ?_
  refine tally_congr fun x _ => ?_
  rw [(hfile x).1, (hfile x).2]
  rfl

/-! ### Current directories and states of tasks -/

/-- The caller gets or gives the reference of a task's directory. -/
theorem Counted.setTask (h : Counted K) (hi : i < NTASK) (ht : t < NTASK)
    (hofile : T.ofile = (K.task t).ofile) (hkids : KidsOk (K.setTask t T))
    (hrefs : ∀ d, (if T.cwd = some d ∧ T.owns = true then 1 else 0) + (if d = e then n else 0) =
      (if (K.task t).cwd = some d ∧ (K.task t).owns = true then 1 else 0) +
        if d = e then K.hand i e else 0) :
    Counted ((K.setTask t T).setHand i e n) := by
  refine h.moved (h.toFilesOk.congr (fun u => ?_) (fun _ => rfl) rfl) (hkids.congr rfl rfl)
    fun d => ?_
  · by_cases hu : u = t
    · subst hu
      simp [Kernel.setHand, Kernel.setTask, hofile]
    · simp [Kernel.setHand, Kernel.setTask, hu]
  · have hcwds : cwdsOn ((K.setTask t T).setHand i e n) d +
        (if (K.task t).cwd = some d ∧ (K.task t).owns = true then 1 else 0) =
        cwdsOn K d + if T.cwd = some d ∧ T.owns = true then 1 else 0 :=
      cwdsOn_setTask ht d
    have hhands : handsOn ((K.setTask t T).setHand i e n) d + (if d = e then K.hand i e else 0) =
        handsOn K d + if d = e then n else 0 :=
      handsOn_setHand hi d
    have hfiles : filesOn ((K.setTask t T).setHand i e n) d = filesOn K d := rfl
    have hinode : ((K.setTask t T).setHand i e n).inode = K.inode := rfl
    have hlost : ((K.setTask t T).setHand i e n).lost = K.lost := rfl
    have hd := hrefs d
    rw [hinode, hlost]
    unfold references
    rw [hfiles]
    push_cast
    omega

theorem setHand_self : K.setHand i e (K.hand i e) = K := by
  simp [Kernel.setHand, Function.update_eq_self]

/-- The task changes its state or forgets a directory it has no reference to. -/
theorem Counted.setState (h : Counted K) (hi : i < NTASK) (ht : t < NTASK)
    (hofile : T.ofile = (K.task t).ofile) (hkids : KidsOk (K.setTask t T))
    (hcwd : ∀ d, T.cwd = some d ∧ T.owns = true ↔
      (K.task t).cwd = some d ∧ (K.task t).owns = true) : Counted (K.setTask t T) := by
  have hset := h.setTask (e := 0) (n := K.hand i 0) hi ht hofile hkids fun d => by simp only [hcwd]
  have hsame : (K.setTask t T).setHand i 0 (K.hand i 0) = K.setTask t T :=
    setHand_self (K := K.setTask t T)
  rwa [hsame] at hset

theorem Counted.leaveCwd (h : Counted K) (hi : i < NTASK) (ht : Reaches K i t)
    (hcwd : (K.task t).cwd = some e) (howns : (K.task t).owns = true) :
    Counted ((K.setTask t { K.task t with owns := false }).setHand i e (K.hand i e + 1)) := by
  refine h.setTask hi ht.1 rfl (h.toKidsOk.reached ht rfl) fun d => ?_
  by_cases hd : d = e
  · subst hd
    simp [hcwd, howns]
    omega
  · have hne : ¬ e = d := fun hed => hd hed.symm
    simp [hcwd, howns, hd, hne]

theorem Counted.setCwd (h : Counted K) (hi : i < NTASK) (ht : Reaches K i t)
    (hpos : 0 < K.hand i e) (hgone : (K.task t).cwd = none ∨ (K.task t).owns = false) :
    Counted ((K.setTask t { K.task t with
      cwd := some e
      owns := true }).setHand i e (K.hand i e - 1)) := by
  refine h.setTask hi ht.1 rfl (h.toKidsOk.reached ht rfl) fun d => ?_
  have hnone : ¬ ((K.task t).cwd = some d ∧ (K.task t).owns = true) := by
    rcases hgone with hc | ho
    · simp [hc]
    · simp [ho]
  rw [if_neg hnone]
  by_cases hd : d = e
  · subst hd
    simp
    omega
  · have hne : ¬ e = d := fun hed => hd hed.symm
    simp [hd, hne]

theorem KidsOk.lock (h : KidsOk K) (hnone : K.kid i = none) (ht : t < NTASK) (hu : Unlocked K t) :
    KidsOk ((K.setTask t T).setKid i (some t)) := by
  have hkid {j u : ℕ} (hj : Function.update K.kid i (some t) j = some u) :
      j = i ∧ u = t ∨ j ≠ i ∧ K.kid j = some u := by
    by_cases hji : j = i
    · subst hji
      rw [Function.update_self] at hj
      exact Or.inl ⟨rfl, (Option.some.inj hj).symm⟩
    · rw [Function.update_of_ne hji] at hj
      exact Or.inr ⟨hji, hj⟩
  have hfree {u : ℕ} (huu : Unlocked ((K.setTask t T).setKid i (some t)) u) :
      u ≠ t ∧ Unlocked K u := by
    refine ⟨fun hut => huu i (hut ▸ Function.update_self _ _ _), fun j hj => huu j ?_⟩
    have hji : j ≠ i := fun hji => by simp [hji, hnone] at hj
    exact (Function.update_of_ne hji _ _).trans hj
  refine ⟨fun j u hj => ?_, fun j k u hj hk => ?_, fun u hdead huu => ?_, fun u howns huu => ?_⟩
  · rcases hkid hj with ⟨-, rfl⟩ | ⟨-, hj⟩
    · exact ht
    · exact h.kid_lt j u hj
  · rcases hkid hj with ⟨rfl, rfl⟩ | ⟨-, hj'⟩
    · rcases hkid hk with ⟨rfl, -⟩ | ⟨-, hk'⟩
      · rfl
      · exact absurd hk' (hu k)
    · rcases hkid hk with ⟨-, rfl⟩ | ⟨-, hk'⟩
      · exact absurd hj' (hu j)
      · exact h.kid_inj j k u hj' hk'
  · obtain ⟨hut, huu⟩ := hfree huu
    have htask : ((K.setTask t T).setKid i (some t)).task u = K.task u :=
      Function.update_of_ne hut _ _
    rw [htask] at hdead ⊢
    exact h.dead u hdead huu
  · obtain ⟨hut, huu⟩ := hfree huu
    have htask : ((K.setTask t T).setKid i (some t)).task u = K.task u :=
      Function.update_of_ne hut _ _
    rw [htask] at howns ⊢
    exact h.owns u howns huu

theorem KidsOk.unlock (h : KidsOk K) (hk : K.kid i = some t) (howns : (K.task t).owns = true)
    (hdead : (K.task t).state = .DEAD →
      (K.task t).cwd = none ∧ ∀ fd < NOFILE, (K.task t).ofile fd = none) :
    KidsOk (K.setKid i none) := by
  have hkid {j u : ℕ} (hj : Function.update K.kid i none j = some u) : K.kid j = some u := by
    by_cases hji : j = i
    · subst hji
      simp at hj
    · rwa [Function.update_of_ne hji] at hj
  have hfree {u : ℕ} (hu : Unlocked (K.setKid i none) u) (hut : u ≠ t) : Unlocked K u := by
    intro j hj
    have hji : j ≠ i := fun hji => hut (Option.some.inj ((hji ▸ hj).symm.trans hk))
    exact hu j ((Function.update_of_ne hji _ _).trans hj)
  refine ⟨fun j u hj => h.kid_lt j u (hkid hj),
    fun j k u hj hk => h.kid_inj j k u (hkid hj) (hkid hk), fun u hd hu => ?_, fun u ho hu => ?_⟩
  · by_cases hut : u = t
    · subst hut
      exact hdead hd
    · exact h.dead u hd (hfree hu hut)
  · by_cases hut : u = t
    · subst hut
      exact absurd (howns.symm.trans ho) (by decide)
    · exact h.owns u ho (hfree hu hut)

/-! ### Views -/

theorem view_setAlloc {o : Option ℕ} : view (K.setAlloc i o) i = { view K i with alloc := o } := by
  simp only [view, Kernel.setAlloc, Function.update_self]
  rfl

theorem view_setAlloc_of_ne {o : Option ℕ} {j : ℕ} (hj : j ≠ i) :
    view (K.setAlloc i o) j = view K j :=
  view_congr (fun _ => Iff.rfl) rfl Iff.rfl Iff.rfl (Function.update_of_ne hj _ _) rfl
    fun _ _ => rfl

theorem view_setKid {o : Option ℕ} :
    view (K.setKid i o) i = { view K i with kid := o.map fun t => (t, K.task t) } := by
  simp only [view, Kernel.setKid, Function.update_self]
  rfl

theorem view_setKid_of_ne {o : Option ℕ} {j : ℕ} (hj : j ≠ i) :
    view (K.setKid i o) j = view K j :=
  view_congr (fun _ => Iff.rfl) rfl Iff.rfl Iff.rfl rfl (Function.update_of_ne hj _ _)
    fun _ _ => rfl

/-- A task changes that no other call has locked. -/
theorem view_setTask_of_ne {j : ℕ} (hkid : K.kid j ≠ some t)
    (haway : j = t → (T.state = .RUNNABLE ∧ T.owns = false ↔
      (K.task t).state = .RUNNABLE ∧ (K.task t).owns = false)) :
    view (K.setTask t T) j = view K j := by
  refine view_congr (fun _ => Iff.rfl) rfl Iff.rfl ?_ rfl rfl fun u hu => ?_
  · by_cases hj : j = t
    · subst hj
      simpa [Kernel.setTask] using haway rfl
    · simp [Kernel.setTask, hj]
  · have hut : u ≠ t := fun hut => hkid (hut ▸ hu)
    exact Function.update_of_ne hut _ _

theorem view_setTask_self (hu : Unlocked K i) : view (K.setTask i T) i =
    { view K i with away := T.state = .RUNNABLE ∧ T.owns = false } := by
  have hkid : (K.kid i).map (fun t => (t, Function.update K.task i T t)) =
      (K.kid i).map fun t => (t, K.task t) := by
    cases hk : K.kid i with
    | none => rfl
    | some t =>
      have hti : t ≠ i := fun hti => hu i (hti ▸ hk)
      simp [hti]
  simp only [view, Kernel.setTask, Function.update_self, hkid]
  rfl

theorem view_setTask_kid (hu : Unlocked K i) (hk : K.kid i = some t) : view (K.setTask t T) i =
    { view K i with kid := some (t, T) } := by
  have hti : i ≠ t := fun hti => hu i (hti ▸ hk)
  simp only [view, Kernel.setTask, Function.update_of_ne hti, hk, Option.map_some,
    Function.update_self]
  rfl

end Zrhos.Sysfile
