import Zrhos.Sysfile.Descriptors

/-! Every operation that a task performs keeps the counts and does to its caller what the
contract says. -/
namespace Zrhos.Sysfile
open Turns Tally
open Sync (TaskState)
open Mmap (upTo mem_upTo)

variable {K K' : Kernel} {i t e f fd n : ℕ} {T : Task} {strict : Prop}

/-- The steps after which a call waits for a lock that it holds: the last reference to an
inode without links goes, `sys_open` truncates, or `ialloc` picks an inode that the caller
has locked. -/
def Relocks (K : Kernel) (i : ℕ) : Op → Prop
  | .iput e => (K.inode e).ref = 1 ∧ (K.inode e).valid = true ∧ (K.inode e).copy.nlink = 0
  | .wantsTrunc e omode => omode &&& O_TRUNC ≠ 0 ∧ (K.inode e).copy.type = T_FILE
  | .inew dev inum _ =>
    ∃ d, K.holder d = some i ∧ (K.inode d).dev = dev ∧ (K.inode d).inum = inum
  | _ => False

theorem Sound.same {o : Op} {r : o.Resp} (h : Counted K)
    (hl : Leaves strict o (view K i) r (view K i)) : Sound strict K i o r K :=
  ⟨h, hl, fun _ _ => rfl⟩

theorem kid_view (h : (view K i).kid = some (t, T)) : K.kid i = some t ∧ K.task t = T := by
  obtain ⟨u, hu, hpair⟩ := Option.map_eq_some_iff.mp h
  cases hpair
  exact ⟨hu, rfl⟩

theorem owns_of_not_away (hruns : (K.task i).state = .RUNNABLE) (ha : (view K i).away = false) :
    (K.task i).owns = true := by
  simpa [view, hruns] using ha

theorem sound_filealloc (h : Counted K) (hi : i < NTASK) (hnone : K.alloc i = none)
    (hf : freeFile K = some f) :
    Sound strict K i .filealloc (some f) ((K.addFileRef f 1).setAlloc i (some f)) :=
  ⟨h.filealloc hi hnone hf, view_setAlloc, fun _ hj => view_setAlloc_of_ne hj⟩

theorem sound_fileclose (h : Counted K) (hi : i < NTASK) (ha : K.alloc i = some f) :
    Sound strict K i (.fileclose f) () ((K.addFileRef f (-1)).setAlloc i none) :=
  ⟨h.fileclose hi ha, view_setAlloc, fun _ hj => view_setAlloc_of_ne hj⟩

/-- A descriptor of the caller is no part of any view. -/
theorem view_setSlot_self (hu : Unlocked K i) {o : Option ℕ} (j : ℕ) :
    view (K.setSlot i fd o) j = view K j := by
  by_cases hj : j = i
  · subst hj
    exact view_setTask_self hu
  · exact view_setTask_of_ne (hu j) fun hji => absurd hji hj

theorem sound_openFile (h : Counted K) (hi : i < NTASK) (hruns : (K.task i).state = .RUNNABLE)
    (hu : Unlocked K i) (ha : K.alloc i = some f) (hpos : 0 < K.hand i e)
    (hfree : freeSlot (K.task i) = some fd) {F : File} (href : F.ref = (K.file f).ref)
    (hip : F.ip = some e) {type : FileType} {major : ℤ} {readable writable : Bool} :
    Sound strict K i (.openFile f type major e readable writable) (some fd)
      ((((K.setFile f F).setSlot i fd (some f)).setAlloc i none).setHand i e (K.hand i e - 1)) := by
  have hslot (j : ℕ) : view ((K.setFile f F).setSlot i fd (some f)) j = view K j :=
    view_setSlot_self (K := K.setFile f F) hu j
  refine ⟨h.openFile hi ha hpos hfree href hip hruns, ?_, fun j hj => ?_⟩
  · simp only [Leaves]
    rw [view_setHand, view_setAlloc, hslot]
    rfl
  · rw [view_setHand_of_ne hj, view_setAlloc_of_ne hj, hslot]

/-- A descriptor of a task the caller has locked changes. -/
theorem view_setSlot_kid (h : KidsOk K) (hu : Unlocked K i) (hk : K.kid i = some t) (fd : ℕ)
    (o : Option ℕ) :
    view (K.setSlot t fd o) i = { view K i with
      kid := some (t, { K.task t with ofile := Function.update (K.task t).ofile fd o }) } ∧
      ∀ j, j ≠ i → view (K.setSlot t fd o) j = view K j :=
  ⟨view_setTask_kid hu hk, fun j hj =>
    view_setTask_of_ne (fun hjt => hj (h.kid_inj j i t hjt hk)) fun _ => Iff.rfl⟩

theorem sound_closeSlot_self (h : Counted K) (hi : i < NTASK)
    (hruns : (K.task i).state = .RUNNABLE) (hu : Unlocked K i) (hfd : fd < NOFILE)
    (hs : (K.task i).ofile fd = some f) :
    Sound strict K i (.closeSlot none fd) true
      (((if (K.file f).ref = 1 then K.lose f else K).setSlot i fd none).addFileRef f (-1)) := by
  have hcounted := h.closeSlot ⟨hi, Or.inl ⟨rfl, hruns⟩⟩ hfd hs
  obtain ⟨lost, hlose, -⟩ := lose_eq (K := K) (f := f)
  rw [hlose] at hcounted ⊢
  have hview (j : ℕ) : view (({ K with lost := lost }.setSlot i fd none).addFileRef f (-1)) j =
      view K j :=
    view_setSlot_self (K := { K with lost := lost }) hu j
  exact ⟨hcounted, hview i, fun j _ => hview j⟩

theorem sound_closeSlot_kid (h : Counted K) (hu : Unlocked K i) (hk : K.kid i = some t)
    (hfd : fd < NOFILE) (hs : (K.task t).ofile fd = some f) :
    Sound strict K i (.closeSlot (some t) fd) true
      (((if (K.file f).ref = 1 then K.lose f else K).setSlot t fd none).addFileRef f (-1)) := by
  have hcounted := h.closeSlot ⟨h.kid_lt i t hk, Or.inr hk⟩ hfd hs
  obtain ⟨lost, hlose, -⟩ := lose_eq (K := K) (f := f)
  rw [hlose] at hcounted ⊢
  obtain ⟨hself, hother⟩ := view_setSlot_kid (K := { K with lost := lost })
    (h.toKidsOk.congr rfl rfl) hu hk fd none
  refine ⟨hcounted, fun T hT => ?_, hother⟩
  obtain ⟨-, rfl⟩ := kid_view hT
  exact hself

theorem sound_dupSlot (h : Counted K) (hi : i < NTASK) (hu : Unlocked K i)
    (hk : K.kid i = some t) (hfd : fd < NOFILE) (hs : (K.task i).ofile fd = some f)
    (hnone : (K.task t).ofile fd = none) :
    Sound strict K i (.dupSlot t fd) () ((K.addFileRef f 1).setSlot t fd (some f)) := by
  obtain ⟨hself, hother⟩ := view_setSlot_kid (K := K.addFileRef f 1) (h.toKidsOk.congr rfl rfl) hu
    hk fd (some f)
  refine ⟨h.dupSlot hi ⟨h.kid_lt i t hk, Or.inr hk⟩ hfd hs hnone, fun T hT => ⟨some f, ?_⟩, hother⟩
  obtain ⟨-, rfl⟩ := kid_view hT
  exact hself

theorem sound_leaveCwd_self (h : Counted K) (hi : i < NTASK)
    (hruns : (K.task i).state = .RUNNABLE) (hu : Unlocked K i) (hcwd : (K.task i).cwd = some e)
    (howns : (K.task i).owns = true) :
    Sound strict K i (.leaveCwd none) (some e)
      ((K.setTask i { K.task i with owns := false }).setHand i e (K.hand i e + 1)) := by
  refine ⟨h.leaveCwd hi ⟨hi, Or.inl ⟨rfl, hruns⟩⟩ hcwd howns, ?_, fun j hj => ?_⟩
  · simp only [Leaves]
    rw [view_setHand, view_setTask_self hu]
    simp [hruns, View.add]
    rfl
  · rw [view_setHand_of_ne hj]
    exact view_setTask_of_ne (hu j) fun hji => absurd hji hj

theorem sound_leaveCwd_kid (h : Counted K) (hi : i < NTASK) (hu : Unlocked K i)
    (hk : K.kid i = some t) (hcwd : (K.task t).cwd = some e) (howns : (K.task t).owns = true)
    (hdead : (K.task t).state = .DEAD) :
    Sound strict K i (.leaveCwd (some t)) (some e)
      ((K.setTask t { K.task t with owns := false }).setHand i e (K.hand i e + 1)) := by
  refine ⟨h.leaveCwd hi ⟨h.kid_lt i t hk, Or.inr hk⟩ hcwd howns, fun T hT => ?_, fun j hj => ?_⟩
  · obtain ⟨-, rfl⟩ := kid_view hT
    rw [view_setHand, view_setTask_kid hu hk]
    rfl
  · rw [view_setHand_of_ne hj]
    exact view_setTask_of_ne (fun hjt => hj (h.kid_inj j i t hjt hk)) fun _ => by simp [hdead]

theorem sound_setCwd_self (h : Counted K) (hi : i < NTASK)
    (hruns : (K.task i).state = .RUNNABLE) (hu : Unlocked K i) (hpos : 0 < K.hand i e)
    (haway : (K.task i).owns = false) :
    Sound strict K i (.setCwd none (some e)) () ((K.setTask i { K.task i with
      cwd := some e
      owns := true }).setHand i e (K.hand i e - 1)) := by
  refine ⟨h.setCwd hi ⟨hi, Or.inl ⟨rfl, hruns⟩⟩ hpos (Or.inr haway), ?_, fun j hj => ?_⟩
  · simp only [Leaves]
    rw [view_setHand, view_setTask_self hu]
    simp [View.sub]
    rfl
  · rw [view_setHand_of_ne hj]
    exact view_setTask_of_ne (hu j) fun hji => absurd hji hj

theorem sound_setCwd_kid (h : Counted K) (hi : i < NTASK) (hu : Unlocked K i)
    (hk : K.kid i = some t) (hpos : 0 < K.hand i e)
    (hgone : (K.task t).cwd = none ∨ (K.task t).owns = false)
    (howns : (K.task t).state = .RUNNABLE → (K.task t).owns = true) :
    Sound strict K i (.setCwd (some t) (some e)) () ((K.setTask t { K.task t with
      cwd := some e
      owns := true }).setHand i e (K.hand i e - 1)) := by
  refine ⟨h.setCwd hi ⟨h.kid_lt i t hk, Or.inr hk⟩ hpos hgone, fun T hT => ?_, fun j hj => ?_⟩
  · obtain ⟨-, rfl⟩ := kid_view hT
    rw [view_setHand, view_setTask_kid hu hk]
    rfl
  · rw [view_setHand_of_ne hj]
    refine view_setTask_of_ne (fun hjt => hj (h.kid_inj j i t hjt hk)) fun _ => ?_
    simpa using howns

theorem sound_setCwd_none (h : Counted K) (hi : i < NTASK) (hu : Unlocked K i)
    (hk : K.kid i = some t) (hgone : (K.task t).cwd = none ∨ (K.task t).owns = false)
    (howns : (K.task t).state = .RUNNABLE → (K.task t).owns = true) :
    Sound strict K i (.setCwd (some t) none) () (K.setTask t { K.task t with
      cwd := none
      owns := true }) := by
  refine ⟨h.setState hi (h.kid_lt i t hk) rfl
    (h.toKidsOk.reached ⟨h.kid_lt i t hk, Or.inr hk⟩ rfl) fun d => ?_, fun T hT => ?_, fun j hj => ?_⟩
  · rcases hgone with hc | ho
    · simp [hc]
    · simp [ho]
  · obtain ⟨-, rfl⟩ := kid_view hT
    exact view_setTask_kid hu hk
  · refine view_setTask_of_ne (fun hjt => hj (h.kid_inj j i t hjt hk)) fun _ => ?_
    simpa using howns

/-- The locked task gets another state. -/
theorem sound_setRunnable (h : Counted K) (hi : i < NTASK) (hu : Unlocked K i)
    (hk : K.kid i = some t) (howns : (K.task t).owns = true) :
    Sound strict K i (.setRunnable t) () (K.setTask t { K.task t with state := .RUNNABLE }) := by
  refine ⟨h.setState hi (h.kid_lt i t hk) rfl (h.toKidsOk.setTask fun hut => absurd hk (hut i))
    fun d => Iff.rfl, fun T hT => ?_, fun j hj => ?_⟩
  · obtain ⟨-, rfl⟩ := kid_view hT
    exact view_setTask_kid hu hk
  · exact view_setTask_of_ne (fun hjt => hj (h.kid_inj j i t hjt hk)) fun _ => by simp [howns]

theorem sound_setZombie (h : Counted K) (hi : i < NTASK) (hu : Unlocked K i)
    (howns : (K.task i).owns = true) :
    Sound strict K i .setZombie () (K.setTask i { K.task i with state := .ZOMBIE }) := by
  refine ⟨h.setState hi hi rfl (h.toKidsOk.setTask fun _ => ⟨nofun, fun ho => ?_⟩)
    fun d => Iff.rfl, ?_, fun j hj => ?_⟩
  · exact absurd (howns.symm.trans ho) (by decide)
  · simp only [Leaves]
    rw [view_setTask_self hu]
    simp [view, howns]
  · exact view_setTask_of_ne (hu j) fun hji => absurd hji hj

/-- A task that nobody has locked is taken by the caller. -/
theorem Counted.lock (h : Counted K) (hnone : K.kid i = none) (ht : t < NTASK)
    (hut : Unlocked K t) {s : TaskState} :
    Counted ((K.setTask t { K.task t with state := s }).setKid i (some t)) := by
  refine h.moved (h.toFilesOk.congr (fun u => ?_) (fun _ => rfl) rfl)
    (h.toKidsOk.lock hnone ht hut) fun d => ?_
  · by_cases hu : u = t
    · subst hu
      simp [Kernel.setKid, Kernel.setTask]
    · simp [Kernel.setKid, Kernel.setTask, hu]
  · have hcwds : cwdsOn ((K.setTask t { K.task t with state := s }).setKid i (some t)) d =
        cwdsOn K d := by
      refine cwdsOn_congr (fun u => ?_) d
      by_cases hu : u = t
      · subst hu
        simp [Kernel.setKid, Kernel.setTask]
      · simp [Kernel.setKid, Kernel.setTask, hu]
    unfold references
    rw [hcwds]
    rfl

theorem lock_views (hut : Unlocked K t) {s : TaskState} (haway : s ≠ .RUNNABLE) (hold : (K.task t).state ≠ .RUNNABLE) :
    view ((K.setTask t { K.task t with state := s }).setKid i (some t)) i =
      { view K i with kid := some (t, { K.task t with state := s }) } ∧
    ∀ j, j ≠ i → view ((K.setTask t { K.task t with state := s }).setKid i (some t)) j =
      view K j := by
  have hview (j : ℕ) : view (K.setTask t { K.task t with state := s }) j = view K j :=
    view_setTask_of_ne (hut j) fun _ => by simp [haway, hold]
  refine ⟨?_, fun j hj => ?_⟩
  · rw [view_setKid, hview]
    simp [Kernel.setTask]
  · rw [view_setKid_of_ne hj, hview]

theorem sound_unlockTask (h : Counted K) (hk : K.kid i = some t)
    (howns : (K.task t).owns = true) (hdead : (K.task t).state = .DEAD →
      (K.task t).cwd = none ∧ ∀ fd < NOFILE, (K.task t).ofile fd = none) :
    Sound strict K i (.unlockTask t) () (K.setKid i none) :=
  ⟨h.moved (h.toFilesOk.congr (fun _ => rfl) (fun _ => rfl) rfl)
    (h.toKidsOk.unlock hk howns hdead) fun _ => rfl, view_setKid,
    fun _ hj => view_setKid_of_ne hj⟩

/-- Every operation is sound. -/
theorem Does.sound {o : Op} {r : o.Resp} (h : Counted K) (hd : Does K i o r K')
    (ha : Asks strict o (view K i)) (hc : strict → ¬ Relocks K i o) : Sound strict K i o r K' := by
  obtain ⟨hi, hruns, hu, hgrants, ω, hp⟩ := hd
  cases o with
  | P s =>
    cases s with
    | inode e =>
      simp only [perform] at hp
      split_ifs at hp with hfree
      cases hp
      exact sound_P h hfree
    | fs =>
      cases hp
      exact .same h rfl
    | sons =>
      cases hp
      exact .same h rfl
  | V s =>
    cases s with
    | inode e =>
      cases hp
      exact sound_V h ha
    | fs =>
      cases hp
      exact .same h rfl
    | sons =>
      cases hp
      exact .same h rfl
  | iget dev inum =>
    simp only [perform] at hp
    split_ifs at hp with hfree
    obtain ⟨x, hx, hxr⟩ := Option.map_eq_some_iff.mp hp
    cases hxr
    exact sound_iget h hi hx
  | inew dev inum type =>
    simp only [perform] at hp
    split_ifs at hp with hfree
    obtain ⟨x, hx, hxr⟩ := Option.map_eq_some_iff.mp hp
    cases hxr
    exact sound_inew h hi hx fun hs d hd hsame => hc hs ⟨d, hd, hsame⟩
  | idup e =>
    simp only [perform] at hp
    split_ifs at hp with hfree
    cases hp
    exact sound_idup h hi
  | iput e =>
    simp only [perform] at hp
    split_ifs at hp with hfree hlast
    · cases hp
      exact sound_iputLast h hfree fun hs => hc hs hlast
    · cases hp
      exact sound_iput h hi ha
  | itableUnlock =>
    cases hp
    exact sound_itableUnlock h (by simpa [Asks, view] using ha)
  | entryExist e =>
    cases hp
    exact sound_entryExist h hi ha
  | setCopy e d =>
    cases hp
    exact ⟨h.setInode rfl, rfl, fun _ _ => rfl⟩
  | setValid e valid =>
    cases hp
    exact ⟨h.setInode rfl, rfl, fun _ _ => rfl⟩
  | filealloc =>
    simp only [perform] at hp
    cases hf : freeFile K with
    | none =>
      rw [hf] at hp
      cases hp
      refine .same h ?_
      have hnone : (view K i).alloc = none := ha
      simp only [Leaves, ← hnone]
    | some f =>
      rw [hf] at hp
      cases hp
      exact sound_filealloc h hi ha hf
  | fileclose f =>
    cases hp
    exact sound_fileclose h hi ha
  | openFile f type major ip readable writable =>
    simp only [perform] at hp
    cases hf : freeSlot (K.task i) with
    | none =>
      rw [hf] at hp
      cases hp
      exact .same h rfl
    | some fd =>
      rw [hf] at hp
      cases hp
      refine sound_openFile h hi hruns hu ha.1 ha.2 hf ?_ ?_
      · rfl
      · rfl
  | setOff f off =>
    cases hp
    exact ⟨h.setOff, rfl, fun _ _ => rfl⟩
  | closeSlot task fd =>
    cases task with
    | none =>
      simp only [perform, Option.getD_none] at hp
      cases hs : (K.task i).ofile fd with
      | none =>
        rw [hs] at hp
        cases hp
        exact .same h rfl
      | some f =>
        rw [hs] at hp
        cases hp
        exact sound_closeSlot_self h hi hruns hu ha hs
    | some t =>
      obtain ⟨hfd, T, hT⟩ := ha
      obtain ⟨hk, rfl⟩ := kid_view hT
      simp only [perform, Option.getD_some] at hp
      cases hs : (K.task t).ofile fd with
      | none =>
        rw [hs] at hp
        cases hp
        refine .same h fun T hT' => ?_
        cases hT.symm.trans hT'
        rw [← hs, Function.update_eq_self, ← hT]
      | some f =>
        rw [hs] at hp
        cases hp
        exact sound_closeSlot_kid h hu hk hfd hs
  | dupSlot nt fd =>
    obtain ⟨hfd, T, hT, hnone⟩ := ha
    obtain ⟨hk, rfl⟩ := kid_view hT
    simp only [perform] at hp
    cases hs : (K.task i).ofile fd with
    | none =>
      rw [hs] at hp
      cases hp
      refine .same h fun T hT' => ⟨none, ?_⟩
      cases hT.symm.trans hT'
      rw [← hnone, Function.update_eq_self, ← hT]
    | some f =>
      rw [hs] at hp
      cases hp
      exact sound_dupSlot h hi hu hk hfd hs hnone
  | leaveCwd task =>
    cases task with
    | none =>
      simp only [perform, Option.getD_none] at hp
      split at hp
      case _ =>
        cases hp
        exact .same h rfl
      case _ e hcwd =>
        cases hp
        exact sound_leaveCwd_self h hi hruns hu hcwd (owns_of_not_away hruns ha)
    | some t =>
      obtain ⟨T, hT, howns, hdead⟩ := ha
      obtain ⟨hk, rfl⟩ := kid_view hT
      simp only [perform, Option.getD_some] at hp
      split at hp
      case _ hcwd =>
        cases hp
        refine .same h fun T hT' => ⟨?_, rfl⟩
        cases hT.symm.trans hT'
        exact hcwd
      case _ e hcwd =>
        cases hp
        exact sound_leaveCwd_kid h hi hu hk hcwd howns hdead
  | setCwd task ip =>
    cases task with
    | none =>
      cases ip with
      | none => exact ha.elim
      | some e =>
        cases hp
        have haway : (K.task i).owns = false := by simpa [view, hruns] using ha.1
        exact sound_setCwd_self h hi hruns hu ha.2 haway
    | some t =>
      obtain ⟨hpos, T, hT, hgone, howns⟩ := ha
      obtain ⟨hk, rfl⟩ := kid_view hT
      cases ip with
      | none =>
        cases hp
        exact sound_setCwd_none h hi hu hk hgone howns
      | some e =>
        cases hp
        exact sound_setCwd_kid h hi hu hk (hpos e rfl) hgone howns
  | wantsTrunc e omode =>
    cases hp
    refine .same h ⟨fun hs => ?_, rfl⟩
    exact decide_eq_false (hc hs)
  | utaskCreate =>
    simp only [perform] at hp
    split_ifs at hp with hpick
    cases hp
    obtain ⟨hlt, hdead⟩ := hpick
    have hut : Unlocked K ω.pick := hgrants
    have hnone : K.kid i = none := by simpa [Asks, view] using ha
    obtain ⟨hcwd, hofile⟩ := h.dead _ hdead hut
    have howns : (K.task ω.pick).owns = true := by
      by_contra ho
      have hrun := h.owns _ (by simpa using ho) hut
      exact absurd (hdead.symm.trans hrun) (by decide)
    obtain ⟨hself, hother⟩ := lock_views (i := i) hut (s := .USED) (by decide) (by simp [hdead])
    exact ⟨h.lock hnone hlt hut,
      ⟨{ K.task ω.pick with state := .USED }, rfl, hcwd, howns, hofile, hself⟩, hother⟩
  | setRunnable nt =>
    obtain ⟨T, hT, howns⟩ := ha
    obtain ⟨hk, rfl⟩ := kid_view hT
    cases hp
    exact sound_setRunnable h hi hu hk howns
  | unlockTask t =>
    obtain ⟨T, hT, howns, hdead⟩ := ha
    obtain ⟨hk, rfl⟩ := kid_view hT
    cases hp
    exact sound_unlockTask h hk howns hdead
  | reap =>
    simp only [perform] at hp
    split_ifs at hp with hpick
    cases hp
    obtain ⟨hlt, hzombie⟩ := hpick
    have hut : Unlocked K ω.pick := hgrants
    have hnone : K.kid i = none := by simpa [Asks, view] using ha
    have howns : (K.task ω.pick).owns = true := by
      by_contra ho
      have hrun := h.owns _ (by simpa using ho) hut
      exact absurd (hzombie.symm.trans hrun) (by decide)
    obtain ⟨hself, hother⟩ := lock_views (i := i) hut (s := .DEAD) (by decide) (by simp [hzombie])
    exact ⟨h.lock hnone hlt hut, ⟨{ K.task ω.pick with state := .DEAD }, rfl, howns, hself⟩, hother⟩
  | setZombie =>
    cases hp
    exact sound_setZombie h hi hu (owns_of_not_away hruns ha)
  | panic why => cases hp
  | _ =>
    cases hp
    exact .same h rfl

/-! ### Runs -/

/-- The operations of a run, in a strict run without those that lead to a lock the caller
holds. -/
def Acts (strict : Prop) (K : Kernel) (i : ℕ) (o : Op) (r : o.Resp) (K' : Kernel) : Prop :=
  Does K i o r K' ∧ (strict → ¬ Relocks K i o)

theorem respects : Respects (Acts strict) (duty strict) view Counted := by
  intro K i o r K' h ha hd
  obtain ⟨hcounted, hleaves, hothers⟩ := hd.1.sound h ha hd.2
  exact ⟨hcounted, hleaves, hothers⟩

end Zrhos.Sysfile
