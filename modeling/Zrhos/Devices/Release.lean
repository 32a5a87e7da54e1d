import Zrhos.Devices.Model

/-! Which device calls give back the spinlock of their device and their share of `noff`. -/
namespace Zrhos.Devices
open Partial
open Driver (copySize sizeofKeyboardEvent)
open Vm (Mapped)

variable {S : Setting} {m : Machine} {h h' : Hart} {l l' : Spinlock} {n fuel : ℕ}

/-! ### Locks -/

theorem Hart.lmLock_spec (hl : h.lmLock l = some h') :
    h.locked l = none ∧ h'.cpu = h.cpu ∧ h'.noff = h.noff + 1 ∧
      h'.locked = Function.update h.locked l (some h.cpu) := by
  unfold Hart.lmLock Hart.acquire at hl
  split_ifs at hl with hfree
  cases hl
  exact ⟨hfree, rfl, rfl, rfl⟩

theorem Hart.popOff_spec (hp : h.popOff = some h') :
    h'.cpu = h.cpu ∧ h'.noff + 1 = h.noff ∧ h'.locked = h.locked := by
  unfold Hart.popOff at hp
  by_cases hoff : h.intr = true ∨ h.noff < 1
  · rw [if_pos hoff] at hp
    cases hp
  · rw [if_neg hoff] at hp
    cases hp
    have hpos : 1 ≤ h.noff := not_lt.mp fun hlt => hoff (Or.inr hlt)
    exact ⟨rfl, Nat.sub_add_cancel hpos, rfl⟩

theorem Hart.lmUnlock_spec (hl : h.lmUnlock l = some h') :
    h.holding l ∧ h'.cpu = h.cpu ∧ h'.noff + 1 = h.noff ∧
      h'.locked = Function.update h.locked l none := by
  unfold Hart.lmUnlock at hl
  split_ifs at hl with hheld
  obtain ⟨hcpu, hnoff, hlocked⟩ := Hart.popOff_spec hl
  exact ⟨hheld, hcpu, hnoff, hlocked⟩

theorem Hart.uninterrupted_spec (hu : h.uninterrupted = some h') :
    h'.cpu = h.cpu ∧ h'.noff = h.noff ∧ h'.locked = h.locked := by
  obtain ⟨hcpu, hnoff, hlocked⟩ := Hart.popOff_spec hu
  exact ⟨hcpu, Nat.succ.inj hnoff, hlocked⟩

/-- No lock of a task. -/
def Spinlock.OfDevice (l : Spinlock) : Prop := ∀ t, l ≠ .task t

theorem Device.lock_ofDevice (d : Device) : d.lock.OfDevice := by
  intro t
  cases d <;> exact Spinlock.noConfusion

/-- `noff` and the locks of the devices are as they were. -/
structure Kept (h h' : Hart) : Prop where
  noff : h'.noff = h.noff
  holding : ∀ l : Spinlock, l.OfDevice → (h'.holding l ↔ h.holding l)

theorem Kept.refl : Kept h h := ⟨rfl, fun _ _ => Iff.rfl⟩

theorem Kept.trans {h'' : Hart} (h₁ : Kept h h') (h₂ : Kept h' h'') : Kept h h'' :=
  ⟨h₂.noff.trans h₁.noff, fun l hl => (h₂.holding l hl).trans (h₁.holding l hl)⟩

theorem kept_of_eq (hcpu : h'.cpu = h.cpu) (hnoff : h'.noff = h.noff)
    (hlocked : ∀ l : Spinlock, l.OfDevice → h'.locked l = h.locked l) : Kept h h' := by
  refine ⟨hnoff, fun l hl => ?_⟩
  rw [Hart.holding, Hart.holding, hlocked l hl, hcpu]

/-- The lock is with the CPU, which has turned interrupts off `n` times. -/
def In (l : Spinlock) (n : ℕ) (h : Hart) : Prop := h.holding l ∧ h.noff = n

def Out (l : Spinlock) (n : ℕ) (h : Hart) : Prop := ¬ h.holding l ∧ h.noff = n

theorem Kept.in (hk : Kept h h') (hl : l.OfDevice) (hi : In l n h) : In l n h' :=
  ⟨(hk.holding l hl).mpr hi.1, hk.noff.trans hi.2⟩

theorem Kept.out (hk : Kept h h') (hl : l.OfDevice) (ho : Out l n h) : Out l n h' :=
  ⟨fun hh => ho.1 ((hk.holding l hl).mp hh), hk.noff.trans ho.2⟩

theorem Hart.lmLock_in (hl : h.lmLock l = some h') : In l (h.noff + 1) h' := by
  obtain ⟨-, hcpu, hnoff, hlocked⟩ := Hart.lmLock_spec hl
  refine ⟨?_, hnoff⟩
  rw [Hart.holding, hlocked, Function.update_self, hcpu]

theorem Hart.lmUnlock_out (hl : h.lmUnlock l = some h') (hi : h.noff = n + 1) : Out l n h' := by
  obtain ⟨-, hcpu, hnoff, hlocked⟩ := Hart.lmUnlock_spec hl
  refine ⟨?_, by omega⟩
  rw [Hart.holding, hlocked, Function.update_self]
  exact Option.some_ne_none _ ∘ Eq.symm

/-- A lock does not touch the others. -/
theorem Hart.lmLock_other (hne : l' ≠ l) (hl : h.lmLock l = some h') :
    h'.holding l' ↔ h.holding l' := by
  obtain ⟨-, hcpu, -, hlocked⟩ := Hart.lmLock_spec hl
  rw [Hart.holding, Hart.holding, hlocked, Function.update_of_ne hne, hcpu]

theorem Hart.lmUnlock_other (hne : l' ≠ l) (hl : h.lmUnlock l = some h') :
    h'.holding l' ↔ h.holding l' := by
  obtain ⟨-, hcpu, -, hlocked⟩ := Hart.lmUnlock_spec hl
  rw [Hart.holding, Hart.holding, hlocked, Function.update_of_ne hne, hcpu]

/-! ### Rules -/

section Rules

variable {α : Type} {Q : α → Machine → Prop}

@[simp] theorem always_onHart {f : Hart → Option Hart} {Q : Unit → Machine → Prop} :
    Always (onHart f) m Q ↔ ∀ h, f m.hart = some h → Q () { m with hart := h } := by
  constructor
  · intro ha h hf
    exact ha () _ (by simp [onHart, hf])
  · intro ha a m' hm
    obtain ⟨h, hf, he⟩ := Option.map_eq_some_iff.mp hm
    cases he
    exact ha h hf

@[simp] theorem always_input {Q : Input → Machine → Prop} : Always input m Q ↔ Q m.input m := by
  constructor
  · intro ha
    exact ha _ _ rfl
  · intro hq a m' hm
    cases hm
    exact hq

@[simp] theorem always_setInput {f : Input → Input} {Q : Unit → Machine → Prop} :
    Always (setInput f) m Q ↔ Q () { m with input := f m.input } := by
  constructor
  · intro ha
    exact ha _ _ rfl
  · intro hq a m' hm
    cases hm
    exact hq

@[simp] theorem always_never : Always (never : DevM α) m Q := always_failure

theorem mytask_kept : Always mytask m fun _ m' => Kept m.hart m'.hart ∧ m'.input = m.input := by
  refine always_onHart.mpr fun h hh => ⟨?_, rfl⟩
  obtain ⟨hcpu, hnoff, hlocked⟩ := Hart.uninterrupted_spec hh
  exact kept_of_eq hcpu hnoff fun l _ => by rw [hlocked]

theorem uartPutc_kept : Always uartPutc m fun _ m' => Kept m.hart m'.hart :=
  mytask_kept.mono fun _ _ h => h.1

theorem printf_kept (s : List Char) : Always (printf s) m fun _ m' => Kept m.hart m'.hart := by
  induction s generalizing m with
  | nil => exact always_pure.mpr .refl
  | cons c s ih =>
    refine always_bind.mpr (uartPutc_kept.mono fun _ m₁ h₁ => ?_)
    exact ih.mono fun _ _ h₂ => h₁.trans h₂

theorem wakeupLoop_kept (k t : ℕ) :
    Always (wakeupLoop S k t) m fun _ m' => Kept m.hart m'.hart := by
  induction k generalizing m t with
  | zero => exact always_pure.mpr .refl
  | succ k ih =>
    unfold wakeupLoop
    split_ifs
    · simp only [always_bind, lmLock, lmUnlock, always_onHart]
      intro h₁ hlock h₂ hunlock
      have hone : Kept m.hart h₂ := by
        obtain ⟨-, hnoff, -⟩ := (Hart.lmLock_spec hlock).2
        have hback := (Hart.lmUnlock_spec hunlock).2.2.1
        refine ⟨by omega, fun l hl => ?_⟩
        exact (Hart.lmUnlock_other (hl t) hunlock).trans (Hart.lmLock_other (hl t) hlock)
      exact (ih (t + 1)).mono fun _ _ h => hone.trans h
    · exact ih (t + 1)

theorem wakeup_kept : Always (wakeup S) m fun _ m' => Kept m.hart m'.hart := by
  refine always_bind.mpr (mytask_kept.mono fun _ m₁ h₁ => ?_)
  exact (wakeupLoop_kept _ _).mono fun _ _ h₂ => h₁.1.trans h₂

theorem freeDesc_kept : Always (freeDesc S) m fun _ m' => Kept m.hart m'.hart := by
  simp only [freeDesc, always_bind, always_setInput]
  exact wakeup_kept

/-- `sleep` gives back the lock it was called with, and no other. -/
theorem sleep_spec : Always (sleep S l) m fun _ m' =>
    In l m.hart.noff m'.hart ∧ ∀ l' : Spinlock, l'.OfDevice → l' ≠ l → ¬ m'.hart.holding l' := by
  simp only [sleep, sched, always_bind, lmLock, lmUnlock, always_onHart]
  refine mytask_kept.mono fun _ m₁ h₁ h₂ hlock h₃ hunlock => ?_
  refine mytask_kept.mono fun _ m₄ h₄ h₅ hcheck => ?_
  split_ifs at hcheck with hok
  cases hcheck
  intro _ m₅ hswtch h₆ hdrop h₇ htake
  unfold swtch at hswtch
  split at hswtch
  case h_1 => cases hswtch
  case h_2 w wakes hwakes =>
    cases hswtch
    have hnoff₂ := (Hart.lmLock_spec hlock).2.2.1
    have hnoff₃ := (Hart.lmUnlock_spec hunlock).2.2.1
    have hnoff₄ := h₄.1.noff
    have hnoff₁ := h₁.1.noff
    have hdropped := Hart.lmUnlock_spec hdrop
    dsimp only at hnoff₄ hdropped
    have hin := Hart.lmLock_in htake
    have hone : m.hart.noff = 1 := by omega
    refine ⟨⟨hin.1, ?_⟩, fun l' hl' hne hheld => ?_⟩
    · have hzero : h₇.noff = h₆.noff + 1 := hin.2
      have hback := hdropped.2.2.1
      omega
    · have hbefore := (Hart.lmUnlock_other (hl' S.self) hdrop).mp
        ((Hart.lmLock_other hne htake).mp hheld)
      rw [Hart.holding] at hbefore
      dsimp only at hbefore
      rw [Function.update_of_ne (hl' S.self)] at hbefore
      exact w.alone l' hbefore

theorem eitherCopyout_spec {userDst : ℤ} {dst src len : ℕ} (hu : userDst ≠ 0) :
    Always (eitherCopyout S userDst dst src len) m fun r m' => Kept m.hart m'.hart ∧
      m'.input = m.input ∧ (r = 0 ∨ r = -1) ∧ (r = 0 ↔ ∀ i < len, Mapped S.table (dst + i)) := by
  unfold eitherCopyout
  rw [if_pos hu]
  refine always_bind.mpr (mytask_kept.mono fun _ m₁ ⟨h₁, hin⟩ => ?_)
  obtain ⟨r, mem, hcopy, hr, hiff, -⟩ := Vm.copyout_spec S.table m₁.mem dst src len
  intro r' m' hm
  simp only [onMem, hcopy, Option.some.injEq, Prod.mk.injEq] at hm
  obtain ⟨rfl, rfl⟩ := hm
  exact ⟨h₁, hin, hr, hiff⟩

theorem eitherCopyin_spec {dst src len : ℕ} :
    Always (eitherCopyin S dst src len) m fun r m' => Kept m.hart m'.hart ∧
      (r = 0 ∨ r = -1) ∧ (r = 0 ↔ ∀ i < len, Mapped S.table (src + i)) := by
  unfold eitherCopyin
  refine always_bind.mpr (mytask_kept.mono fun _ m₁ ⟨h₁, _⟩ => ?_)
  obtain ⟨r, mem, hcopy, hr, hiff, -⟩ := Vm.copyin_spec S.table m₁.mem dst src len
  intro r' m' hm
  simp only [onMem, hcopy, Option.some.injEq, Prod.mk.injEq] at hm
  obtain ⟨rfl, rfl⟩ := hm
  exact ⟨h₁, hr, hiff⟩

end Rules

/-! ### Handlers -/

section Handlers

theorem allocDescs_out (hl : l.OfDevice) (hne : l ≠ .vgpu) (ho : Out l n m.hart) :
    Always (allocDescs S fuel) m fun _ m' => Out l n m'.hart := by
  have hsleep {m : Machine} (ho : Out l n m.hart) :
      Always (sleep S .vgpu) m fun _ m' => Out l n m'.hart :=
    sleep_spec.mono fun _ m' h => ⟨h.2 l hl hne, h.1.2.trans ho.2⟩
  induction fuel generalizing m with
  | zero => exact always_never
  | succ fuel ih =>
    simp only [allocDescs, always_bind, always_input]
    split_ifs
    · exact always_setInput.mpr ho
    · simp only [always_bind, always_setInput]
      refine freeDesc_kept.mono fun _ m₁ h₁ => ?_
      exact (hsleep (h₁.out hl ho)).mono fun _ m₂ h₂ => ih h₂
    · exact always_bind.mpr ((hsleep ho).mono fun _ m₁ h₁ => ih h₁)

theorem awaitGpu_out (hl : l.OfDevice) (hne : l ≠ .vgpu) (ho : Out l n m.hart) :
    Always (awaitGpu S fuel) m fun _ m' => Out l n m'.hart := by
  induction fuel generalizing m with
  | zero => exact always_never
  | succ fuel ih =>
    simp only [awaitGpu, always_bind, always_input]
    split_ifs
    · refine always_bind.mpr (sleep_spec.mono fun _ m₁ h₁ => ?_)
      exact ih ⟨h₁.2 l hl hne, h₁.1.2.trans ho.2⟩
    · exact always_pure.mpr ho

theorem gpuCommand_out {name : List Char} (hl : l.OfDevice) (hne : l ≠ .vgpu)
    (ho : Out l n m.hart) : Always (gpuCommand S fuel name) m fun _ m' => Out l n m'.hart := by
  simp only [gpuCommand, always_bind, always_setInput, always_input, lmLock, lmUnlock,
    always_onHart]
  intro h₁ hlock
  have hbusy : Out l (n + 1) h₁ :=
    ⟨fun hh => ho.1 ((Hart.lmLock_other hne hlock).mp hh), by
      rw [(Hart.lmLock_spec hlock).2.2.1, ho.2]⟩
  refine (allocDescs_out hl hne hbusy).mono fun _ m₂ h₂ => ?_
  refine Always.mono (awaitGpu_out hl hne h₂) fun _ m₃ h₃ => ?_
  refine freeDesc_kept.mono fun _ m₄ h₄ => freeDesc_kept.mono fun _ m₅ h₅ h₆ hunlock => ?_
  have hheld : Out l (n + 1) m₅.hart := h₅.out hl (h₄.out hl h₃)
  have hfree : Out l n h₆ := by
    have hback := (Hart.lmUnlock_spec hunlock).2.2.1
    have hnoff := hheld.2
    exact ⟨fun hh => hheld.1 ((Hart.lmUnlock_other hne hunlock).mp hh), by omega⟩
  split_ifs
  · exact (printf_kept name).mono fun _ m₇ h₇ => h₇.out hl hfree
  · exact always_never

/-- The inner loop of `console_read` returns with the lock, or without it to a killed task. -/
theorem awaitInput_spec (hi : In .cons (n + 1) m.hart) : Always (awaitInput S fuel) m
    fun there m' => if there = true then In .cons (n + 1) m'.hart else Out .cons n m'.hart := by
  induction fuel generalizing m with
  | zero => exact always_never
  | succ fuel ih =>
    rw [awaitInput, always_bind, always_input, always_ite]
    constructor
    · intro hempty
      refine always_bind.mpr (mytask_kept.mono fun _ m₁ h₁ => ?_)
      have hin := h₁.1.in (Device.lock_ofDevice .console) hi
      rw [always_ite]
      constructor
      · intro hkilled
        simp only [always_bind, lmUnlock, always_onHart, always_pure]
        intro h hunlock
        exact Hart.lmUnlock_out hunlock hin.2
      · intro hlives
        refine always_bind.mpr (sleep_spec.mono fun _ m₂ h₂ => ?_)
        have hback := h₂.1
        rw [hin.2] at hback
        exact ih hback
    · intro hthere
      exact always_pure.mpr hi

theorem consoleReadLoop_spec {target : BitVec 32} {dst k : BitVec 64}
    (hi : In .cons (n + 1) m.hart) : Always (consoleReadLoop S target fuel dst k) m
      fun left m' => match left with
        | none => Out .cons n m'.hart
        | some _ => In .cons (n + 1) m'.hart := by
  induction fuel generalizing m dst k with
  | zero => exact always_never
  | succ fuel ih =>
    rw [consoleReadLoop, always_ite]
    constructor
    · intro hmore
      refine always_bind.mpr ((awaitInput_spec hi).mono fun there m₁ h₁ => ?_)
      cases there with
      | false => exact always_pure.mpr h₁
      | true =>
        have hin : In .cons (n + 1) m₁.hart := h₁
        simp only [Bool.not_true, Bool.false_eq_true, ↓reduceIte, always_bind, always_input,
          setConsR, always_setInput, always_ite, always_pure]
        refine ⟨fun heof => ⟨fun _ => hin, fun _ => hin⟩, fun hbyte => ?_⟩
        have hcopy : (1 : ℤ) ≠ 0 := by decide
        refine (eitherCopyout_spec hcopy).mono fun r m₂ h₂ => ?_
        have hthere : In .cons (n + 1) m₂.hart := h₂.1.in (Device.lock_ofDevice .console) hin
        exact ⟨fun _ => hthere, fun _ => ⟨fun _ => hthere, fun _ => ih hthere⟩⟩
    · intro hdone
      exact always_pure.mpr hi

theorem consoleRead_out {dst k : BitVec 64} (hn : m.hart.noff = n) :
    Always (consoleRead S fuel dst k) m fun _ m' => Out .cons n m'.hart := by
  simp only [consoleRead, always_bind, lmLock, lmUnlock, always_onHart]
  intro h₁ hlock
  have hin : In .cons (n + 1) h₁ := by
    have hin := Hart.lmLock_in hlock
    rwa [hn] at hin
  refine Always.mono (consoleReadLoop_spec hin) fun left m₂ h₂ => ?_
  cases left with
  | none => exact always_pure.mpr h₂
  | some left =>
    simp only [always_bind, always_onHart, always_pure]
    intro h₃ hunlock
    exact Hart.lmUnlock_out hunlock h₂.2

theorem consoleWrite_kept {src k : BitVec 64} :
    Always (consoleWrite S fuel src k) m fun _ m' => Kept m.hart m'.hart := by
  have hloop (i : BitVec 32) :
      Always (consoleWriteLoop S src k fuel i) m fun _ m' => Kept m.hart m'.hart := by
    induction fuel generalizing m i with
    | zero => exact always_never
    | succ fuel ih =>
      unfold consoleWriteLoop
      split_ifs
      · refine always_bind.mpr (eitherCopyin_spec.mono fun r m₁ h₁ => ?_)
        split_ifs
        · exact always_pure.mpr h₁.1
        · refine always_bind.mpr (uartPutc_kept.mono fun _ m₂ h₂ => ?_)
          exact (ih (i + 1)).mono fun _ m₃ h₃ => (h₁.1.trans h₂).trans h₃
      · exact always_pure.mpr .refl
  exact always_bind.mpr ((hloop 0).mono fun i m₁ h₁ => always_pure.mpr h₁)

/-- A read of events keeps the lock when the copy fails. -/
def keyboardLeaks (S : Setting) (x : Input) (dst k : BitVec 64) : Prop :=
  ¬ k < BitVec.ofNat 64 sizeofKeyboardEvent ∧ x.keyboard.head ≠ x.keyboard.tail ∧
    ∃ i < (copySize x.keyboard k).toNat, ¬ Mapped S.table (dst.toNat + i)

theorem keyboardReadEvent_spec {dst k : BitVec 64} (ho : Out .keyboard n m.hart) :
    Always (keyboardReadEvent S dst k) m fun _ m' =>
      (Out .keyboard n m'.hart ↔ ¬ keyboardLeaks S m.input dst k) := by
  unfold keyboardReadEvent
  split_ifs with hshort
  · exact always_pure.mpr (iff_of_true ho fun hleaks => hleaks.1 hshort)
  simp only [always_bind, lmLock, lmUnlock, always_onHart, always_input]
  intro h₁ hlock
  have hin : In .keyboard (n + 1) h₁ := by
    have hin := Hart.lmLock_in hlock
    rwa [ho.2] at hin
  split_ifs with hempty
  · simp only [always_bind, always_onHart, always_pure]
    intro h₂ hunlock
    exact iff_of_true (Hart.lmUnlock_out hunlock hin.2) fun hleaks => hleaks.2.1 hempty
  have hcopy : (1 : ℤ) ≠ 0 := by decide
  refine always_bind.mpr ((eitherCopyout_spec hcopy).mono fun r m₂ h₂ => ?_)
  obtain ⟨hkept, -, -, hiff⟩ := h₂
  have hthere : In .keyboard (n + 1) m₂.hart := hkept.in (Device.lock_ofDevice .keyboard) hin
  split_ifs with hr
  · refine always_pure.mpr (iff_of_false (fun hout => hout.1 hthere.1) ?_)
    rw [not_not]
    by_contra hleaks
    refine hr (hiff.mpr fun i hi => ?_)
    by_contra hunmapped
    exact hleaks ⟨hshort, hempty, i, hi, hunmapped⟩
  · simp only [always_bind, always_setInput, always_onHart, always_pure]
    intro h₃ hunlock
    refine iff_of_true (Hart.lmUnlock_out hunlock hthere.2) fun hleaks => ?_
    obtain ⟨-, -, i, hi, hunmapped⟩ := hleaks
    exact hunmapped (hiff.mp (not_not.mp hr) i hi)

/-- But for the lock the handler does to the queue what it does there, where the lock is a
flag of the keyboard. -/
theorem keyboardReadEvent_refines {dst k : BitVec 64} :
    Always (keyboardReadEvent S dst k) m fun r m' => ∃ copied : Bool,
      (copied = true ↔ ∀ i < (copySize m.input.keyboard k).toNat, Mapped S.table (dst.toNat + i)) ∧
      (Driver.keyboardReadEvent m.input.keyboard k copied).2.1 = r ∧
      { m'.input.keyboard with
          locked := (Driver.keyboardReadEvent m.input.keyboard k copied).1.locked } =
        (Driver.keyboardReadEvent m.input.keyboard k copied).1 := by
  obtain ⟨copied, hcopied⟩ : ∃ copied : Bool, copied = true ↔
      ∀ i < (copySize m.input.keyboard k).toNat, Mapped S.table (dst.toNat + i) := by
    refine ⟨decide _, decide_eq_true_iff⟩
  unfold keyboardReadEvent Driver.keyboardReadEvent
  rw [always_ite]
  constructor
  · intro hshort
    refine always_pure.mpr ⟨copied, hcopied, ?_⟩
    simp only [if_pos hshort, and_self]
  intro hlong
  simp only [if_neg hlong, always_bind, always_ite, always_pure, always_input, always_setInput,
    lmLock, lmUnlock, always_onHart]
  intro h₁ hlock
  constructor
  · intro hempty h₂ hunlock
    refine ⟨copied, hcopied, ?_⟩
    simp only [if_pos hempty, and_self]
  intro hwaiting
  have hcopy : (1 : ℤ) ≠ 0 := by decide
  refine (eitherCopyout_spec hcopy).mono fun r m₂ h₂ => ?_
  obtain ⟨-, hinput, -, hiff⟩ := h₂
  constructor
  · intro hfail
    refine ⟨copied, hcopied, ?_⟩
    have hno : copied = false := by
      rw [← Bool.not_eq_true, hcopied, ← hiff]
      exact hfail
    simp only [if_neg hwaiting, hno, hinput, Bool.not_false, ↓reduceIte, and_self]
  · intro hdone h₃ hunlock
    refine ⟨copied, hcopied, ?_⟩
    have hyes : copied = true := hcopied.mpr (hiff.mp (not_not.mp hdone))
    simp only [if_neg hwaiting, hyes, hinput, Bool.not_true, Bool.false_eq_true, ↓reduceIte,
      and_self]

/-- A write to the monitor keeps the lock when the buffer is too short or cannot be copied. -/
def monitorLeaks (S : Setting) (src k : BitVec 64) : Prop :=
  k < S.bufLen ∨ ∃ i < S.bufLen.toNat, ¬ Mapped S.table (src.toNat + i)

theorem monitorWrite_spec {src k : BitVec 64} (ho : Out .monitor0 n m.hart) :
    Always (monitorWrite S fuel src k) m fun _ m' =>
      (Out .monitor0 n m'.hart ↔ ¬ monitorLeaks S src k) := by
  have hdev := Device.lock_ofDevice .monitor0
  simp only [monitorWrite, always_bind, lmLock, lmUnlock, always_onHart]
  intro h₁ hlock
  have hin : In .monitor0 (n + 1) h₁ := by
    have hin := Hart.lmLock_in hlock
    rwa [ho.2] at hin
  split_ifs with hshort
  · exact always_pure.mpr (iff_of_false (fun hout => hout.1 hin.1) (not_not.mpr (Or.inl hshort)))
  refine always_bind.mpr (eitherCopyin_spec.mono fun r m₂ h₂ => ?_)
  obtain ⟨hkept, hr, hiff⟩ := h₂
  have hthere : In .monitor0 (n + 1) m₂.hart := hkept.in hdev hin
  split_ifs with hfail
  · refine always_pure.mpr (iff_of_false (fun hout => hout.1 hthere.1) (not_not.mpr (Or.inr ?_)))
    by_contra hall
    have hzero : r = 0 := hiff.mpr fun i hi => by
      by_contra hunmapped
      exact hall ⟨i, hi, hunmapped⟩
    omega
  · have hzero : r = 0 := hr.resolve_right hfail
    simp only [always_bind, always_onHart, always_pure]
    intro h₃ hunlock
    have hout : Out .monitor0 n h₃ := Hart.lmUnlock_out hunlock hthere.2
    have hne : Spinlock.monitor0 ≠ .vgpu := by decide
    refine Always.mono (gpuCommand_out hdev hne hout) fun _ m₄ h₄ => ?_
    refine Always.mono (gpuCommand_out hdev hne h₄) fun _ m₅ h₅ => iff_of_true h₅ ?_
    rintro (hlt | ⟨i, hi, hunmapped⟩)
    · exact hshort hlt
    · exact hunmapped (hiff.mp hzero i hi)

/-- With the request 0 the info goes to a kernel address, and may hit the lock or `noff`. -/
def ioctlLeaks (S : Setting) (h : Hart) (request : BitVec 32) (buf : BitVec 64) : Prop :=
  request = 0 ∧ ∃ h₁ h₂, h.uninterrupted = some h₁ ∧ S.store buf.toNat h₁ = some h₂ ∧
    ¬ Out .monitor0 h.noff h₂

theorem monitorIoctl_spec {request : BitVec 32} {buf : BitVec 64}
    (ho : Out .monitor0 m.hart.noff m.hart) :
    Always (monitorIoctl S request.toInt 1 buf) m fun _ m' =>
      (Out .monitor0 m.hart.noff m'.hart ↔ ¬ ioctlLeaks S m.hart request buf) := by
  have hdev := Device.lock_ofDevice .monitor0
  have hsize : ¬ BitVec.ofNat 64 sizeofMonitorInfo < BitVec.ofNat 64 sizeofMonitorInfo := by decide
  have hcmd : (1 : BitVec 64) = MONITOR_GET_INFO := rfl
  unfold monitorIoctl getMonitorInfo
  rw [if_pos hcmd, if_neg hsize]
  simp only [always_bind, always_ite, always_pure]
  by_cases hzero : request = 0
  · subst hzero
    simp only [eitherCopyout, mytask, always_bind, always_onHart, always_ite, always_pure]
    intro h₁ hmine
    refine ⟨fun hne => absurd rfl hne, fun _ h₂ hstore => ?_⟩
    have hiff : Out .monitor0 m.hart.noff h₂ ↔ ¬ ioctlLeaks S m.hart 0 buf := by
      constructor
      · rintro hout ⟨-, h₁', h₂', hmine', hstore', hhit⟩
        cases hmine.symm.trans hmine'
        cases hstore.symm.trans hstore'
        exact hhit hout
      · intro hleaks
        by_contra hhit
        exact hleaks ⟨rfl, h₁, h₂, hmine, hstore, hhit⟩
    exact ⟨fun _ => hiff, fun _ => hiff⟩
  · have hu : request.toInt ≠ 0 := fun hint => hzero (BitVec.eq_of_toInt_eq hint)
    refine (eitherCopyout_spec hu).mono fun r m₁ h₁ => ?_
    have hiff := iff_of_true (h₁.1.out hdev ho) fun hleaks : ioctlLeaks S m.hart request buf =>
      hzero hleaks.1
    exact ⟨fun _ => hiff, fun _ => hiff⟩

end Handlers

/-! ### Calls -/

/-- The calls that leave the lock of their device with the CPU or `noff` changed. -/
def Leaks (S : Setting) (m : Machine) : Device → DeviceCall → Prop
  | .keyboard, .read buf count => keyboardLeaks S m.input buf (count.signExtend 64)
  | .monitor0, .write buf count => monitorLeaks S buf (count.signExtend 64)
  | .monitor0, .ioctl request buf => ioctlLeaks S m.hart request buf
  | _, _ => False

theorem deviceCall_spec {d : Device} {call : DeviceCall} (ho : Out d.lock n m.hart) :
    Always (deviceCall S fuel d call) m fun _ m' =>
      (Out d.lock n m'.hart ↔ ¬ Leaks S m d call) := by
  have hmap {p : DevM (BitVec 64)} {P : Machine → Prop} (h : Always p m fun _ m' => P m') :
      Always (some <$> p) m fun _ m' => P m' := by
    rw [map_eq_pure_bind, always_bind]
    exact h.mono fun _ _ h => always_pure.mpr h
  have hnone {P : Prop} (h : ¬ P) :
      Always (return none : DevM (Option (BitVec 64))) m fun _ m' => (Out d.lock n m'.hart ↔ ¬ P) :=
    always_pure.mpr (iff_of_true ho h)
  cases d with
  | console =>
    cases call with
    | write buf count =>
      exact hmap (consoleWrite_kept.mono fun _ m₁ h₁ =>
        iff_of_true (h₁.out (Device.lock_ofDevice .console) ho) id)
    | read buf count =>
      exact hmap ((consoleRead_out ho.2).mono fun _ m₁ h₁ => iff_of_true h₁ id)
    | ioctl request buf => exact hnone id
  | monitor0 =>
    cases call with
    | write buf count => exact hmap (monitorWrite_spec ho)
    | read buf count => exact hnone id
    | ioctl request buf =>
      obtain ⟨hout, rfl⟩ := ho
      exact hmap (monitorIoctl_spec ⟨hout, rfl⟩)
  | keyboard =>
    cases call with
    | write buf count => exact hnone id
    | read buf count => exact hmap (keyboardReadEvent_spec ho)
    | ioctl request buf => exact hnone id

/-- A call on a device that returns has given back the lock of the device, and `noff` is what
it was, if and only if it is none of those that leak. -/
theorem device_calls_release (S : Setting) (fuel : ℕ) (d : Device) (call : DeviceCall)
    (m m' : Machine) (r : Option (BitVec 64)) (hfree : ¬ m.hart.holding d.lock)
    (hr : deviceCall S fuel d call m = some (r, m')) :
    (¬ m'.hart.holding d.lock ∧ m'.hart.noff = m.hart.noff) ↔ ¬ Leaks S m d call :=
  deviceCall_spec ⟨hfree, rfl⟩ r m' hr

/-! ### Leaking calls return -/

theorem onHart_returns {f : Hart → Option Hart} (hf : f m.hart = some h) :
    onHart f m = some ((), { m with hart := h }) := by
  rw [onHart, hf, Option.map_some]

theorem lmLock_returns (hfree : m.hart.locked l = none) :
    ∃ m₁, lmLock l m = some ((), m₁) ∧ m₁.input = m.input :=
  ⟨_, onHart_returns (f := Hart.lmLock l) (if_pos hfree), rfl⟩

theorem Hart.uninterrupted_returns (h : Hart) : ∃ h', h.uninterrupted = some h' := by
  have hoff : ¬ (h.pushOff.intr = true ∨ h.pushOff.noff < 1) := by
    simp [Hart.pushOff]
  unfold Hart.uninterrupted Hart.popOff
  rw [if_neg hoff]
  exact ⟨_, rfl⟩

theorem eitherCopyout_returns (S : Setting) (m : Machine) {userDst : ℤ} (dst src len : ℕ)
    (hu : userDst ≠ 0) : ∃ r m₁, eitherCopyout S userDst dst src len m = some (r, m₁) := by
  obtain ⟨h, hmine⟩ := m.hart.uninterrupted_returns
  obtain ⟨r, mem, hcopy, -⟩ := Vm.copyout_spec S.table m.mem dst src len
  refine ⟨r, ⟨h, m.input, mem, m.wakes⟩, bind_eq_some.mpr ⟨(), _, onHart_returns hmine, ?_⟩⟩
  rw [if_pos hu, onMem, hcopy]

theorem eitherCopyin_returns (S : Setting) (m : Machine) (dst src len : ℕ) :
    ∃ r m₁, eitherCopyin S dst src len m = some (r, m₁) := by
  obtain ⟨h, hmine⟩ := m.hart.uninterrupted_returns
  obtain ⟨r, mem, hcopy, -⟩ := Vm.copyin_spec S.table m.mem dst src len
  refine ⟨r, ⟨h, m.input, mem, m.wakes⟩, bind_eq_some.mpr ⟨(), _, onHart_returns hmine, ?_⟩⟩
  rw [onMem, hcopy]

theorem keyboardReadEvent_returns {dst k : BitVec 64} (hfree : m.hart.locked .keyboard = none)
    (hleaks : keyboardLeaks S m.input dst k) :
    ∃ m', keyboardReadEvent S dst k m = some (-1, m') := by
  obtain ⟨hlong, hwaiting, i, hi, hunmapped⟩ := hleaks
  obtain ⟨m₁, hlock, hinput⟩ := lmLock_returns hfree
  have hcopy : (1 : ℤ) ≠ 0 := by decide
  obtain ⟨r, m₂, hr⟩ := eitherCopyout_returns S m₁ dst.toNat
    ((S.keyboardBuffer + 4 * m.input.keyboard.tail) % 2 ^ 64).toNat
    (copySize m.input.keyboard k).toNat hcopy
  have hfail : r ≠ 0 := fun hzero =>
    hunmapped ((eitherCopyout_spec hcopy r m₂ hr).2.2.2.mp hzero i hi)
  refine ⟨m₂, ?_⟩
  rw [keyboardReadEvent, if_neg hlong]
  refine bind_eq_some.mpr ⟨(), m₁, hlock, bind_eq_some.mpr ⟨m₁.input, m₁, rfl, ?_⟩⟩
  rw [hinput, if_neg hwaiting]
  refine bind_eq_some.mpr ⟨r, m₂, hr, ?_⟩
  rw [if_pos hfail]
  rfl

theorem monitorWrite_returns {src k : BitVec 64} (hfree : m.hart.locked .monitor0 = none)
    (hleaks : monitorLeaks S src k) : ∃ m', monitorWrite S fuel src k m = some (-1, m') := by
  obtain ⟨m₁, hlock, -⟩ := lmLock_returns hfree
  by_cases hshort : k < S.bufLen
  · refine ⟨m₁, bind_eq_some.mpr ⟨(), m₁, hlock, ?_⟩⟩
    rw [if_pos hshort]
    rfl
  · obtain ⟨i, hi, hunmapped⟩ := hleaks.resolve_left hshort
    obtain ⟨r, m₂, hr⟩ := eitherCopyin_returns S m₁ S.framebuffer src.toNat S.bufLen.toNat
    obtain ⟨-, hcases, hiff⟩ := eitherCopyin_spec r m₂ hr
    have hfail : r = -1 := hcases.resolve_left fun hzero => hunmapped (hiff.mp hzero i hi)
    refine ⟨m₂, bind_eq_some.mpr ⟨(), m₁, hlock, ?_⟩⟩
    rw [if_neg hshort]
    refine bind_eq_some.mpr ⟨r, m₂, hr, ?_⟩
    rw [if_pos hfail]
    rfl

theorem monitorIoctl_returns {buf : BitVec 64} (hleaks : ioctlLeaks S m.hart 0 buf) :
    ∃ r m', monitorIoctl S 0 1 buf m = some (r, m') := by
  obtain ⟨-, h₁, h₂, hmine, hstore, -⟩ := hleaks
  have hsize : ¬ BitVec.ofNat 64 sizeofMonitorInfo < BitVec.ofNat 64 sizeofMonitorInfo := by decide
  have hcopy : eitherCopyout S 0 buf.toNat S.locals sizeofMonitorInfo m =
      some (0, { m with hart := h₂ }) := by
    refine bind_eq_some.mpr ⟨(), _, onHart_returns hmine, ?_⟩
    rw [if_neg (not_not.mpr rfl)]
    exact bind_eq_some.mpr ⟨(), _, onHart_returns hstore, rfl⟩
  have hget : getMonitorInfo S 0 buf (BitVec.ofNat 64 sizeofMonitorInfo) m =
      some (BitVec.ofNat 64 sizeofMonitorInfo, { m with hart := h₂ }) := by
    rw [getMonitorInfo, if_neg hsize]
    exact bind_eq_some.mpr ⟨0, _, hcopy, rfl⟩
  exact ⟨_, _, hget⟩

/-- A leaking call that finds the lock free returns, and leaks. -/
theorem leaking_call_returns {d : Device} {call : DeviceCall}
    (hfree : m.hart.locked d.lock = none) (hleaks : Leaks S m d call) :
    ∃ r m', deviceCall S fuel d call m = some (r, m') ∧ ¬ Out d.lock m.hart.noff m'.hart := by
  have hout : Out d.lock m.hart.noff m.hart := by
    refine ⟨fun hheld => ?_, rfl⟩
    rw [Hart.holding, hfree] at hheld
    cases hheld
  have hreturns : ∃ r m', deviceCall S fuel d call m = some (r, m') := by
    have hsome {p : DevM (BitVec 64)} {r : BitVec 64} {m' : Machine} (hp : p m = some (r, m')) :
        (some <$> p) m = some (some r, m') := by
      rw [map_eq_pure_bind]
      exact bind_eq_some.mpr ⟨r, m', hp, rfl⟩
    cases d with
    | console => cases call <;> exact hleaks.elim
    | monitor0 =>
      cases call with
      | write buf count =>
        obtain ⟨m', hm⟩ := monitorWrite_returns hfree hleaks
        exact ⟨_, m', hsome hm⟩
      | read buf count => exact hleaks.elim
      | ioctl request buf =>
        obtain rfl : request = 0 := hleaks.1
        obtain ⟨r, m', hm⟩ := monitorIoctl_returns hleaks
        exact ⟨_, m', hsome hm⟩
    | keyboard =>
      cases call with
      | read buf count =>
        obtain ⟨m', hm⟩ := keyboardReadEvent_returns hfree hleaks
        exact ⟨_, m', hsome hm⟩
      | write buf count => exact hleaks.elim
      | ioctl request buf => exact hleaks.elim
  obtain ⟨r, m', hr⟩ := hreturns
  exact ⟨r, m', hr, fun hkept => (deviceCall_spec hout r m' hr).mp hkept hleaks⟩

/-! ### A read into a page that is not mapped -/

/-- Nothing is mapped and the framebuffer is empty. -/
def unmapped : Setting where
  self := 1
  table := fun _ => 0
  keyboardBuffer := 0
  locals := 0
  framebuffer := 0
  bufLen := 0
  store := fun _ => some

/-- CPU 0 enters a call with interrupts on and `events` waiting at the keyboard. -/
def entry (events : ℤ) : Machine where
  hart := ⟨0, 0, true, true, fun _ => none⟩
  input := {
    keyboard := ⟨false, fun _ => ⟨0, 0, 0⟩, events, 0⟩
    cons := ⟨fun _ => 0, 0, 0, 0⟩
    killed := false
    gpuFree := 8
    gpuPending := false
    gpuOk := true }
  mem := ⟨fun _ => 0, fun _ => 0, fun _ => 0⟩
  wakes := []

/-- CPU 0 reads from a console without a line; when the task goes on, on CPU 1, there is one. -/
def lineLater : Machine :=
  { entry 0 with
    wakes := [{
      cpu := 1
      input := { (entry 0).input with cons := ⟨fun _ => 10, 0, 1, 1⟩ }
      mem := (entry 0).mem
      locked := fun _ => none
      alone := fun _ => by simp }] }

theorem sleeping_read_releases : ∃ r m',
    deviceCall unmapped 4 .console (.read 0 1) lineLater = some (r, m') ∧ m'.hart.cpu = 1 ∧
      ¬ m'.hart.holding .cons ∧ m'.hart.noff = lineLater.hart.noff := by
  have hr : (deviceCall unmapped 4 .console (.read 0 1) lineLater).map
      (fun x => x.2.hart.cpu) = some 1 := by decide +kernel
  obtain ⟨⟨r, m'⟩, hr, hcpu⟩ := Option.map_eq_some_iff.mp hr
  exact ⟨r, m', hr, hcpu, (device_calls_release unmapped 4 .console (.read 0 1) lineLater m' r
    (by decide) hr).mpr id⟩

/-- A read of one event into a page that is not mapped keeps the lock of the keyboard. -/
theorem failed_read_keeps_lock : ¬ ∀ (S : Setting) (fuel : ℕ) (d : Device) (call : DeviceCall)
    (m m' : Machine) (r : Option (BitVec 64)), ¬ m.hart.holding d.lock →
      deviceCall S fuel d call m = some (r, m') →
        ¬ m'.hart.holding d.lock ∧ m'.hart.noff = m.hart.noff := by
  intro hall
  have hr : (deviceCall unmapped 0 .keyboard (.read 0 4) (entry 1)).map
      (fun x => (decide (x.2.hart.holding .keyboard), x.2.hart.noff)) = some (true, 1) := by
    decide
  obtain ⟨⟨r, m'⟩, hr, hend⟩ := Option.map_eq_some_iff.mp hr
  obtain ⟨hheld, -⟩ := Prod.mk.inj hend
  have hfree := (hall unmapped 0 .keyboard (.read 0 4) (entry 1) m' r (by decide) hr).1
  exact hfree (of_decide_eq_true hheld)

end Zrhos.Devices
