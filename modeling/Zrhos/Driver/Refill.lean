import Zrhos.Driver.VirtioInput

/-! The second loop of `virtio_input_intr` while the device does nothing. -/
namespace Zrhos.Driver

/-- The handler comes to its end, for the first time with `availIdx` in the avail ring. -/
def RefillEnds (input : VirtioInput) (availIdx : BitVec 16) : Prop :=
  ∃ n, (virtioInputIntr^[n] input).handler = .idle ∧
    (∀ m < n, (virtioInputIntr^[m] input).handler ≠ .idle) ∧
    (virtioInputIntr^[n] input).avail.idx = availIdx

variable {input : VirtioInput} {availIdx usedIdx last : BitVec 16} {d : ℕ}

theorem RefillEnds.idle (hat : input.handler = .idle) : RefillEnds input input.avail.idx := by
  refine ⟨0, hat, ?_, rfl⟩
  intro m hm
  exact absurd hm (Nat.not_lt_zero m)

theorem RefillEnds.step (hat : input.handler ≠ .idle)
    (h : RefillEnds (virtioInputIntr input) availIdx) : RefillEnds input availIdx := by
  obtain ⟨n, hidle, hbefore, havail⟩ := h
  refine ⟨n + 1, hidle, ?_, havail⟩
  intro m hm
  cases m with
  | zero => exact hat
  | succ m =>
    rw [Function.iterate_succ_apply]
    exact hbefore m (by omega)

/-! ### One round -/

/-- A descriptor is offered. -/
def offerOne (input : VirtioInput) : VirtioInput :=
  { input with
    avail := { input.avail with idx := input.avail.idx + 1 }
    offered := input.offered + 1 }

theorem intr_wants (hat : input.handler = .refill)
    (hwants : wantsRefill input.avail.idx input.used.idx = true) :
    virtioInputIntr input = { input with handler := .offer } := by
  simp only [virtioInputIntr, hat, hwants, ↓reduceIte]

theorem intr_offer (hat : input.handler = .offer) :
    virtioInputIntr input = { offerOne input with handler := .refill } := by
  simp only [virtioInputIntr, offerOne, hat]

theorem intr_round (hat : input.handler = .refill)
    (hwants : wantsRefill input.avail.idx input.used.idx = true) :
    virtioInputIntr (virtioInputIntr input) = offerOne input := by
  rw [intr_wants hat hwants, intr_offer rfl, offerOne, offerOne, hat]

theorem intr_full (hat : input.handler = .refill)
    (hfull : wantsRefill input.avail.idx input.used.idx = false) :
    virtioInputIntr input = { input with handler := .idle } := by
  simp only [virtioInputIntr, hat, hfull, Bool.false_eq_true, ↓reduceIte]

theorem wantsRefill_iff :
    wantsRefill availIdx usedIdx = true ↔ availIdx.toNat < usedIdx.toNat + NUM := by
  rw [wantsRefill, decide_eq_true_iff]
  omega

/-! ### Short of the wrap -/

/-- `d` descriptors are missing, and the count of a full ring has not wrapped. -/
theorem refill_ends (hat : input.handler = .refill)
    (hmissing : input.avail.idx.toNat + d = input.used.idx.toNat + NUM)
    (hwrap : input.used.idx.toNat + NUM < 2 ^ 16) :
    RefillEnds input (input.used.idx + BitVec.ofNat 16 NUM) := by
  have hsize : NUM = 64 := rfl
  induction d generalizing input with
  | zero =>
    have hfull : wantsRefill input.avail.idx input.used.idx = false := by
      rw [Bool.eq_false_iff, ne_eq, wantsRefill_iff]
      omega
    have hidx : input.avail.idx = input.used.idx + BitVec.ofNat 16 NUM := by
      apply BitVec.eq_of_toNat_eq
      rw [BitVec.toNat_add, BitVec.toNat_ofNat]
      omega
    have hout : input.handler ≠ .idle := by
      rw [hat]
      exact Handler.noConfusion
    apply RefillEnds.step hout
    rw [intr_full hat hfull, ← hidx]
    exact RefillEnds.idle rfl
  | succ d ih =>
    have hwants : wantsRefill input.avail.idx input.used.idx = true := by
      rw [wantsRefill_iff]
      omega
    have hnext : (input.avail.idx + 1).toNat = input.avail.idx.toNat + 1 := by
      rw [BitVec.toNat_add, show (1 : BitVec 16).toNat = 1 from rfl]
      omega
    have hround : RefillEnds (offerOne input) (input.used.idx + BitVec.ofNat 16 NUM) := by
      apply @ih (offerOne input) hat
      · change (input.avail.idx + 1).toNat + d = input.used.idx.toNat + NUM
        rw [hnext, ← hmissing]
        omega
      · exact hwrap
    have hout : input.handler ≠ .idle := by
      rw [hat]
      exact Handler.noConfusion
    apply RefillEnds.step hout
    apply RefillEnds.step
    · rw [intr_wants hat hwants]
      exact Handler.noConfusion
    · rw [intr_round hat hwants]
      exact hround

/-! ### At the wrap -/

/-- No 16-bit count is a full ring ahead of this one. -/
theorem wantsRefill_of_wrap (hwrap : 2 ^ 16 ≤ usedIdx.toNat + NUM) (availIdx : BitVec 16) :
    wantsRefill availIdx usedIdx = true := by
  rw [wantsRefill_iff]
  exact lt_of_lt_of_le availIdx.isLt hwrap

/-- The loop stays in its two places and the device's count stays as it is. -/
theorem refill_spins (hat : input.handler = .refill ∨ input.handler = .offer)
    (hwrap : 2 ^ 16 ≤ input.used.idx.toNat + NUM) (n : ℕ) :
    ((virtioInputIntr^[n] input).handler = .refill ∨
      (virtioInputIntr^[n] input).handler = .offer) ∧
    (virtioInputIntr^[n] input).used.idx = input.used.idx := by
  induction n with
  | zero => exact ⟨hat, rfl⟩
  | succ n ih =>
    rw [Function.iterate_succ_apply']
    obtain ⟨hplace, hused⟩ := ih
    rcases hplace with hplace | hplace
    · rw [intr_wants hplace (wantsRefill_of_wrap (by rw [hused]; exact hwrap) _)]
      exact ⟨.inr rfl, hused⟩
    · rw [intr_offer hplace]
      exact ⟨.inl rfl, hused⟩

theorem not_refillEnds (hat : input.handler = .refill)
    (hwrap : 2 ^ 16 ≤ input.used.idx.toNat + NUM) : ¬ RefillEnds input availIdx := by
  rintro ⟨n, hidle, -⟩
  rcases (refill_spins (.inl hat) hwrap n).1 with hplace | hplace
  · rw [hplace] at hidle
    cases hidle
  · rw [hplace] at hidle
    cases hidle

/-- From a count the driver can have, the loop ends with a full ring exactly as long as the
count of a full ring does not wrap. -/
theorem virtio_input_refill_iff (hat : input.handler = .refill) (hd : d ≤ NUM)
    (hused : input.used.idx = last + BitVec.ofNat 16 d)
    (havail : input.avail.idx = last + BitVec.ofNat 16 NUM) :
    RefillEnds input (input.used.idx + BitVec.ofNat 16 NUM) ↔
      input.used.idx.toNat + NUM < 2 ^ 16 := by
  have hsize : NUM = 64 := rfl
  constructor
  · intro h
    by_contra hwrap
    exact not_refillEnds hat (by omega) h
  · intro hwrap
    apply refill_ends (d := d) hat _ hwrap
    have hlast := last.isLt
    rw [hused, BitVec.toNat_add, BitVec.toNat_ofNat] at hwrap
    rw [havail, hused, BitVec.toNat_add, BitVec.toNat_add, BitVec.toNat_ofNat, BitVec.toNat_ofNat]
    omega

/-- The handler before its second loop. -/
def refillAt (availIdx usedIdx : BitVec 16) : VirtioInput :=
  { virtioInputInit (fun _ => 0) (fun _ => ⟨0, 0, 0⟩) with
    avail := ⟨availIdx, fun i => BitVec.ofNat 16 i⟩
    used := ⟨usedIdx, fun _ => 0⟩
    usedIdx := usedIdx
    handler := .refill }

theorem virtio_input_refill_first_event : RefillEnds (refillAt 64 1) 65 := by
  have hused : (refillAt 64 1).used.idx = (0 : BitVec 16) + BitVec.ofNat 16 1 := rfl
  exact (virtio_input_refill_iff rfl (by decide) hused rfl).mpr (by decide)

/-- After 65472 events with all of them offered again the loop does not end. -/
theorem virtio_input_refill_wraps : ∃ last : BitVec 16, ∃ d ≤ NUM,
    (refillAt 0 65472).used.idx = last + BitVec.ofNat 16 d ∧
    (refillAt 0 65472).avail.idx = last + BitVec.ofNat 16 NUM ∧
    ¬ RefillEnds (refillAt 0 65472) ((refillAt 0 65472).used.idx + BitVec.ofNat 16 NUM) := by
  refine ⟨65472, 0, Nat.zero_le _, rfl, rfl, ?_⟩
  apply not_refillEnds rfl
  decide

end Zrhos.Driver
