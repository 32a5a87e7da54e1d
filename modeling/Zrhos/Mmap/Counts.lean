import Zrhos.Mmap.Fork
import Zrhos.Mmap.Proc
import Zrhos.Lib.Tally

/-! Reference counters against page tables. Each way an entry can change is matched with
the change of the counters that goes with it. -/
namespace Zrhos.Mmap
open Tally OrderedSet

/-- An entry that maps the frame `P` for the user. -/
def UserMaps (pte P : ℕ) : Prop := pte &&& PTE_V ≠ 0 ∧ pte &&& PTE_U ≠ 0 ∧ PTE2PA pte = P

instance (pte P : ℕ) : Decidable (UserMaps pte P) := by unfold UserMaps; infer_instance

/-- The entries of one page table. -/
def NPTE : ℕ := 2 ^ 27

/-- The numbers below `n`, as a set that is never enumerated. -/
noncomputable def upTo (n : ℕ) : Finset ℕ := (Set.finite_lt_nat n).toFinset

/-- The entries over all page tables that map `P` for a user. -/
noncomputable def mapCount (E : ℕ → ℕ → ℕ) (P : ℕ) : ℕ :=
  tally (upTo NTASK ×ˢ upTo NPTE) (UserMaps · P) fun x => E x.1 x.2

/-- The same for one page table. -/
noncomputable def rowCount (pt : ℕ → ℕ) (P : ℕ) : ℕ := tally (upTo NPTE) (UserMaps · P) pt

/-! ### Entries -/

theorem and_flag_ne_zero {x k : ℕ} : x &&& 1 <<< k ≠ 0 ↔ x.testBit k = true := by
  rw [Nat.shiftLeft_eq, one_mul, Nat.and_two_pow]
  cases x.testBit k <;> simp

theorem valid_iff {x : ℕ} : x &&& PTE_V ≠ 0 ↔ x.testBit 0 = true := and_flag_ne_zero

theorem user_iff {x : ℕ} : x &&& PTE_U ≠ 0 ↔ x.testBit 4 = true := and_flag_ne_zero

theorem writable_iff {x : ℕ} : x &&& PTE_W ≠ 0 ↔ x.testBit 2 = true := and_flag_ne_zero

theorem testBit_PTE_FLAGS {x i : ℕ} (hi : i < 10) : (PTE_FLAGS x).testBit i = x.testBit i := by
  rw [PTE_FLAGS_eq, Nat.testBit_mod_two_pow]
  simp [hi]

theorem testBit_PA2PTE_low {pa i : ℕ} (hi : i < 10) : (PA2PTE pa).testBit i = false := by
  rw [testBit_PA2PTE]
  simp [show ¬ 10 ≤ i by omega]

theorem sext32_mod (x : ℕ) : sext32 (x % 2 ^ 32) = sext32 x := by
  unfold sext32
  congr 2
  exact BitVec.eq_of_toNat_eq (by simp)

/-- Permissions without frame bits. -/
def PermOk (perm : ℕ) : Prop := perm % 2 ^ 32 < 2 ^ 10

instance (perm : ℕ) : Decidable (PermOk perm) := by unfold PermOk; infer_instance

theorem userPte_eq {pa perm : ℕ} (h : PermOk perm) :
    userPte pa perm = PA2PTE pa ||| (perm % 2 ^ 32 ||| PTE_U ||| PTE_V) := by
  have hlow : (perm ||| PTE_U) % 2 ^ 32 = perm % 2 ^ 32 ||| PTE_U := Nat.or_mod_two_pow
  have hlt : perm % 2 ^ 32 ||| PTE_U < 2 ^ 31 :=
    (Nat.or_lt_two_pow h (by decide : PTE_U < 2 ^ 10)).trans (by decide)
  rw [userPte, ← sext32_mod, hlow, sext32_of_lt hlt, Nat.or_assoc]

theorem userMaps_userPte {pa perm : ℕ} (h : PermOk perm) (hpa : pa % PGSIZE = 0)
    (hw : pa < WORD) : UserMaps (userPte pa perm) pa := by
  refine ⟨userPte_valid _ _, ?_, ?_⟩
  · rw [userPte_eq h, user_iff]
    simp only [Nat.testBit_or, show PTE_U.testBit 4 = true by decide, Bool.or_true, Bool.true_or]
  · rw [userPte_eq h, PTE2PA_pack hpa hw]
    exact Nat.or_lt_two_pow (Nat.or_lt_two_pow h (by decide)) (by decide)

theorem writable_userPte {pa perm : ℕ} :
    userPte pa perm &&& PTE_W ≠ 0 ↔ perm.testBit 2 = true := by
  rw [writable_iff, userPte]
  simp [testBit_PA2PTE_low, testBit_sext32, show PTE_U.testBit 2 = false by decide,
    show PTE_V.testBit 2 = false by decide]

theorem PTE2PA_or_PTE_W (pte : ℕ) : PTE2PA (pte ||| PTE_W) = PTE2PA pte := by
  unfold PTE2PA
  rw [Nat.shiftRight_or_distrib, show PTE_W >>> 10 = 0 by decide, Nat.or_zero]

theorem userMaps_or_PTE_W {pte P : ℕ} : UserMaps (pte ||| PTE_W) P ↔ UserMaps pte P := by
  unfold UserMaps
  rw [PTE2PA_or_PTE_W, valid_iff, valid_iff, user_iff, user_iff]
  simp only [Nat.testBit_or, show PTE_W.testBit 0 = false by decide,
    show PTE_W.testBit 4 = false by decide, Bool.or_false]

/-- The entry a copy-on-write fault stores. -/
theorem userMaps_copied {pte P pa : ℕ} (h : UserMaps pte P) (hpa : pa % PGSIZE = 0)
    (hw : pa < WORD) : UserMaps (PA2PTE pa ||| PTE_FLAGS pte ||| PTE_W) pa := by
  obtain ⟨hv, hu, -⟩ := h
  rw [valid_iff] at hv
  rw [user_iff] at hu
  refine userMaps_or_PTE_W.mpr ⟨?_, ?_, ?_⟩
  · rw [valid_iff]
    rw [Nat.testBit_or, testBit_PTE_FLAGS (by decide), hv, Bool.or_true]
  · rw [user_iff]
    rw [Nat.testBit_or, testBit_PTE_FLAGS (by decide), hu, Bool.or_true]
  · exact PTE2PA_pack hpa hw (by rw [PTE_FLAGS_eq]; exact Nat.mod_lt _ (by decide))

theorem not_userMaps_zero (P : ℕ) : ¬ UserMaps 0 P := by simp [UserMaps]

theorem PermOk.copyPerm {n : MmapNode} (h : PermOk n.perm) : PermOk (copyPerm n) := by
  unfold Mmap.copyPerm
  split_ifs
  · unfold PermOk
    rw [Nat.and_mod_two_pow]
    exact Nat.and_le_left.trans_lt h
  · exact h

/-! ### Counting -/

variable {E : ℕ → ℕ → ℕ} {i j v e P : ℕ} {pt npt : ℕ → ℕ}

theorem vpn_lt (va : ℕ) : vpn va < NPTE := Nat.mod_lt _ (by decide)

theorem mem_upTo {m n : ℕ} (h : m < n) : m ∈ upTo n :=
  (Set.Finite.mem_toFinset _).mpr h

theorem mapCount_update_row (hi : i < NTASK) :
    mapCount (Function.update E i pt) P + rowCount (E i) P = mapCount E P + rowCount pt P :=
  tally_update_row (mem_upTo hi)

theorem rowCount_update (hv : v < NPTE) :
    rowCount (Function.update pt v e) P + (if UserMaps (pt v) P then 1 else 0) =
      rowCount pt P + if UserMaps e P then 1 else 0 :=
  tally_update (p := (UserMaps · P)) (mem_upTo hv)

theorem rowCount_eq_zero (h : ∀ v, ¬ UserMaps (pt v) P) : rowCount pt P = 0 :=
  tally_eq_zero.mpr fun v _ => h v

theorem mapCount_eq_zero (h : ∀ i v, ¬ UserMaps (E i v) P) : mapCount E P = 0 :=
  tally_eq_zero.mpr fun x _ => h x.1 x.2

theorem mapCount_pos (hi : i < NTASK) (hv : v < NPTE) (h : UserMaps (E i v) P) :
    0 < mapCount E P :=
  tally_pos (f := fun x : ℕ × ℕ => E x.1 x.2) (x := (i, v))
    (Finset.mem_product.mpr ⟨mem_upTo hi, mem_upTo hv⟩) h

/-! ### Counters -/

/-- The counters are the number `c` of mappings; frames the kernel uses for itself are
never counted; a frame that was handed out and not given back has a counter. -/
structure CountsOk (kern : ℕ → Prop) (s : Phys) (c : ℕ → ℕ) : Prop where
  frames : FramesOk s
  used : ∀ P, s.ref P ≠ 0 → InUse s P
  kernel : ∀ P, kern P → InUse s P ∧ s.ref P = 0
  counts : ∀ P, P ≠ USERRDONLY → s.ref P = c P
  logs : ∀ P, s.handed.count P = s.freed.count P + if s.ref P = 0 then 0 else 1
  handed_lt : ∀ P ∈ s.handed, P < MEMSTOP

variable {kern : ℕ → Prop} {s s₁ s' : Phys} {c c' : ℕ → ℕ} {p : ℕ}

theorem InUse.lt_memstop (h : InUse s p) (hs : FramesOk s) : p < MEMSTOP :=
  h.below.trans_le hs.top_le

theorem InUse.ne_rdonly (h : InUse s p) (hs : FramesOk s) : p ≠ USERRDONLY := by
  have := h.lt_memstop hs
  rintro rfl
  exact absurd this (by decide)

theorem userPage_taken {pa : ℕ} (h : FramesOk s) (hp : userPage s = .ok (pa, s')) :
    Taken s s' pa ∧ s'.handed = pa :: s.handed := by
  rcases userPage_spec h with he | ⟨q, s₁, he, ht, hh⟩
  · rw [hp] at he
    cases he
  · rw [hp] at he
    cases he
    exact ⟨ht, hh⟩

theorem CountsOk.ref_fresh (h : CountsOk kern s c) (hp : ¬ InUse s p) : s.ref p = 0 := by
  by_contra hr
  exact hp (h.used p hr)

theorem CountsOk.congr (h : CountsOk kern s c)
    (hc : ∀ P, P ≠ USERRDONLY → c' P = c P) : CountsOk kern s c' :=
  { h with counts := fun P hP => by rw [hc P hP, h.counts P hP] }

/-- Only the bytes of the frames differ. -/
theorem CountsOk.withMem (h : CountsOk kern s c) (mem : ℕ → ℕ → ℕ) :
    CountsOk kern { s with mem := mem } c :=
  ⟨h.frames.congr rfl rfl, fun P hP => (h.used P hP).congr rfl rfl,
    fun P hP => ⟨(h.kernel P hP).1.congr rfl rfl, (h.kernel P hP).2⟩, h.counts, h.logs,
    h.handed_lt⟩

/-- A page is taken and mapped once. -/
theorem CountsOk.take {pa : ℕ} (h : CountsOk kern s c) (hp : userPage s = .ok (pa, s₁))
    (hc : ∀ P, P ≠ USERRDONLY → c' P = c P + if P = pa then 1 else 0) :
    CountsOk kern (refCntInc s₁ pa) c' := by
  obtain ⟨ht, hh⟩ := userPage_taken h.frames hp
  have hfresh := h.ref_fresh ht.free
  have href (P : ℕ) : (refCntInc s₁ pa).ref P = s.ref P + if P = pa then 1 else 0 := by
    rw [refCntInc_ref, ht.ref_eq]
    split_ifs with hP
    · rw [hP]
    · rfl
  refine ⟨ht.frames.congr rfl rfl, fun P hP => ?_, fun P hP => ?_, fun P hP => ?_, fun P => ?_,
    fun P hP => ?_⟩
  · by_cases hPa : P = pa
    · rw [hPa]
      exact ht.inUse.congr rfl rfl
    · rw [href, if_neg hPa] at hP
      exact (ht.keeps P (h.used P hP)).congr rfl rfl
  · obtain ⟨hu, hr⟩ := h.kernel P hP
    have hne : P ≠ pa := fun he => ht.free (he ▸ hu)
    exact ⟨(ht.keeps P hu).congr rfl rfl, by rw [href, if_neg hne, hr]⟩
  · rw [href, h.counts P hP, hc P hP]
  · have hlog := h.logs P
    change s₁.handed.count P = s₁.freed.count P + _
    rw [href, hh, ht.freed_eq, List.count_cons, hlog]
    by_cases hPa : P = pa
    · simp [hPa, hfresh]
    · simp [hPa, Ne.symm hPa]
  · change P ∈ s₁.handed at hP
    rw [hh] at hP
    rcases List.mem_cons.mp hP with rfl | hP
    · exact ht.inUse.lt_memstop ht.frames
    · exact h.handed_lt P hP

/-- A counted page is mapped once more. -/
theorem CountsOk.inc (h : CountsOk kern s c) (hp : s.ref p ≠ 0)
    (hc : ∀ P, P ≠ USERRDONLY → c' P = c P + if P = p then 1 else 0) :
    CountsOk kern (refCntInc s p) c' := by
  have href (P : ℕ) : (refCntInc s p).ref P = s.ref P + if P = p then 1 else 0 := by
    rw [refCntInc_ref]
    split_ifs with hP
    · rw [hP]
    · rfl
  have hzero (P : ℕ) : (refCntInc s p).ref P = 0 ↔ s.ref P = 0 := by
    rw [href]
    split_ifs with hP
    · rw [hP]
      simp [hp]
    · rfl
  refine ⟨h.frames.congr rfl rfl, fun P hP => ?_, fun P hP => ?_, fun P hP => ?_, fun P => ?_,
    h.handed_lt⟩
  · exact (h.used P (fun he => hP ((hzero P).mpr he))).congr rfl rfl
  · exact ⟨(h.kernel P hP).1.congr rfl rfl, (hzero P).mpr (h.kernel P hP).2⟩
  · rw [href, h.counts P hP, hc P hP]
  · rw [if_congr (hzero P) rfl rfl]
    exact h.logs P

/-- A page is counted down, and given back with its last mapping. -/
theorem CountsOk.dec (h : CountsOk kern s c)
    (hc : ∀ P, P ≠ USERRDONLY → c' P = c P - if P = p then 1 else 0) :
    CountsOk kern (refCntDec s p) c' := by
  have hd := refCntDec_spec h.frames (h.used p)
  have href (P : ℕ) : (refCntDec s p).ref P = s.ref P - if P = p then 1 else 0 := by
    rw [hd.ref_eq]
    split_ifs with hP
    · rw [hP]
    · rfl
  have hkeep (P : ℕ) (hP : s.ref P = 0 ∨ (refCntDec s p).ref P ≠ 0) : P ≠ p ∨ s.ref p ≠ 1 := by
    by_cases hPp : P = p
    · right
      rintro h1
      rw [href, if_pos hPp, hPp, h1] at hP
      omega
    · exact Or.inl hPp
  refine ⟨hd.frames, fun P hP => ?_, fun P hP => ?_, fun P hP => ?_, fun P => ?_, ?_⟩
  · refine hd.keeps P (h.used P fun he => hP ?_) (hkeep P (Or.inr hP))
    rw [href, he, Nat.zero_sub]
  · obtain ⟨hu, hr⟩ := h.kernel P hP
    exact ⟨hd.keeps P hu (hkeep P (Or.inl hr)), by rw [href, hr, Nat.zero_sub]⟩
  · rw [href, h.counts P hP, hc P hP]
  · have hlog := h.logs P
    rw [hd.handed_eq, hd.freed_eq, href, hlog]
    by_cases hPp : P = p
    · subst hPp
      rcases Nat.lt_trichotomy (s.ref P) 1 with h1 | h1 | h1
      · simp [show s.ref P = 0 by omega]
      · simp [h1]
      · simp [show s.ref P ≠ 0 by omega, show s.ref P ≠ 1 by omega, show s.ref P - 1 ≠ 0 by omega]
    · split_ifs <;> simp_all [Ne.symm hPp]
  · rw [hd.handed_eq]
    exact h.handed_lt

end Zrhos.Mmap
