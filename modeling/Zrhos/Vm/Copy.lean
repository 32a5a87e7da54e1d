import Zrhos.Klib.Memmove
import Zrhos.Mmap.Proc
import Zrhos.Vm.Map

/-! `copyout` and `copyin` of `vm.c`: a range of user memory is copied page by page. A page
table is the map from page numbers to entries that it stands for. -/
namespace Zrhos.Vm
open Klib (memcpy chunk)

/-- Physical memory without the static buffer of `memmove`, that buffer, and an object of the
kernel that no page shows. -/
structure Memory where
  mem : ℕ → ℕ
  buf : ℕ → ℕ
  obj : ℕ → ℕ

namespace Memory

/-- The two `memcpy` calls of a round of `memmove`, from physical memory to the object. -/
def chunkIn (s : Memory) (dst src len : ℕ) : Memory :=
  let s := { s with buf := memcpy s.buf 0 s.mem src len }
  { s with obj := memcpy s.obj dst s.buf 0 len }

/-- The same inside physical memory. -/
def chunkOut (s : Memory) (dst src len : ℕ) : Memory :=
  let s := { s with buf := memcpy s.buf 0 s.mem src len }
  { s with mem := memcpy s.mem dst s.buf 0 len }

end Memory

def memmoveLoop (copy : Memory → ℕ → ℕ → ℕ → Memory) (dst src : ℕ) :
    ℕ → Memory → ℕ → ℕ → Except Stop Memory
  | 0, _, _, _ => .error .spin
  | fuel + 1, s, i, n =>
    if n = 0 then .ok s
    else
      let len := chunk n
      memmoveLoop copy dst src fuel (copy s (dst + i) (src + i) len) (i + len) (n - len)

def memmoveIn (s : Memory) (dst src n : ℕ) : Except Stop Memory :=
  memmoveLoop Memory.chunkIn dst src (n + 1) s 0 n

def memmoveOut (s : Memory) (dst src n : ℕ) : Except Stop Memory :=
  memmoveLoop Memory.chunkOut dst src (n + 1) s 0 n

/-- The loop of `copyout` and `copyin`: `k` is the position in the kernel, `move` its
`memmove`. -/
def copyLoop (t : Table) (move : Memory → ℕ → ℕ → ℕ → Except Stop Memory) :
    ℕ → Memory → ℕ → ℕ → ℕ → Except Stop (ℤ × Memory)
  | 0, _, _, _, _ => .error .spin
  | fuel + 1, s, k, va, len =>
    if len = 0 then .ok (0, s)
    else
      let va0 := pgRoundDown va
      let pa0 := Mmap.walkaddr t va0
      if pa0 = 0 then .ok (-1, s)
      else do
        let n := PGSIZE - (va - va0)
        let n := if n > len then len else n
        let s ← move s k (pa0 + (va - va0)) n
        copyLoop t move fuel s (k + n) ((va0 + PGSIZE) % WORD) (len - n)

/-- Every round moves at least one byte, so the fuel runs out only on a loop that never
ends. -/
def copyout (t : Table) (s : Memory) (dstva src len : ℕ) : Except Stop (ℤ × Memory) :=
  copyLoop t (fun s k pa n => memmoveOut s pa k n) (len + 1) s src dstva len

def copyin (t : Table) (s : Memory) (dst srcva len : ℕ) : Except Stop (ℤ × Memory) :=
  copyLoop t (fun s k pa n => memmoveIn s k pa n) (len + 1) s dst srcva len

/-! ### What a user address shows -/

/-- The page of an address lies below `MAXVA` and is valid and open to the user. -/
def UserPage (t : Table) (a : ℕ) : Prop :=
  a < MAXVA ∧ t (vpn a) &&& PTE_V ≠ 0 ∧ t (vpn a) &&& PTE_U ≠ 0

/-- A user page that is not on the physical page 0, whose address `walkaddr` returns for
pages that are not mapped. -/
def Mapped (t : Table) (a : ℕ) : Prop := UserPage t a ∧ PTE2PA (t (vpn a)) ≠ 0

instance (t : Table) (a : ℕ) : Decidable (UserPage t a) := by
  unfold UserPage
  infer_instance

instance (t : Table) (a : ℕ) : Decidable (Mapped t a) := by
  unfold Mapped
  infer_instance

/-- The physical address of a user byte. -/
def physical (t : Table) (a : ℕ) : ℕ := PTE2PA (t (vpn a)) + a % PGSIZE

variable {t : Table} {s s' : Memory} {a va k len n fuel : ℕ}

theorem walkaddr_spec_table {S : Supply} {m : Ram} {r : ℕ} {d : Dir} (h : Repr S r m d t)
    (va : ℕ) : Vm.walkaddr S m (S.page r) va = .ok (Mmap.walkaddr t va) :=
  walkaddr_spec h va

theorem walkaddr_base (t : Table) (a : ℕ) :
    Mmap.walkaddr t (pgRoundDown a) = if Mapped t a then PTE2PA (t (vpn a)) else 0 := by
  have hmax : pgRoundDown a ≥ MAXVA ↔ ¬ a < MAXVA := by
    simp only [pgRoundDown, PGSIZE, MAXVA]
    omega
  have hvpn : vpn (pgRoundDown a) = vpn a := by
    simp only [vpn, pgRoundDown, PGSIZE]
    omega
  have hoff : pgRoundDown a &&& 0xFFF = 0 :=
    (Nat.and_two_pow_sub_one_eq_mod _ 12).trans (pgRoundDown_mod a)
  unfold Mmap.walkaddr Mapped UserPage
  simp only [hmax, hvpn, hoff, Nat.or_zero]
  by_cases h1 : a < MAXVA <;> by_cases h2 : t (vpn a) &&& PTE_V = 0 <;>
    by_cases h3 : t (vpn a) &&& PTE_U = 0 <;> simp [h1, h2, h3]

theorem walkaddr_base_of_mapped (h : Mapped t a) :
    Mmap.walkaddr t (pgRoundDown a) = PTE2PA (t (vpn a)) := by
  rw [walkaddr_base, if_pos h]

/-- The bytes of a page. -/
theorem page_bytes {i : ℕ} (hi : a % PGSIZE + i < PGSIZE) :
    (Mapped t (a + i) ↔ Mapped t a) ∧ physical t (a + i) = physical t a + i := by
  have hvpn : vpn (a + i) = vpn a := by
    simp only [vpn, PGSIZE] at *
    omega
  have hmax : a + i < MAXVA ↔ a < MAXVA := by
    simp only [MAXVA, PGSIZE] at *
    omega
  have hmod : (a + i) % PGSIZE = a % PGSIZE + i := by
    simp only [PGSIZE] at *
    omega
  constructor
  · unfold Mapped UserPage
    rw [hvpn, hmax]
  · unfold physical
    rw [hvpn, hmod, Nat.add_assoc]

/-! ### `memmove` -/

/-- What every chunk keeps, the whole move keeps. -/
theorem memmoveLoop_rule {copy : Memory → ℕ → ℕ → ℕ → Memory} {dst src i m : ℕ}
    (P : ℕ → Memory → Prop) (hm : i + n = m) (hfuel : n < fuel) (h : P i s)
    (hstep : ∀ i s len, i + len ≤ m → P i s → P (i + len) (copy s (dst + i) (src + i) len)) :
    ∃ s', memmoveLoop copy dst src fuel s i n = .ok s' ∧ P m s' := by
  induction fuel generalizing s i n with
  | zero => exact absurd hfuel (Nat.not_lt_zero n)
  | succ fuel ih =>
    by_cases hn : n = 0
    · obtain rfl : i = m := by omega
      exact ⟨s, by rw [memmoveLoop, if_pos hn], h⟩
    · have hpos : 0 < chunk n := by
        unfold chunk
        split_ifs <;> omega
      have hle := Klib.chunk_le n
      rw [memmoveLoop, if_neg hn]
      exact ih (by omega) (by omega) (hstep i s (chunk n) (by omega) h)

theorem memmoveIn_spec (s : Memory) (dst src n : ℕ) :
    ∃ s', memmoveIn s dst src n = .ok s' ∧ s'.mem = s.mem ∧ ∀ a, s'.obj a =
      if dst ≤ a ∧ a < dst + n then s.mem (src + (a - dst)) else s.obj a := by
  apply memmoveLoop_rule
    (fun i s' => s'.mem = s.mem ∧ ∀ a, s'.obj a =
      if dst ≤ a ∧ a < dst + i then s.mem (src + (a - dst)) else s.obj a)
    (Nat.zero_add n) (Nat.lt_succ_self n)
  · refine ⟨rfl, fun a => ?_⟩
    rw [if_neg]
    omega
  · rintro i s' len - ⟨hmem, hobj⟩
    refine ⟨hmem, fun a => ?_⟩
    simp only [Memory.chunkIn, Klib.memcpy_apply, hmem, hobj]
    by_cases hnew : dst + i ≤ a ∧ a < dst + i + len
    · rw [if_pos hnew, if_pos (by omega), if_pos (by omega)]
      congr 1
      omega
    · rw [if_neg hnew]
      by_cases hold : dst ≤ a ∧ a < dst + i
      · rw [if_pos hold, if_pos (by omega)]
      · rw [if_neg hold, if_neg (by omega)]

/-- Inside physical memory only the destination changes; where source and destination do
not overlap, it comes to hold the source. -/
theorem memmoveOut_spec (s : Memory) (dst src n : ℕ) :
    ∃ s', memmoveOut s dst src n = .ok s' ∧
      (∀ a, (a < dst ∨ dst + n ≤ a) → s'.mem a = s.mem a) ∧
      ((dst + n ≤ src ∨ src + n ≤ dst) → ∀ j < n, s'.mem (dst + j) = s.mem (src + j)) := by
  apply memmoveLoop_rule
    (fun i s' => (∀ a, (a < dst ∨ dst + n ≤ a) → s'.mem a = s.mem a) ∧
      ((dst + n ≤ src ∨ src + n ≤ dst) → ∀ j < i, s'.mem (dst + j) = s.mem (src + j)))
    (Nat.zero_add n) (Nat.lt_succ_self n)
  · exact ⟨fun a _ => rfl, fun _ j hj => absurd hj (Nat.not_lt_zero j)⟩
  · rintro i s' len hle ⟨hkeep, hcopied⟩
    have hchunk (a : ℕ) : (Memory.chunkOut s' (dst + i) (src + i) len).mem a =
        if dst + i ≤ a ∧ a < dst + i + len then s'.mem (src + (a - dst)) else s'.mem a := by
      simp only [Memory.chunkOut, Klib.memcpy_apply]
      by_cases hin : dst + i ≤ a ∧ a < dst + i + len
      · rw [if_pos hin, if_pos hin, if_pos (by omega)]
        congr 1
        omega
      · rw [if_neg hin, if_neg hin]
    constructor
    · intro a ha
      rw [hchunk, if_neg (by omega), hkeep a ha]
    · intro hapart j hj
      rw [hchunk]
      by_cases hnew : i ≤ j
      · rw [if_pos (by omega), Nat.add_sub_cancel_left, hkeep]
        omega
      · rw [if_neg (by omega), hcopied hapart j (by omega)]

/-! ### The loop over the pages -/

theorem copyLoop_done {move : Memory → ℕ → ℕ → ℕ → Except Stop Memory} (va va' : ℕ) :
    copyLoop t move fuel s k va 0 = copyLoop t move fuel s k va' 0 := by
  cases fuel with
  | zero => rfl
  | succ fuel => rw [copyLoop, copyLoop, if_pos rfl, if_pos rfl]

/-- A round of the loop, on a mapped page. -/
theorem copyLoop_round {move : Memory → ℕ → ℕ → ℕ → Except Stop Memory} (hlen : len ≠ 0)
    (h : Mapped t va) (hn : n = min (PGSIZE - va % PGSIZE) len)
    (hmove : move s k (physical t va) n = .ok s') :
    copyLoop t move (fuel + 1) s k va len = copyLoop t move fuel s' (k + n) (va + n) (len - n) := by
  have hoff : va - pgRoundDown va = va % PGSIZE := by
    simp only [pgRoundDown, PGSIZE]
    omega
  have hif : (if PGSIZE - va % PGSIZE > len then len else PGSIZE - va % PGSIZE) = n := by
    rw [hn]
    split_ifs <;> omega
  have hpa : PTE2PA (t (vpn va)) + va % PGSIZE = physical t va := rfl
  rw [copyLoop, if_neg hlen]
  simp only [walkaddr_base_of_mapped h, if_neg h.2, hoff, hif, hpa, hmove, bind, Except.bind]
  by_cases hrest : len - n = 0
  · rw [hrest]
    exact copyLoop_done _ _
  · have hva : va < 2 ^ 38 := h.1.1
    have hdown : pgRoundDown va + va % PGSIZE = va := Nat.div_add_mod' va PGSIZE
    have hmod : va % PGSIZE < PGSIZE := Nat.mod_lt _ (by decide)
    have hfit : pgRoundDown va + PGSIZE < WORD :=
      (show pgRoundDown va + PGSIZE < 2 ^ 39 by simp only [PGSIZE] at *; omega).trans (by decide)
    have hnext : pgRoundDown va + PGSIZE = va + n := by omega
    rw [Nat.mod_eq_of_lt hfit, hnext]

/-- The invariant rule of the loop: it moves bytes as long as their pages are mapped, a
stretch of one page at a time. -/
theorem copyLoop_rule (t : Table) (move : Memory → ℕ → ℕ → ℕ → Except Stop Memory)
    (k va m : ℕ) {i : ℕ} (P : ℕ → Memory → Prop)
    (hstep : ∀ i s n, i + n ≤ m → (va + i) % PGSIZE + n ≤ PGSIZE → P i s →
      ∃ s', move s (k + i) (physical t (va + i)) n = .ok s' ∧ P (i + n) s')
    (hm : i + len = m) (hfuel : len < fuel) (h : P i s) (hdone : ∀ j < i, Mapped t (va + j)) :
    ∃ r s' i', copyLoop t move fuel s (k + i) (va + i) len = .ok (r, s') ∧ P i' s' ∧
      (∀ j < i', Mapped t (va + j)) ∧
      ((r = 0 ∧ i' = m) ∨ (r = -1 ∧ i' < m ∧ ¬ Mapped t (va + i'))) := by
  induction fuel generalizing s i len with
  | zero => exact absurd hfuel (Nat.not_lt_zero len)
  | succ fuel ih =>
    by_cases hlen : len = 0
    · exact ⟨0, s, i, by rw [copyLoop, if_pos hlen], h, hdone, Or.inl ⟨rfl, by omega⟩⟩
    by_cases hmap : Mapped t (va + i)
    · have hmod : (va + i) % PGSIZE < PGSIZE := Nat.mod_lt _ (by decide)
      obtain ⟨n, hn⟩ : ∃ n, n = min (PGSIZE - (va + i) % PGSIZE) len := ⟨_, rfl⟩
      have hmapped : ∀ j < i + n, Mapped t (va + j) := by
        intro j hj
        by_cases hold : j < i
        · exact hdone j hold
        · have hnew := (@page_bytes t (va + i) (j - i) (by omega)).1.mpr hmap
          rwa [Nat.add_assoc, Nat.add_sub_cancel' (not_lt.mp hold)] at hnew
      obtain ⟨s₁, hmove, hP⟩ := hstep i s n (by omega) (by omega) h
      rw [copyLoop_round hlen hmap hn hmove, Nat.add_assoc, Nat.add_assoc]
      exact ih (by omega) (by omega) hP hmapped
    · refine ⟨-1, s, i, ?_, h, hdone, Or.inr ⟨rfl, by omega, hmap⟩⟩
      rw [copyLoop, if_neg hlen]
      simp only [walkaddr_base, if_neg hmap, ↓reduceIte]

/-- The return value of a copy that came to `i` of its `len` bytes. -/
theorem result_iff {r : ℤ} {i : ℕ} (hmapped : ∀ j < i, Mapped t (va + j))
    (hend : (r = 0 ∧ i = len) ∨ (r = -1 ∧ i < len ∧ ¬ Mapped t (va + i))) :
    (r = 0 ∨ r = -1) ∧ (r = 0 ↔ ∀ j < len, Mapped t (va + j)) ∧ (r = 0 → i = len) := by
  rcases hend with ⟨rfl, rfl⟩ | ⟨rfl, hlt, hnot⟩
  · exact ⟨Or.inl rfl, iff_of_true rfl hmapped, fun _ => rfl⟩
  · refine ⟨Or.inr rfl, iff_of_false (by decide) fun hall => hnot (hall i hlt), fun h => ?_⟩
    exact absurd h (by decide)

theorem copyin_spec (t : Table) (s : Memory) (k va len : ℕ) :
    ∃ r s', copyin t s k va len = .ok (r, s') ∧ (r = 0 ∨ r = -1) ∧
      (r = 0 ↔ ∀ i < len, Mapped t (va + i)) ∧ s'.mem = s.mem ∧
      (∀ a, (a < k ∨ k + len ≤ a) → s'.obj a = s.obj a) ∧
      (r = 0 → ∀ i < len, s'.obj (k + i) = s.mem (physical t (va + i))) := by
  obtain ⟨r, s', i, hcopy, ⟨hmem, hobj⟩, hmapped, hend⟩ :=
    copyLoop_rule t (fun s k pa n => memmoveIn s k pa n) k va len
      (fun i s' => s'.mem = s.mem ∧ ∀ a, s'.obj a =
        if k ≤ a ∧ a < k + i then s.mem (physical t (va + (a - k))) else s.obj a)
      (by
        rintro i s₁ n - hfit ⟨hmem, hobj⟩
        obtain ⟨s₂, hmove, hmem', hobj'⟩ := memmoveIn_spec s₁ (k + i) (physical t (va + i)) n
        refine ⟨s₂, hmove, hmem'.trans hmem, fun a => ?_⟩
        rw [hobj', hobj, hmem]
        by_cases hnew : k + i ≤ a ∧ a < k + i + n
        · rw [if_pos hnew, if_pos (by omega), ← (page_bytes (by omega)).2]
          congr 2
          omega
        · rw [if_neg hnew]
          by_cases hold : k ≤ a ∧ a < k + i
          · rw [if_pos hold, if_pos (by omega)]
          · rw [if_neg hold, if_neg (by omega)])
      (Nat.zero_add len) (Nat.lt_succ_self len)
      (by
        refine ⟨rfl, fun a => ?_⟩
        rw [if_neg]
        omega)
      (fun j hj => absurd hj (Nat.not_lt_zero j))
  obtain ⟨hr, hiff, hall⟩ := result_iff hmapped hend
  refine ⟨r, s', hcopy, hr, hiff, hmem, fun a ha => ?_, fun h0 j hj => ?_⟩
  · have hi : i ≤ len := by omega
    rw [hobj, if_neg]
    omega
  · have hi := hall h0
    rw [hobj, if_pos (by omega), Nat.add_sub_cancel_left]

/-- The physical pages of the range hold no byte of the source. -/
abbrev SourceOutside (t : Table) (va len src : ℕ) : Prop :=
  ∀ i < len, ∀ j < len, src + j < PTE2PA (t (vpn (va + i))) ∨
    PTE2PA (t (vpn (va + i))) + PGSIZE ≤ src + j

/-- The pages of the range lie on different physical pages, and none of these holds a byte of
the source. -/
structure Apart (t : Table) (va len src : ℕ) : Prop where
  pages : ∀ i < len, ∀ j < len, PTE2PA (t (vpn (va + i))) = PTE2PA (t (vpn (va + j))) →
    pgRoundDown (va + i) = pgRoundDown (va + j)
  source : SourceOutside t va len src

/-- No later byte of the first `m` of the range lies where the byte `i` lies. -/
def LastAt (t : Table) (va m i : ℕ) : Prop :=
  ∀ j < m, i < j → physical t (va + j) ≠ physical t (va + i)

theorem physical_page (a : ℕ) :
    PTE2PA (t (vpn a)) ≤ physical t a ∧ physical t a < PTE2PA (t (vpn a)) + PGSIZE := by
  have hmod : a % PGSIZE < PGSIZE := Nat.mod_lt _ (by decide)
  unfold physical
  omega

theorem physical_div (a : ℕ) : physical t a / PGSIZE = PTE2PA (t (vpn a)) / PGSIZE ∧
    physical t a % PGSIZE = a % PGSIZE := by
  have hpage : PTE2PA (t (vpn a)) % PGSIZE = 0 := PTE2PA_mod _
  unfold physical
  simp only [PGSIZE] at *
  omega

/-- Different bytes of the range lie at different physical addresses. -/
theorem Apart.injective {src i j : ℕ} (h : Apart t va len src) (hi : i < len) (hj : j < len)
    (he : physical t (va + i) = physical t (va + j)) : i = j := by
  obtain ⟨hdiv, hmod⟩ := physical_div (t := t) (va + i)
  obtain ⟨hdiv', hmod'⟩ := physical_div (t := t) (va + j)
  have hpage := PTE2PA_mod (t (vpn (va + i)))
  have hpage' := PTE2PA_mod (t (vpn (va + j)))
  have hsame : PTE2PA (t (vpn (va + i))) = PTE2PA (t (vpn (va + j))) := by
    rw [he] at hdiv
    simp only [PGSIZE] at *
    omega
  have hdown := h.pages i hi j hj hsame
  rw [he] at hmod
  simp only [pgRoundDown, PGSIZE] at *
  omega

theorem Apart.lastAt {src i : ℕ} (h : Apart t va len src) (hi : i < len) :
    LastAt t va len i := by
  intro j hj hlater he
  have := h.injective hj hi he
  omega

theorem SourceOutside.ne {src i j : ℕ} (h : SourceOutside t va len src) (hi : i < len)
    (hj : j < len) : src + j ≠ physical t (va + i) := by
  have hin := physical_page (t := t) (va + i)
  have hsource := h i hi j hj
  omega

/-- The source bytes of a round lie all below the page of the round or all above it. -/
theorem SourceOutside.stretch {src i : ℕ} (h : SourceOutside t va len src) (hn : n ≠ 0)
    (hle : i + n ≤ len) (hfit : (va + i) % PGSIZE + n ≤ PGSIZE) :
    physical t (va + i) + n ≤ src + i ∨ src + i + n ≤ physical t (va + i) := by
  have hbase := physical_page (t := t) (va + i)
  have hfirst := h i (by omega) i (by omega)
  have hlast : physical t (va + i) + n ≤ PTE2PA (t (vpn (va + i))) + PGSIZE := by
    unfold physical
    omega
  rcases hfirst with hlow | hhigh
  · right
    by_contra hin
    have hpoint := h i (by omega) (PTE2PA (t (vpn (va + i))) - src) (by omega)
    simp only [PGSIZE] at hpoint
    omega
  · left
    omega

theorem copyout_spec (t : Table) (s : Memory) (va k len : ℕ) :
    ∃ r s', copyout t s va k len = .ok (r, s') ∧ (r = 0 ∨ r = -1) ∧
      (r = 0 ↔ ∀ i < len, Mapped t (va + i)) ∧
      (∀ a, (∀ i < len, Mapped t (va + i) → a ≠ physical t (va + i)) → s'.mem a = s.mem a) ∧
      (r = 0 → SourceOutside t va len k → ∀ i < len, LastAt t va len i →
        s'.mem (physical t (va + i)) = s.mem (k + i)) := by
  obtain ⟨r, s', i, hcopy, ⟨hkeep, hcopied⟩, hmapped, hend⟩ :=
    copyLoop_rule t (fun s k pa n => memmoveOut s pa k n) k va len
      (fun i s' => (∀ a, (∀ j < i, a ≠ physical t (va + j)) → s'.mem a = s.mem a) ∧
        (SourceOutside t va len k → ∀ j < i, LastAt t va i j →
          s'.mem (physical t (va + j)) = s.mem (k + j)))
      (by
        rintro i s₁ n hle hfit ⟨hkeep, hcopied⟩
        have hpage (j : ℕ) (hj : j < n) : physical t (va + (i + j)) = physical t (va + i) + j := by
          rw [← Nat.add_assoc]
          exact (page_bytes (by omega)).2
        obtain ⟨s₂, hmove, hframe, hnew⟩ := memmoveOut_spec s₁ (physical t (va + i)) (k + i) n
        have hout (a : ℕ) (ha : ∀ j < n, a ≠ physical t (va + (i + j))) : s₂.mem a = s₁.mem a := by
          apply hframe
          by_contra hin
          apply ha (a - physical t (va + i)) (by omega)
          rw [hpage _ (by omega)]
          omega
        refine ⟨s₂, hmove, fun a ha => ?_, fun hout' j hj hlast => ?_⟩
        · rw [hout a (fun j hj => ha (i + j) (by omega)), hkeep a (fun j hj => ha j (by omega))]
        · by_cases hold : j < i
          · rw [hout, hcopied hout' j hold fun l hl => hlast l (by omega)]
            intro l hl
            exact (hlast (i + l) (by omega) (by omega)).symm
          · have hread : s₁.mem (k + j) = s.mem (k + j) :=
              hkeep _ fun l hl => hout'.ne (by omega) (by omega)
            obtain ⟨l, rfl⟩ := Nat.exists_eq_add_of_le (not_lt.mp hold)
            have haway := hout'.stretch (n := n) (i := i) (by omega) hle hfit
            rw [hpage l (by omega), hnew haway l (by omega), Nat.add_assoc, hread])
      (Nat.zero_add len) (Nat.lt_succ_self len)
      ⟨fun a _ => rfl, fun _ j hj => absurd hj (Nat.not_lt_zero j)⟩
      (fun j hj => absurd hj (Nat.not_lt_zero j))
  obtain ⟨hr, hiff, hall⟩ := result_iff hmapped hend
  refine ⟨r, s', hcopy, hr, hiff, fun a ha => ?_, fun h0 hout j hj hlast => ?_⟩
  · apply hkeep
    intro j hj
    exact ha j (by omega) (hmapped j hj)
  · obtain rfl := hall h0
    exact hcopied hout j hj hlast

/-- Both copies end and return 0 if and only if every page that they touch is mapped, else
-1. `copyin` then yields the bytes that the range shows. `copyout` changes only bytes of the
range, and each comes to hold the last byte of the source that is written to it; if the pages
lie apart, `copyin` reads back what `copyout` wrote. -/
theorem copies_exact (t : Table) (s : Memory) (k va len : ℕ) :
    (∃ r s', copyin t s k va len = .ok (r, s') ∧ (r = 0 ∨ r = -1) ∧
      (r = 0 ↔ ∀ i < len, Mapped t (va + i)) ∧ s'.mem = s.mem ∧
      (∀ a, (a < k ∨ k + len ≤ a) → s'.obj a = s.obj a) ∧
      (r = 0 → ∀ i < len, s'.obj (k + i) = s.mem (physical t (va + i)))) ∧
    ∃ r s', copyout t s va k len = .ok (r, s') ∧ (r = 0 ∨ r = -1) ∧
      (r = 0 ↔ ∀ i < len, Mapped t (va + i)) ∧
      (∀ a, (∀ i < len, Mapped t (va + i) → a ≠ physical t (va + i)) → s'.mem a = s.mem a) ∧
      (r = 0 → SourceOutside t va len k → ∀ i < len, LastAt t va len i →
        s'.mem (physical t (va + i)) = s.mem (k + i)) ∧
      (r = 0 → Apart t va len k → ∀ d, ∃ s'', copyin t s' d va len = .ok (0, s'') ∧
        ∀ i < len, s''.obj (d + i) = s.mem (k + i)) := by
  refine ⟨copyin_spec t s k va len, ?_⟩
  obtain ⟨r, s', hcopy, hr, hiff, hkeep, hcopied⟩ := copyout_spec t s va k len
  refine ⟨r, s', hcopy, hr, hiff, hkeep, hcopied, fun h0 hapart d => ?_⟩
  obtain ⟨r', s'', hback, -, hiff', -, -, hread⟩ := copyin_spec t s' d va len
  obtain rfl : r' = 0 := hiff'.mpr (hiff.mp h0)
  refine ⟨s'', hback, fun i hi => ?_⟩
  rw [hread rfl i hi, hcopied h0 hapart.source i hi (hapart.lastAt hi)]

/-- Two bytes on two pages go out and come back. -/
theorem copies_exact_two_bytes : ∃ (t : Table) (s : Memory),
    (∀ i < 2, Mapped t (0x1FFF + i)) ∧ Apart t 0x1FFF 2 0 ∧
      ∃ s' s'', copyout t s 0x1FFF 0 2 = .ok (0, s') ∧ copyin t s' 5 0x1FFF 2 = .ok (0, s'') ∧
        s''.obj 6 = s.mem 1 := by
  let t : Table := fun v => PA2PTE (0x80200000 + v * PGSIZE) ||| (PTE_V ||| PTE_U)
  have hmapped : ∀ i < 2, Mapped t (0x1FFF + i) := by decide
  have hapart : Apart t 0x1FFF 2 0 := ⟨by decide, by decide⟩
  let s : Memory := ⟨id, id, id⟩
  obtain ⟨r, s', hcopy, -, hiff, -, -, hback⟩ := (copies_exact t s 0 0x1FFF 2).2
  obtain rfl : r = 0 := hiff.mpr hmapped
  obtain ⟨s'', hin, hread⟩ := hback rfl hapart 5
  exact ⟨t, s, hmapped, hapart, s', s'', hcopy, hin, hread 1 (by decide)⟩

/-- A valid user page on the physical page 0 is below `MAXVA`, but `copyin` fails on it. -/
theorem copyin_refuses_page_zero : ∃ (t : Table) (s : Memory),
    (∀ i < 1, UserPage t (0x1000 + i)) ∧ copyin t s 0 0x1000 1 = .ok (-1, s) := by
  refine ⟨fun _ => PTE_V ||| PTE_U, ⟨fun _ => 0, fun _ => 0, fun _ => 0⟩, ?_, ?_⟩
  · intro i hi
    obtain rfl : i = 0 := by omega
    exact ⟨by decide, by decide, by decide⟩
  · have hnot : ¬ Mapped (fun _ => PTE_V ||| PTE_U) 0x1000 := fun h => h.2 (by decide)
    unfold copyin
    rw [copyLoop, if_neg (by decide)]
    simp only [walkaddr_base, if_neg hnot, ↓reduceIte]

end Zrhos.Vm
