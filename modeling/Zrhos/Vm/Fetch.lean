import Zrhos.Vm.Copy

/-! `copyinstr`, `fetchstr` and `fetchaddr` of `vm.c`. The byte variable `c` is cell 0 of the
kernel's object, the destination of a string is an array of its own. -/
namespace Zrhos.Vm

/-! ### Strings -/

/-- The loop over the bytes of one page; the result is the value that the function returns
there, the destination, the length and the address. -/
def copyinstrPage (va0 pa0 : ℕ) : ℕ → Memory → (ℕ → ℕ) → ℕ → ℕ →
    Except Stop (Option ℤ × Memory × (ℕ → ℕ) × ℕ × ℕ)
  | 0, s, dst, len, srcva => .ok (none, s, dst, len, srcva)
  | n + 1, s, dst, len, srcva => do
    let s ← memmoveIn s 0 (pa0 + (srcva - va0)) 1
    let c := s.obj 0
    if c = 0 then return (some len, s, Function.update dst len 0, len, srcva)
    else copyinstrPage va0 pa0 n s (Function.update dst len c) (len + 1) ((srcva + 1) % WORD)

def copyinstrLoop (t : Table) (maxLen : ℕ) : ℕ → Memory → (ℕ → ℕ) → ℕ → ℕ →
    Except Stop (ℤ × (ℕ → ℕ))
  | 0, _, _, _, _ => .error .spin
  | fuel + 1, s, dst, len, srcva =>
    if len < maxLen then
      let va0 := pgRoundDown srcva
      let pa0 := Mmap.walkaddr t va0
      if pa0 = 0 then .ok (-1, dst)
      else do
        let n := PGSIZE - (srcva - va0)
        let n := if n > maxLen - len then maxLen - len else n
        let (ret, s, dst, len, srcva) ← copyinstrPage va0 pa0 n s dst len srcva
        match ret with
        | some r => return (r, dst)
        | none => copyinstrLoop t maxLen fuel s dst len srcva
    else .ok (-1, dst)

/-- The return value and the destination. -/
def copyinstr (t : Table) (s : Memory) (dst : ℕ → ℕ) (srcva maxLen : ℕ) :
    Except Stop (ℤ × (ℕ → ℕ)) :=
  copyinstrLoop t maxLen (maxLen + 1) s dst 0 srcva

def fetchstrLoop (t : Table) (max : ℕ) : ℕ → Memory → (ℕ → ℕ) → ℕ → ℕ →
    Except Stop (ℤ × (ℕ → ℕ))
  | 0, _, _, _, _ => .error .spin
  | fuel + 1, s, dst, len, srcva =>
    if len < max then do
      let (ret, s) ← copyin t s 0 srcva 1
      if ret < 0 then return (-1, dst)
      else
        let c := s.obj 0
        if c = 0 then return (len, Function.update dst len 0)
        else fetchstrLoop t max fuel s (Function.update dst len c) (len + 1) ((srcva + 1) % WORD)
    else .ok (-1, dst)

def fetchstr (t : Table) (s : Memory) (srcva : ℕ) (dst : ℕ → ℕ) (max : ℕ) :
    Except Stop (ℤ × (ℕ → ℕ)) :=
  fetchstrLoop t max (max + 1) s dst 0 srcva

/-- The bytes of the range one by one, up to a zero. -/
def scan (t : Table) (mem : ℕ → ℕ) (va : ℕ) : ℕ → (ℕ → ℕ) → ℕ → ℤ × (ℕ → ℕ)
  | 0, dst, _ => (-1, dst)
  | left + 1, dst, len =>
    if Mapped t (va + len) then
      let c := mem (physical t (va + len))
      if c = 0 then (len, Function.update dst len 0)
      else scan t mem va left (Function.update dst len c) (len + 1)
    else (-1, dst)

/-- A string of `n` bytes at `va` that ends within `max` bytes on mapped pages. -/
structure StringAt (t : Table) (mem : ℕ → ℕ) (va max n : ℕ) : Prop where
  lt : n < max
  mapped : ∀ i ≤ n, Mapped t (va + i)
  nonzero : ∀ i < n, mem (physical t (va + i)) ≠ 0
  zero : mem (physical t (va + n)) = 0

variable {t : Table} {s : Memory} {mem dst : ℕ → ℕ} {va len left n fuel max : ℕ}

theorem next_va (h : Mapped t (va + len)) : (va + len + 1) % WORD = va + (len + 1) := by
  have hlt : va + len < 2 ^ 38 := h.1.1
  exact Nat.mod_eq_of_lt ((show va + len + 1 < 2 ^ 39 by omega).trans (by decide))

theorem fetchstrLoop_eq (hmem : s.mem = mem) (hmax : len + left = max) (hfuel : left < fuel) :
    fetchstrLoop t max fuel s dst len (va + len) = .ok (scan t mem va left dst len) := by
  induction fuel generalizing s dst len left with
  | zero => exact absurd hfuel (Nat.not_lt_zero left)
  | succ fuel ih =>
    cases left with
    | zero =>
      rw [fetchstrLoop, if_neg (by omega)]
      rfl
    | succ left =>
      obtain ⟨r, s', hcopy, hr, hiff, hmem', -, hread⟩ := copyin_spec t s 0 (va + len) 1
      have hone : (∀ i < 1, Mapped t (va + len + i)) ↔ Mapped t (va + len) :=
        ⟨fun h => h 0 Nat.one_pos, fun h i hi => by
          obtain rfl := Nat.lt_one_iff.mp hi
          exact h⟩
      rw [hone] at hiff
      rw [fetchstrLoop, if_pos (by omega), hcopy, scan]
      simp only [bind, Except.bind]
      by_cases hmap : Mapped t (va + len)
      · obtain rfl := hiff.mpr hmap
        have hbyte : s'.obj 0 = mem (physical t (va + len)) := by
          rw [← hmem]
          exact hread rfl 0 Nat.one_pos
        rw [if_neg (by decide), if_pos hmap, hbyte, next_va hmap]
        split_ifs with hzero
        · rfl
        · exact ih (hmem'.trans hmem) (by omega) (by omega)
      · obtain rfl : r = -1 := hr.resolve_left fun h0 => hmap (hiff.mp h0)
        rw [if_pos (by decide), if_neg hmap]
        rfl

/-- The loop over a page goes through as many bytes of the scan. -/
theorem copyinstrPage_eq (dst : ℕ → ℕ) {va0 pa0 : ℕ} (hmem : s.mem = mem)
    (hmax : len + (n + left) = max)
    (hpage : ∀ i < n, Mapped t (va + (len + i)) ∧
      pa0 + (va + (len + i) - va0) = physical t (va + (len + i))) :
    ∃ ret s' dst' len', copyinstrPage va0 pa0 n s dst len (va + len) =
        .ok (ret, s', dst', len', va + len') ∧ s'.mem = mem ∧
      match ret with
      | some r => scan t mem va (n + left) dst len = (r, dst')
      | none => len' + left = max ∧
        scan t mem va (n + left) dst len = scan t mem va left dst' len' := by
  induction n generalizing s dst len with
  | zero =>
    rw [Nat.zero_add] at hmax ⊢
    exact ⟨none, s, dst, len, rfl, hmem, hmax, rfl⟩
  | succ n ih =>
    obtain ⟨s', hmove, hmem', hobj⟩ := memmoveIn_spec s 0 (pa0 + (va + len - va0)) 1
    obtain ⟨hmap, hpa⟩ := hpage 0 (Nat.succ_pos n)
    rw [Nat.add_zero] at hmap hpa
    have hbyte : s'.obj 0 = mem (physical t (va + len)) := by
      rw [hobj, if_pos (by omega), hmem]
      exact congrArg mem hpa
    have hscan : scan t mem va (n + 1 + left) dst len =
        if mem (physical t (va + len)) = 0 then ((len : ℤ), Function.update dst len 0)
        else scan t mem va (n + left)
          (Function.update dst len (mem (physical t (va + len)))) (len + 1) := by
      rw [Nat.add_right_comm, scan, if_pos hmap]
    rw [copyinstrPage, hmove, hscan]
    simp only [bind, Except.bind, hbyte, next_va hmap]
    split_ifs with hzero
    · exact ⟨some len, s', _, len, rfl, hmem'.trans hmem, rfl⟩
    · apply ih _ (hmem'.trans hmem) (by omega)
      intro i hi
      have hnext : len + 1 + i = len + (i + 1) := by omega
      rw [hnext]
      exact hpage (i + 1) (by omega)

theorem copyinstrLoop_eq (hmem : s.mem = mem) (hmax : len + left = max) (hfuel : left < fuel) :
    copyinstrLoop t max fuel s dst len (va + len) = .ok (scan t mem va left dst len) := by
  induction fuel generalizing s dst len left with
  | zero => exact absurd hfuel (Nat.not_lt_zero left)
  | succ fuel ih =>
    by_cases hleft : left = 0
    · subst hleft
      rw [copyinstrLoop, if_neg (by omega)]
      rfl
    rw [copyinstrLoop, if_pos (by omega)]
    by_cases hmap : Mapped t (va + len)
    · have hoff : va + len - pgRoundDown (va + len) = (va + len) % PGSIZE := by
        simp only [pgRoundDown, PGSIZE]
        omega
      have hmod : (va + len) % PGSIZE < PGSIZE := Nat.mod_lt _ (by decide)
      obtain ⟨n, hn⟩ : ∃ n, n = min (PGSIZE - (va + len) % PGSIZE) left := ⟨_, rfl⟩
      have hif : (if PGSIZE - (va + len) % PGSIZE > max - len then max - len
          else PGSIZE - (va + len) % PGSIZE) = n := by
        split_ifs <;> omega
      obtain ⟨rest, rfl⟩ : ∃ rest, left = n + rest := ⟨left - n, by omega⟩
      have hpage : ∀ i < n, Mapped t (va + (len + i)) ∧
          PTE2PA (t (vpn (va + len))) + (va + (len + i) - pgRoundDown (va + len)) =
            physical t (va + (len + i)) := by
        intro i hi
        have hbytes := @page_bytes t (va + len) i (by omega)
        rw [Nat.add_assoc] at hbytes
        refine ⟨hbytes.1.mpr hmap, ?_⟩
        have hle := pgRoundDown_le (va + len)
        rw [hbytes.2]
        unfold physical
        omega
      obtain ⟨ret, s', dst', len', hrun, hmem', hend⟩ :=
        copyinstrPage_eq dst hmem hmax hpage
      simp only [walkaddr_base_of_mapped hmap, if_neg hmap.2, hoff, hif, hrun, bind, Except.bind]
      cases ret with
      | some r => exact congrArg Except.ok hend.symm
      | none =>
        rw [hend.2]
        exact ih hmem' hend.1 (by omega)
    · obtain ⟨left, rfl⟩ := Nat.exists_eq_succ_of_ne_zero hleft
      simp only [walkaddr_base, if_neg hmap, ↓reduceIte, scan]

/-! ### What the scan finds -/

theorem scan_string (h : StringAt t mem va max n) (hlen : len ≤ n) (hmax : len + left = max)
    (hdone : ∀ i < len, dst i = mem (physical t (va + i))) :
    (scan t mem va left dst len).1 = n ∧
      ∀ i, (scan t mem va left dst len).2 i =
        if i < n then mem (physical t (va + i)) else if i = n then 0 else dst i := by
  have hlt := h.lt
  induction left generalizing dst len with
  | zero => omega
  | succ left ih =>
    rw [scan, if_pos (h.mapped len hlen)]
    dsimp only
    by_cases hend : len = n
    · subst hend
      rw [if_pos h.zero]
      refine ⟨rfl, fun i => ?_⟩
      dsimp only
      by_cases hi : i = len
      · subst hi
        rw [Function.update_self, if_neg (lt_irrefl i), if_pos rfl]
      · rw [Function.update_of_ne hi, if_neg hi]
        split_ifs with hlow
        · exact hdone i hlow
        · rfl
    · have hbefore : len < n := by omega
      rw [if_neg (h.nonzero len hbefore)]
      have hnext : ∀ i < len + 1,
          Function.update dst len (mem (physical t (va + len))) i = mem (physical t (va + i)) := by
        intro i hi
        by_cases hlast : i = len
        · subst hlast
          exact Function.update_self _ _ _
        · rw [Function.update_of_ne hlast]
          exact hdone i (by omega)
      obtain ⟨hret, hdst⟩ := ih hbefore (by omega) hnext
      refine ⟨hret, fun i => ?_⟩
      rw [hdst]
      split_ifs with hlow hn
      · rfl
      · rfl
      · exact Function.update_of_ne (by omega) _ _

theorem scan_none (h : ∀ n, ¬ StringAt t mem va max n) (hmax : len + left = max)
    (hdone : ∀ i < len, Mapped t (va + i) ∧ mem (physical t (va + i)) ≠ 0) :
    (scan t mem va left dst len).1 = -1 := by
  induction left generalizing dst len with
  | zero => rfl
  | succ left ih =>
    rw [scan]
    split_ifs with hmap
    · dsimp only
      split_ifs with hzero
      · refine absurd ⟨by omega, fun i hi => ?_, fun i hi => (hdone i hi).2, hzero⟩ (h len)
        rcases Nat.lt_or_eq_of_le hi with hlt | rfl
        · exact (hdone i hlt).1
        · exact hmap
      · apply ih (by omega)
        intro i hi
        rcases Nat.lt_succ_iff_lt_or_eq.mp hi with hlt | rfl
        · exact hdone i hlt
        · exact ⟨hmap, hzero⟩
    · rfl

theorem scan_keeps {i : ℕ} (h : len + left ≤ i) : (scan t mem va left dst len).2 i = dst i := by
  induction left generalizing dst len with
  | zero => rfl
  | succ left ih =>
    have hi : i ≠ len := by omega
    rw [scan]
    split_ifs with hmap
    · dsimp only
      split_ifs with hzero
      · exact Function.update_of_ne hi _ _
      · rw [ih (by omega), Function.update_of_ne hi]
    · rfl

/-- Both fetchers return the same value and leave the same destination: the string and its
length if it ends within `max` bytes on mapped pages, and -1 otherwise. -/
theorem strings_agree (t : Table) (s : Memory) (dst : ℕ → ℕ) (va max : ℕ) :
    ∃ r dst', copyinstr t s dst va max = .ok (r, dst') ∧ fetchstr t s va dst max = .ok (r, dst') ∧
      (∀ n, StringAt t s.mem va max n → r = n ∧ ∀ i, dst' i =
        if i < n then s.mem (physical t (va + i)) else if i = n then 0 else dst i) ∧
      ((∀ n, ¬ StringAt t s.mem va max n) → r = -1) ∧ ∀ i, max ≤ i → dst' i = dst i := by
  have hmax : 0 + max = max := Nat.zero_add max
  refine ⟨_, _, copyinstrLoop_eq rfl hmax (Nat.lt_succ_self max),
    fetchstrLoop_eq rfl hmax (Nat.lt_succ_self max), fun n h => ?_, fun h => ?_, fun i hi => ?_⟩
  · exact scan_string h (Nat.zero_le n) hmax fun i hi => absurd hi (Nat.not_lt_zero i)
  · exact scan_none h hmax fun i hi => absurd hi (Nat.not_lt_zero i)
  · exact scan_keeps (hmax.trans_le hi)

/-- An empty string on a valid user page, which is the physical page 0. -/
theorem copyinstr_refuses_page_zero : ∃ (t : Table) (s : Memory),
    UserPage t 0x1000 ∧ s.mem (physical t 0x1000) = 0 ∧
      copyinstr t s (fun _ => 1) 0x1000 10 = .ok (-1, fun _ => 1) := by
  refine ⟨fun _ => PTE_V ||| PTE_U, ⟨fun _ => 0, fun _ => 0, fun _ => 0⟩,
    ⟨by decide, by decide, by decide⟩, rfl, ?_⟩
  have hnot : ¬ Mapped (fun _ => PTE_V ||| PTE_U) 0x1000 := fun h => h.2 (by decide)
  unfold copyinstr
  rw [copyinstrLoop, if_pos (by decide)]
  simp only [walkaddr_base, if_neg hnot, ↓reduceIte]

/-! ### Addresses -/

/-- The eight bytes from a physical address on. -/
def wordAt (pa : ℕ) : List ℕ := (List.range 8).map fun i => (pa + i) % WORD

/-- The return value, the bytes of `slot`, and the physical addresses that are read behind
the page table. -/
def fetchaddr (t : Table) (s : Memory) (va : ℕ) (slot : ℕ → ℕ) : ℤ × (ℕ → ℕ) × List ℕ :=
  let pa := Mmap.walkaddr t va
  if pa = 0 then (-1, slot, [])
  else (0, fun i => if i < 8 then s.mem ((pa + i) % WORD) else slot i, wordAt pa)

/-- `fetchaddr` is a `copyin` of eight bytes that reads none but these. -/
def FetchesWord (t : Table) (s : Memory) (va : ℕ) (slot : ℕ → ℕ) : Prop :=
  ∃ r s', copyin t s 0 va 8 = .ok (r, s') ∧
    ((fetchaddr t s va slot).1 = 0 ↔ r = 0) ∧
    (r = 0 → ∀ i < 8, (fetchaddr t s va slot).2.1 i = s'.obj i) ∧
    ∀ a ∈ (fetchaddr t s va slot).2.2, ∃ i < 8, Mapped t (va + i) ∧ a = physical t (va + i)

/-- The word is not fetched at all, or it lies on one mapped page or on two that follow each
other in physical memory. -/
def WordFits (t : Table) (va : ℕ) : Prop :=
  Mmap.walkaddr t va = 0 ∨ Mapped t va ∧ (va % PGSIZE + 8 ≤ PGSIZE ∨
    Mmap.walkaddr t (pgRoundDown va + PGSIZE) = Mmap.walkaddr t (pgRoundDown va) + PGSIZE)

theorem walkaddr_eq (t : Table) (va : ℕ) :
    Mmap.walkaddr t va = if UserPage t va then physical t va else 0 := by
  have hpage : PTE2PA (t (vpn va)) = 2 ^ 12 * (PTE2PA (t (vpn va)) / PGSIZE) :=
    (Nat.mul_div_cancel' (Nat.dvd_of_mod_eq_zero (PTE2PA_mod _))).symm
  have hoff : va &&& 0xFFF = va % PGSIZE := Nat.and_two_pow_sub_one_eq_mod va 12
  have hor : PTE2PA (t (vpn va)) ||| va % PGSIZE = physical t va := by
    have hadd := Nat.two_pow_add_eq_or_of_lt (show va % PGSIZE < 2 ^ 12 from Nat.mod_lt _ (by decide))
      (PTE2PA (t (vpn va)) / PGSIZE)
    rw [← hpage] at hadd
    exact hadd.symm
  unfold Mmap.walkaddr UserPage
  by_cases h1 : va < MAXVA <;> by_cases h2 : t (vpn va) &&& PTE_V = 0 <;>
    by_cases h3 : t (vpn va) &&& PTE_U = 0 <;> simp [h1, h2, h3, hoff, hor]

theorem Mapped.walkaddr (h : Mapped t va) : Mmap.walkaddr t va = physical t va :=
  (walkaddr_eq t va).trans (if_pos h.1)

theorem Mapped.physical_ne_zero (h : Mapped t va) : physical t va ≠ 0 := by
  have hne := h.2
  unfold physical
  omega

theorem physical_lt (t : Table) (va : ℕ) : physical t va < WORD := by
  have hpage := PTE2PA_mod (t (vpn va))
  have hlt := PTE2PA_lt (t (vpn va))
  have hoff : va % PGSIZE < PGSIZE := Nat.mod_lt _ (by decide)
  unfold physical
  simp only [PGSIZE, WORD] at *
  omega

/-- Eight bytes on a page. -/
theorem fetchesWord_of_page (s : Memory) (slot : ℕ → ℕ)
    (h : ∀ i < 8, Mapped t (va + i) ∧ (physical t va + i) % WORD = physical t (va + i)) :
    FetchesWord t s va slot := by
  obtain ⟨r, s', hcopy, -, hiff, -, -, hread⟩ := copyin_spec t s 0 va 8
  obtain rfl : r = 0 := hiff.mpr fun i hi => (h i hi).1
  have hmap : Mapped t va := (h 0 (by decide)).1
  have hfetch : fetchaddr t s va slot = (0, fun i =>
      if i < 8 then s.mem ((physical t va + i) % WORD) else slot i, wordAt (physical t va)) := by
    unfold fetchaddr
    simp only [hmap.walkaddr, if_neg hmap.physical_ne_zero]
  refine ⟨0, s', hcopy, ?_, fun _ i hi => ?_, fun a ha => ?_⟩
  · rw [hfetch]
  · have hbyte := hread rfl i hi
    rw [Nat.zero_add] at hbyte
    rw [hfetch, hbyte]
    dsimp only
    rw [if_pos hi, (h i hi).2]
  · rw [hfetch] at ha
    obtain ⟨i, hi, rfl⟩ := List.mem_map.mp ha
    have hi' := List.mem_range.mp hi
    exact ⟨i, hi', (h i hi').1, (h i hi').2⟩

/-- The page behind the one of `va`. -/
theorem next_page {i : ℕ} (hi : i < 8) (hend : PGSIZE ≤ va % PGSIZE + i) :
    pgRoundDown (va + i) = pgRoundDown va + PGSIZE ∧
      (va + i) % PGSIZE = va % PGSIZE + i - PGSIZE := by
  simp only [pgRoundDown, PGSIZE] at *
  omega

theorem walkaddr_next {i : ℕ} (hi : i < 8) (hend : PGSIZE ≤ va % PGSIZE + i) :
    Mmap.walkaddr t (pgRoundDown va + PGSIZE) =
      if Mapped t (va + i) then PTE2PA (t (vpn (va + i))) else 0 := by
  rw [← (next_page hi hend).1, walkaddr_base]

/-- `fetchaddr` reads the word that the user sees if and only if the word fits. -/
theorem fetchaddr_iff (t : Table) (s : Memory) (va : ℕ) (slot : ℕ → ℕ) :
    FetchesWord t s va slot ↔ WordFits t va := by
  constructor
  · rintro ⟨r, s', hcopy, hret, -, hreads⟩
    by_cases h0 : Mmap.walkaddr t va = 0
    · exact Or.inl h0
    obtain ⟨r', s'', hcopy', -, hiff, -⟩ := copyin_spec t s 0 va 8
    rw [hcopy] at hcopy'
    cases hcopy'
    simp only [fetchaddr, if_neg h0, true_iff] at hret hreads
    have hmapped := hiff.mp hret
    have hmap : Mapped t va := hmapped 0 (by decide)
    refine Or.inr ⟨hmap, ?_⟩
    by_cases hfit : va % PGSIZE + 8 ≤ PGSIZE
    · exact Or.inl hfit
    -- The first byte behind the page is read, so it belongs to a byte of the range.
    have hmod : va % PGSIZE < PGSIZE := Nat.mod_lt _ (by decide)
    have hread : (physical t va + (PGSIZE - va % PGSIZE)) % WORD ∈ wordAt (physical t va) :=
      List.mem_map.mpr ⟨_, List.mem_range.mpr (by omega), rfl⟩
    rw [hmap.walkaddr] at hreads
    obtain ⟨i, hi, hmap', he⟩ := hreads _ hread
    have hbehind : physical t va + (PGSIZE - va % PGSIZE) = PTE2PA (t (vpn va)) + PGSIZE := by
      unfold physical
      omega
    have hlt := PTE2PA_lt (t (vpn va))
    have hbase := PTE2PA_mod (t (vpn va))
    have hne := hmap'.physical_ne_zero
    have hword : PTE2PA (t (vpn va)) + PGSIZE < WORD := by
      by_contra hwrap
      have hzero : PTE2PA (t (vpn va)) + PGSIZE = WORD := by
        simp only [PGSIZE, WORD] at *
        omega
      rw [hbehind, hzero, Nat.mod_self] at he
      exact hne he.symm
    rw [hbehind, Nat.mod_eq_of_lt hword] at he
    by_cases hin : va % PGSIZE + i < PGSIZE
    · have hphys := (@page_bytes t va i hin).2
      unfold physical at hphys he
      omega
    · have hend : PGSIZE ≤ va % PGSIZE + i := not_lt.mp hin
      rw [walkaddr_next hi hend, if_pos hmap', walkaddr_base_of_mapped hmap]
      have hbase' := PTE2PA_mod (t (vpn (va + i)))
      have hoff := (next_page hi hend).2
      unfold physical at he
      simp only [PGSIZE] at *
      omega
  · rintro (h0 | ⟨hmap, hpage | hnext⟩)
    · obtain ⟨r, s', hcopy, -, hiff, -⟩ := copyin_spec t s 0 va 8
      have hnot : r ≠ 0 := fun hr => by
        have hmap : Mapped t va := hiff.mp hr 0 (by decide)
        exact hmap.physical_ne_zero (hmap.walkaddr.symm.trans h0)
      refine ⟨r, s', hcopy, ?_, fun hr => absurd hr hnot, ?_⟩
      · simp only [fetchaddr, h0, ↓reduceIte]
        exact iff_of_false (by decide) hnot
      · simp only [fetchaddr, h0, ↓reduceIte]
        exact fun a ha => absurd ha List.not_mem_nil
    · apply fetchesWord_of_page
      intro i hi
      obtain ⟨hmap', hphys⟩ := @page_bytes t va i (by omega)
      refine ⟨hmap'.mpr hmap, ?_⟩
      rw [← hphys, Nat.mod_eq_of_lt (physical_lt t _)]
    · apply fetchesWord_of_page
      intro i hi
      by_cases hin : va % PGSIZE + i < PGSIZE
      · obtain ⟨hmap', hphys⟩ := @page_bytes t va i hin
        refine ⟨hmap'.mpr hmap, ?_⟩
        rw [← hphys, Nat.mod_eq_of_lt (physical_lt t _)]
      · have hend : PGSIZE ≤ va % PGSIZE + i := not_lt.mp hin
        have hoff := (next_page hi hend).2
        rw [walkaddr_next hi hend, walkaddr_base_of_mapped hmap] at hnext
        split_ifs at hnext with hmap'
        · have hphys : physical t va + i = physical t (va + i) := by
            unfold physical
            omega
          rw [hphys, Nat.mod_eq_of_lt (physical_lt t _)]
          exact ⟨hmap', rfl⟩
        · simp only [PGSIZE] at hnext
          omega

/-- Four bytes in front of a page end, and nothing mapped behind: `fetchaddr` succeeds. -/
theorem fetchaddr_crosses_page : ∃ (t : Table) (s : Memory),
    (fetchaddr t s 0x1ffc fun _ => 0).1 = 0 ∧ ¬ FetchesWord t s 0x1ffc fun _ => 0 := by
  let t : Table := fun v => if v = 1 then PA2PTE 0x80200000 ||| (PTE_V ||| PTE_U) else 0
  refine ⟨t, ⟨id, id, id⟩, by decide, fun h => ?_⟩
  have hfit : ¬ WordFits t 0x1ffc := by
    unfold WordFits
    decide
  exact hfit ((fetchaddr_iff _ _ _ _).mp h)

end Zrhos.Vm
