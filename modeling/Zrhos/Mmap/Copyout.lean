import Zrhos.Mmap.Refine

/-! Copies of the kernel to user memory against stores of the user. `copyout` asks only
`walkaddr`; a store goes through the page table's permissions and the fault handler. -/
namespace Zrhos.Mmap
open OrderedSet

/-- A user-mode store of the bytes. -/
def storeBytes : Phys → Task → ℕ → List ℕ → Except Stop (Phys × Task)
  | s, t, _, [] => .ok (s, t)
  | s, t, va, b :: bs => do
    let (s, t) ← userStore s t va b
    storeBytes s t ((va + 1) % WORD) bs

/-- The addresses of `len` bytes from `va` on. -/
def Touches (va len a : ℕ) : Prop := ∃ i < len, a = (va + i) % WORD

/-- `copyout` and the hardware both let a write to `a` through. -/
def Writable (t : Task) (a : ℕ) : Prop :=
  walkaddr t.pagetable (pgRoundDown a) ≠ 0 ∧ translate t a PTE_W ≠ none

/-- The hardware stops a store, and so does the fault handler: there is no address to
translate, no region, or a region without `PERM_W`. -/
def Refused (t : Task) (a : ℕ) : Prop :=
  translate t a PTE_W = none ∧ (Canonical a → ∀ n, regionAt t (pgRoundDown a) = some n →
    n.perm &&& PERM_W = 0)

/-- Every page can be written as it is, or both paths refuse one. Permissions without frame
bits keep user pages and page tables apart. -/
def Settles (t : Task) (va len : ℕ) : Prop :=
  (∀ n ∈ t.tree, PermOk n.perm) ∧
  ((∀ a, Touches va len a → Writable t a) ∨
    ((∃ a, Touches va len a ∧ walkaddr t.pagetable (pgRoundDown a) = 0) ∧
      ∃ a, Touches va len a ∧ Refused t a))

variable {s s' : Phys} {t t' : Task} {va a len : ℕ} {bs cs : List ℕ}

theorem touches_zero (h : 0 < len) (hva : va < WORD) : Touches va len va :=
  ⟨0, h, (Nat.mod_eq_of_lt hva).symm⟩

theorem Touches.shift {k : ℕ} (h : Touches ((va + k) % WORD) len a) : Touches va (len + k) a := by
  obtain ⟨i, hi, rfl⟩ := h
  exact ⟨i + k, by omega, by rw [Nat.mod_add_mod, add_assoc, add_comm k i]⟩

theorem touches_split {k : ℕ} (h : Touches va (len + k) a) :
    Touches va k a ∨ Touches ((va + k) % WORD) len a := by
  obtain ⟨i, hi, rfl⟩ := h
  by_cases hk : i < k
  · exact Or.inl ⟨i, hk, rfl⟩
  · refine Or.inr ⟨i - k, by omega, ?_⟩
    rw [Nat.mod_add_mod, add_assoc, Nat.add_sub_cancel' (not_lt.mp hk)]

theorem Touches.mono {k : ℕ} (h : Touches va len a) (hk : len ≤ k) : Touches va k a := by
  obtain ⟨i, hi, rfl⟩ := h
  exact ⟨i, hi.trans_le hk, rfl⟩

/-! ### Both paths succeed -/

theorem storeBytes_append (hw : va < WORD) :
    storeBytes s t va (bs ++ cs) = (storeBytes s t va bs >>= fun p =>
      storeBytes p.1 p.2 ((va + bs.length) % WORD) cs) := by
  induction bs generalizing s t va with
  | nil =>
    change _ = storeBytes s t ((va + 0) % WORD) cs
    rw [add_zero, Nat.mod_eq_of_lt hw]
    rfl
  | cons b bs ih =>
    rw [List.cons_append, storeBytes, storeBytes]
    cases userStore s t va b with
    | error e => rfl
    | ok p =>
      change storeBytes p.1 p.2 _ (bs ++ cs) = (storeBytes p.1 p.2 _ bs >>= _)
      rw [ih (Nat.mod_lt _ (by decide)), Nat.mod_add_mod, List.length_cons, add_assoc,
        add_comm 1 bs.length]

theorem and_0xFFF (x : ℕ) : x &&& 0xFFF = x % PGSIZE := Nat.and_two_pow_sub_one_eq_mod x 12

theorem walkaddr_page (h : walkaddr t.pagetable (pgRoundDown a) ≠ 0) :
    a < MAXVA ∧ walkaddr t.pagetable (pgRoundDown a) = PTE2PA (t.pagetable (vpn a)) := by
  unfold walkaddr at h ⊢
  dsimp only at h ⊢
  split_ifs at h with hmax hv hu
  · simp at h
  · simp at h
  · simp at h
  · refine ⟨?_, ?_⟩
    · simp only [pgRoundDown, PGSIZE, MAXVA] at hmax ⊢
      omega
    · rw [if_neg hmax, if_neg hv, if_neg hu, vpn_pgRoundDown, and_0xFFF, pgRoundDown_mod,
        Nat.or_zero]

theorem userStore_writable {b : ℕ} (h : translate t a PTE_W ≠ none) :
    userStore s t a b = .ok ({ s with
      mem := writeBytes s.mem (PTE2PA (t.pagetable (vpn a))) (a % PGSIZE) [b] }, t) := by
  obtain ⟨pa, hpa⟩ := Option.ne_none_iff_exists'.mp h
  have hframe : PTE2PA (t.pagetable (vpn a)) = pa := (translate_some hpa).1.2.2
  have hmem : writeBytes s.mem pa (a % PGSIZE) [b] =
      Function.update s.mem pa (Function.update (s.mem pa) (a % PGSIZE) b) := by
    funext q
    by_cases hq : q = pa
    · rw [hq, writeBytes_single, Function.update_self]
    · rw [writeBytes_of_ne hq, Function.update_of_ne hq]
  rw [hframe, hmem]
  unfold userStore access
  rw [hpa]
  rfl

theorem writeBytes_cons {mem : ℕ → ℕ → ℕ} {p off b : ℕ} :
    writeBytes mem p off (b :: bs) = writeBytes (writeBytes mem p off [b]) p (off + 1) bs := by
  funext q
  by_cases hq : q = p
  · rw [hq, writeBytes, writeBytes, Function.update_self, Function.update_self, writeBytes_single]
    funext k
    by_cases hk : k = off
    · rw [hk, if_pos le_rfl, if_neg (by omega), Function.update_self, Nat.sub_self]
      rfl
    · rw [Function.update_of_ne hk]
      by_cases hle : off ≤ k
      · rw [if_pos hle, if_pos (by omega), show k - off = k - (off + 1) + 1 by omega]
        rfl
      · rw [if_neg hle, if_neg (by omega)]
  · rw [writeBytes_of_ne hq, writeBytes_of_ne hq, writeBytes_of_ne hq]

theorem writeBytes_nil {mem : ℕ → ℕ → ℕ} {p off : ℕ} : writeBytes mem p off [] = mem := by
  simp [writeBytes]

/-- Stores inside one page are one `memmove`. -/
theorem storeBytes_page {base off : ℕ} (hbase : base % PGSIZE = 0) (hmax : base < MAXVA)
    (hoff : off + bs.length ≤ PGSIZE) (h : ∀ i < bs.length, translate t (base + off + i) PTE_W ≠ none) :
    storeBytes s t (base + off) bs = .ok ({ s with
      mem := writeBytes s.mem (PTE2PA (t.pagetable (vpn base))) off bs }, t) := by
  induction bs generalizing s off with
  | nil =>
    rw [writeBytes_nil]
    rfl
  | cons b bs ih =>
    rw [List.length_cons] at hoff h
    have hlt : off < PGSIZE := by omega
    have hvpn : vpn (base + off) = vpn base := by
      simp only [vpn, PGSIZE] at *
      omega
    have hmod : (base + off) % PGSIZE = off := by
      simp only [PGSIZE] at *
      omega
    have hnext : (base + off + 1) % WORD = base + (off + 1) := by
      rw [add_assoc, Nat.mod_eq_of_lt]
      simp only [MAXVA, WORD, PGSIZE] at *
      omega
    have hrest (i : ℕ) (hi : i < bs.length) : translate t (base + (off + 1) + i) PTE_W ≠ none := by
      have := h (i + 1) (by omega)
      rwa [show base + off + (i + 1) = base + (off + 1) + i by omega] at this
    have hfirst : translate t (base + off) PTE_W ≠ none := h 0 (by omega)
    rw [storeBytes, userStore_writable hfirst, hvpn, hmod]
    change storeBytes _ t ((base + off + 1) % WORD) bs = _
    have hcons := @writeBytes_cons bs s.mem (PTE2PA (t.pagetable (vpn base))) off b
    rw [hnext, ih (by omega) hrest, hcons]

/-- Where every page can be written as it is, the two paths do the same. -/
theorem copyoutLoop_store {fuel : ℕ} (hlen : bs.length ≤ fuel) (hw : va < WORD)
    (h : ∀ a, Touches va bs.length a → Writable t a) :
    ∃ s', copyoutLoop t.pagetable fuel s va bs = (0, s') ∧ storeBytes s t va bs = .ok (s', t) := by
  induction fuel generalizing s va bs with
  | zero =>
    obtain rfl := List.length_eq_zero_iff.mp (Nat.le_zero.mp hlen)
    exact ⟨s, rfl, rfl⟩
  | succ fuel ih =>
    by_cases hnil : bs.length = 0
    · obtain rfl := List.length_eq_zero_iff.mp hnil
      exact ⟨s, rfl, rfl⟩
    have hwalk := (h va (touches_zero (Nat.pos_of_ne_zero hnil) hw)).1
    obtain ⟨hmax, hpa⟩ := walkaddr_page hwalk
    have hoff : va = pgRoundDown va + va % PGSIZE := (Nat.div_add_mod' va PGSIZE).symm
    have hlt : va % PGSIZE < PGSIZE := Nat.mod_lt _ (by decide)
    have hsub : va - pgRoundDown va = va % PGSIZE := by omega
    obtain ⟨n, hn⟩ : ∃ n, n = min (PGSIZE - va % PGSIZE) bs.length := ⟨_, rfl⟩
    have hnpos : 0 < n := by omega
    have htake : (bs.take n).length = n := by rw [List.length_take]; omega
    have hpage := @storeBytes_page s t (bs.take n) _ (va % PGSIZE)
      (pgRoundDown_mod va) ((pgRoundDown_le va).trans_lt hmax) (by omega) fun i hi => by
        rw [← hoff]
        refine (h (va + i) ⟨i, by omega, (Nat.mod_eq_of_lt ?_).symm⟩).2
        simp only [WORD, MAXVA, PGSIZE] at *
        omega
    rw [← hoff, vpn_pgRoundDown] at hpage
    have hstore : storeBytes s t va bs = storeBytes { s with
        mem := writeBytes s.mem (PTE2PA (t.pagetable (vpn va))) (va % PGSIZE) (bs.take n) } t
        ((va + n) % WORD) (bs.drop n) := by
      conv_lhs => rw [← List.take_append_drop n bs]
      rw [storeBytes_append hw, hpage, htake]
      rfl
    unfold copyoutLoop
    dsimp only
    rw [if_neg hnil, if_neg hwalk, hsub, ← hn, hpa, hstore]
    have hdrop : (bs.drop n).length = bs.length - n := List.length_drop
    by_cases hend : n = bs.length
    · rw [hend, List.drop_length]
      refine ⟨_, ?_, rfl⟩
      cases fuel <;> rfl
    · have hnext : (pgRoundDown va + PGSIZE) % WORD = (va + n) % WORD := by
        congr 1
        omega
      rw [hnext]
      refine ih (by omega) (Nat.mod_lt _ (by decide)) fun a ha => h a ?_
      exact ha.shift.mono (by omega)

/-! ### Both paths refuse -/

/-- `copyout` succeeds exactly when `walkaddr` finds every page. -/
theorem copyoutLoop_result {pagetable : ℕ → ℕ} {fuel : ℕ} (hlen : bs.length ≤ fuel)
    (hw : va < WORD) :
    (copyoutLoop pagetable fuel s va bs).1 = 0 ↔
      ∀ a, Touches va bs.length a → walkaddr pagetable (pgRoundDown a) ≠ 0 := by
  have hempty {va : ℕ} (a : ℕ) : ¬ Touches va 0 a := fun ⟨_, hi, _⟩ => Nat.not_lt_zero _ hi
  induction fuel generalizing s va bs with
  | zero =>
    rw [Nat.le_zero.mp hlen]
    exact iff_of_true rfl fun a ha => absurd ha (hempty a)
  | succ fuel ih =>
    unfold copyoutLoop
    dsimp only
    by_cases hnil : bs.length = 0
    · rw [if_pos hnil, hnil]
      exact iff_of_true rfl fun a ha => absurd ha (hempty a)
    rw [if_neg hnil]
    by_cases hwalk : walkaddr pagetable (pgRoundDown va) = 0
    · rw [if_pos hwalk]
      exact iff_of_false (show ¬ (-1 : ℤ) = 0 by decide) fun h =>
        h va (touches_zero (Nat.pos_of_ne_zero hnil) hw) hwalk
    rw [if_neg hwalk]
    have hoff : va = pgRoundDown va + va % PGSIZE := (Nat.div_add_mod' va PGSIZE).symm
    have hlt : va % PGSIZE < PGSIZE := Nat.mod_lt _ (by decide)
    obtain ⟨n, hn⟩ : ∃ n, n = min (PGSIZE - (va - pgRoundDown va)) bs.length := ⟨_, rfl⟩
    have hdrop : (bs.drop n).length = bs.length - n := List.length_drop
    have hmod : (pgRoundDown va + PGSIZE) % WORD < WORD := Nat.mod_lt _ (by decide)
    rw [← hn]
    refine (ih (by omega) hmod).trans ?_
    rw [hdrop]
    have hpage (a : ℕ) (ha : Touches va n a) : pgRoundDown a = pgRoundDown va := by
      obtain ⟨i, hi, rfl⟩ := ha
      have hin : va % PGSIZE + i < PGSIZE := by omega
      clear * - hin hw
      simp only [pgRoundDown, PGSIZE, WORD] at *
      omega
    have hnext : (pgRoundDown va + PGSIZE) % WORD = (va + n) % WORD ∨ bs.length - n = 0 := by
      by_cases hend : n = bs.length
      · exact Or.inr (by omega)
      · exact Or.inl (by congr 1; omega)
    constructor
    · intro h a ha
      have hall : Touches va (bs.length - n + n) a := ha.mono (by omega)
      rcases touches_split hall with ha | ha
      · rwa [hpage a ha]
      · rcases hnext with hnext | hnext
        · rw [← hnext] at ha
          exact h a ha
        · rw [hnext] at ha
          exact absurd ha (hempty a)
    · intro h a ha
      rcases hnext with hnext | hnext
      · rw [hnext] at ha
        exact h a (ha.shift.mono (by omega))
      · rw [hnext] at ha
        exact absurd ha (hempty a)

theorem copyOnWrite_entry (h : copyOnWrite s t va = .ok (s', t')) :
    ∃ e, t' = { t with pagetable := Function.update t.pagetable (vpn va) e } := by
  unfold copyOnWrite at h
  dsimp only at h
  split at h
  · cases h
    exact ⟨_, rfl⟩
  · obtain ⟨⟨pa, s₁⟩, hp, h⟩ := bind_ok h
    cases h
    exact ⟨_, rfl⟩

theorem handlePagefault_tree {stval scause : ℕ}
    (h : handlePagefault s t stval scause = .ok (s', t')) :
    t'.tree = t.tree ∧ ∀ v, v ≠ vpn stval → t'.pagetable v = t.pagetable v := by
  obtain ⟨n, hn, ⟨-, rfl, -⟩ | ⟨pa, s₁, -, -, -, rfl⟩ | ⟨-, -, -, -, hcow⟩⟩ :=
    handlePagefault_cases h
  · exact ⟨rfl, fun _ _ => rfl⟩
  · exact ⟨rfl, fun v hv => Function.update_of_ne hv _ _⟩
  · obtain ⟨e, rfl⟩ := copyOnWrite_entry hcow
    exact ⟨rfl, fun v hv => Function.update_of_ne (by rwa [vpn_pgRoundDown]) _ _⟩

theorem access_tree {bits scause fuel pa : ℕ}
    (h : access bits scause fuel s t va = .ok (pa, s', t')) :
    t'.tree = t.tree ∧ ∀ v, v ≠ vpn va → t'.pagetable v = t.pagetable v := by
  induction fuel generalizing s t with
  | zero => cases h
  | succ fuel ih =>
    unfold access at h
    split at h
    · cases h
      exact ⟨rfl, fun _ _ => rfl⟩
    · obtain ⟨⟨s₁, t₁⟩, hf, h⟩ := bind_ok h
      obtain ⟨htree, hpt⟩ := ih h
      obtain ⟨htree₁, hpt₁⟩ := handlePagefault_tree hf
      exact ⟨htree.trans htree₁, fun v hv => (hpt v hv).trans (hpt₁ v hv)⟩

theorem translate_none_of_not_writable {bits : ℕ} (hb : bits &&& PTE_W ≠ 0)
    (h : t.pagetable (vpn a) &&& PTE_W = 0) : translate t a bits = none := by
  by_contra hsome
  obtain ⟨pa, hpa⟩ := Option.ne_none_iff_exists'.mp hsome
  exact writable_iff.mpr ((translate_some hpa).2 2 (writable_iff.mp hb)) h

theorem translate_none_of_not_canonical {bits : ℕ} (h : ¬ Canonical a) :
    translate t a bits = none := if_neg fun hc => h hc.1

theorem Refused.fault (h : Refused t a) (he : handlePagefault s t a 15 = .ok (s', t')) :
    Refused t' a := by
  have htree := (handlePagefault_tree he).1
  by_cases hcan : Canonical a
  · refine ⟨?_, fun hc n hn => h.2 hc n (regionAt_congr htree _ ▸ hn)⟩
    obtain ⟨n, hn, ⟨-, rfl, -⟩ | ⟨pa, s₁, -, -, -, rfl⟩ | ⟨-, -, -, hperm, -⟩⟩ :=
      handlePagefault_cases he
    · exact h.1
    · refine translate_none_of_not_writable (by decide) ?_
      dsimp only
      rw [Function.update_self]
      by_contra hw
      exact writable_iff.mpr (writable_userPte.mp hw) (h.2 hcan n hn)
    · exact absurd (h.2 hcan n hn) hperm
  · exact ⟨translate_none_of_not_canonical hcan, fun hc => absurd hc hcan⟩

theorem Refused.access {fuel : ℕ} (h : Refused t a) :
    (Mmap.access PTE_W 15 fuel s t a).toBool = false := by
  induction fuel generalizing s t with
  | zero => rfl
  | succ fuel ih =>
    unfold Mmap.access
    rw [h.1]
    dsimp only
    cases hf : handlePagefault s t a 15 with
    | error e => rfl
    | ok p =>
      obtain ⟨s₁, t₁⟩ := p
      exact ih (h.fault hf)

theorem access_translate {bits scause fuel pa : ℕ}
    (h : Mmap.access bits scause fuel s t va = .ok (pa, s', t')) :
    translate t' va bits = some pa := by
  induction fuel generalizing s t with
  | zero => cases h
  | succ fuel ih =>
    unfold Mmap.access at h
    split at h
    case _ htr =>
      cases h
      exact htr
    · obtain ⟨⟨s₁, t₁⟩, -, h⟩ := bind_ok h
      exact ih h

theorem Refused.userStore {b : ℕ} (h : Refused t a) : userStore s t a b ≠ .ok (s', t') := by
  intro he
  obtain ⟨⟨pa, s₁, t₁⟩, ha, -⟩ := bind_ok he
  have := @Refused.access s t a 3 h
  rw [ha] at this
  cases this

/-- Addresses the hardware accepts are apart when their page numbers are. -/
theorem Canonical.page_eq {c : ℕ} (ha : Canonical a) (hc : Canonical c) (h : vpn a = vpn c) :
    pgRoundDown a = pgRoundDown c := by
  simp only [Canonical, vpn, pgRoundDown, PGSIZE] at *
  omega

/-- A store elsewhere does not lift a refusal. -/
theorem Refused.store {b c : ℕ} (h : Refused t a) (he : Mmap.userStore s t c b = .ok (s', t')) :
    Refused t' a := by
  obtain ⟨⟨pa, s₁, t₁⟩, hacc, he'⟩ := bind_ok he
  cases he'
  obtain ⟨htree, hpt⟩ := access_tree hacc
  by_cases hcan : Canonical a
  · refine ⟨?_, fun hc n hn => h.2 hc n (regionAt_congr htree _ ▸ hn)⟩
    have hcanc : Canonical c := by
      by_contra hnc
      have := access_translate hacc
      rw [translate_none_of_not_canonical hnc] at this
      cases this
    by_cases hv : vpn a = vpn c
    · have hsame : translate t c PTE_W = translate t a PTE_W := by
        unfold translate
        simp only [hv, hcan, hcanc]
      refine absurd he (Refused.userStore ⟨hsame.trans h.1, fun _ n hn => h.2 hcan n ?_⟩)
      rwa [hcan.page_eq hcanc hv]
    · have hsame : translate t' a PTE_W = translate t a PTE_W := by
        unfold translate
        rw [hpt _ hv]
      exact hsame.trans h.1
  · exact ⟨translate_none_of_not_canonical hcan, fun hc => absurd hc hcan⟩

theorem storeBytes_not_refused (hw : va < WORD) (h : storeBytes s t va bs = .ok (s', t'))
    (ha : Touches va bs.length a) : ¬ Refused t a := by
  induction bs generalizing s t va with
  | nil =>
    obtain ⟨i, hi, -⟩ := ha
    exact absurd hi (Nat.not_lt_zero _)
  | cons b bs ih =>
    intro hr
    obtain ⟨⟨s₁, t₁⟩, hs, h⟩ := bind_ok h
    rcases touches_split (k := 1) ha with ⟨i, hi, hai⟩ | ha
    · rw [Nat.lt_one_iff.mp hi, add_zero, Nat.mod_eq_of_lt hw] at hai
      rw [hai] at hr
      exact hr.userStore hs
    · exact ih (Nat.mod_lt _ (by decide)) h ha (hr.store hs)

/-! ### Agreement -/

/-- `copyout` succeeds exactly when the store does, and then leaves the same physical
memory behind the same page table: no view of user memory can differ. -/
structure Agrees (s : Phys) (t : Task) (va : ℕ) (bs : List ℕ) : Prop where
  success : (copyout s t.pagetable va bs).1 = 0 ↔ ∃ s' t', storeBytes s t va bs = .ok (s', t')
  effect : ∀ s' t', (copyout s t.pagetable va bs).1 = 0 → storeBytes s t va bs = .ok (s', t') →
    (copyout s t.pagetable va bs).2 = s' ∧ t = t'

/-- Copies agree with stores wherever all pages are writable as they are, or both refuse. -/
theorem copyout_agrees (hw : va < WORD) (h : Settles t va bs.length) : Agrees s t va bs := by
  rcases h.2 with h | ⟨⟨a, ha, hzero⟩, c, hc, hr⟩
  · obtain ⟨s', hcopy, hstore⟩ := copyoutLoop_store (s := s) le_rfl hw h
    have hcopy' : copyout s t.pagetable va bs = (0, s') := hcopy
    refine ⟨iff_of_true (by rw [hcopy']) ⟨s', t, hstore⟩, fun s₁ t₁ _ he => ?_⟩
    cases hstore.symm.trans he
    exact ⟨by rw [hcopy'], rfl⟩
  · have hcopy : ¬ (copyout s t.pagetable va bs).1 = 0 := fun h0 =>
      (copyoutLoop_result le_rfl hw).mp h0 a ha hzero
    refine ⟨iff_of_false hcopy ?_, fun s₁ t₁ h0 _ => absurd h0 hcopy⟩
    rintro ⟨s₁, t₁, hstore⟩
    exact storeBytes_not_refused hw hstore hc hr

/-- A task that has mapped a page and stored a byte in it. -/
def storedPage : Except Stop (Phys × Task) := do
  let (s, t) ← utaskCreate machine.trampoline machine.phys 0
  let (_, s, t) ← sysMmap s t 0x10000000 4096 (PERM_R ||| PERM_W) MAP_ANONYMOUS
  let (s, t) ← userStore s t 0x10000000 7
  check ((∀ n ∈ t.tree, PermOk n.perm) ∧ walkaddr t.pagetable 0x10000000 ≠ 0 ∧
    translate t 0x10000000 PTE_W ≠ none ∧ translate t 0x10000001 PTE_W ≠ none)
  return (s, t)

theorem stored_page_agrees : ∃ s t, storedPage = .ok (s, t) ∧
    Settles t 0x10000000 2 ∧ Agrees s t 0x10000000 [8, 9] := by
  obtain ⟨⟨s, t⟩, h⟩ := ok_of_toBool (x := storedPage) (by decide)
  have hall := h
  unfold storedPage at h
  obtain ⟨⟨s₁, t₁⟩, -, h⟩ := bind_ok h
  obtain ⟨⟨r, s₂, t₂⟩, -, h⟩ := bind_ok h
  obtain ⟨⟨s₃, t₃⟩, -, h⟩ := bind_ok h
  obtain ⟨_, hcheck, h⟩ := bind_ok h
  cases h
  obtain ⟨hperm, hwalk, h₀, h₁⟩ := of_check hcheck
  have hsettles : Settles t 0x10000000 2 := by
    refine ⟨hperm, Or.inl fun a ha => ?_⟩
    obtain ⟨i, hi, rfl⟩ := ha
    rcases Nat.le_one_iff_eq_zero_or_eq_one.mp (Nat.le_of_lt_succ hi) with rfl | rfl
    · exact ⟨hwalk, h₀⟩
    · exact ⟨hwalk, h₁⟩
  exact ⟨s, t, hall, hsettles, copyout_agrees (by decide) hsettles⟩

/-- What a copy and a store of the byte `9` do to a page that is only registered, and to a
page without `PERM_W` that was read once. -/
def copyAndStore (perm : ℕ) (touch : Bool) : Except Stop (ℤ × Bool) := do
  let (s, t) ← utaskCreate machine.trampoline machine.phys 0
  let (_, s, t) ← sysMmap s t 0x10000000 4096 perm MAP_ANONYMOUS
  let (s, t) ← if touch then handlePagefault s t 0x10000000 13 else .ok (s, t)
  return ((copyout s t.pagetable 0x10000000 [9]).1, (storeBytes s t 0x10000000 [9]).toBool)

theorem copyout_disagrees :
    (copyAndStore (PERM_R ||| PERM_W) false).toOption = some (-1, true) ∧
      (copyAndStore PERM_R true).toOption = some (0, false) := by
  constructor <;> decide

end Zrhos.Mmap
