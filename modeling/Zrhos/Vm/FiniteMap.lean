import Zrhos.Vm.Map

/-! The page table as a finite map from virtual pages to frames with permissions, over
every sequence of `vm_map` and `vm_unmap` calls. -/
namespace Zrhos.Vm

variable {S : Supply} {s s' : Ram} {pt : ℕ}

/-- The frame and the permissions of each mapped page. -/
abbrev Mapping := ℕ → Option (ℕ × ℕ)

def Mapping.map (m : Mapping) (va pa sz perm : ℕ) : Mapping := fun v =>
  if va / PGSIZE ≤ v ∧ v ≤ (va + sz - 1) / PGSIZE then
    some ((pa + (v - va / PGSIZE) * PGSIZE) % WORD, perm)
  else m v

def Mapping.unmap (m : Mapping) (va npages : ℕ) : Mapping := fun v =>
  if va / PGSIZE ≤ v ∧ v < va / PGSIZE + npages then none else m v

/-- What callers of `vm_map` owe it. -/
structure MapCall (m : Mapping) (va pa sz perm : ℕ) (remap : Bool) : Prop where
  va_aligned : va % PGSIZE = 0
  pa_aligned : pa % PGSIZE = 0
  pa_lt : pa < WORD
  sz_pos : 0 < sz
  va_le : va + sz ≤ MAXVA
  perm_lt : perm < 2 ^ 10
  leaf : perm &&& (PTE_R ||| PTE_W ||| PTE_X) ≠ 0
  unmapped : remap = true ∨
    ∀ v, va / PGSIZE ≤ v → v ≤ (va + sz - 1) / PGSIZE → m v = none

structure UnmapCall (m : Mapping) (va npages : ℕ) : Prop where
  va_lt : va < WORD
  va_aligned : va % PGSIZE = 0
  mapped : ∀ v, va / PGSIZE ≤ v → v < va / PGSIZE + npages → m v ≠ none

/-- A table created by `vm_create`, the calls on it, and other code of the kernel that
takes pages from the allocator and writes anywhere but into the table pages. -/
inductive Run (S : Supply) : ℕ → Ram → Mapping → Prop where
  | create {s₀ s : Ram} {pt : ℕ} : vmCreate S s₀ = .ok (pt, s) → Run S pt s (fun _ => none)
  | map {pt : ℕ} {s s' : Ram} {m : Mapping} {va pa sz perm : ℕ} {remap : Bool} {ret : ℤ} :
      Run S pt s m → MapCall m va pa sz perm remap →
      vmMap S s pt va pa sz perm remap = .ok (ret, s') → Run S pt s' (m.map va pa sz perm)
  | unmap {pt : ℕ} {s s' : Ram} {m : Mapping} {va npages : ℕ} :
      Run S pt s m → UnmapCall m va npages →
      vmUnmap S s pt va npages false = .ok s' → Run S pt s' (m.unmap va npages)
  | other {pt : ℕ} {s s' : Ram} {m : Mapping} : Run S pt s m → s.next ≤ s'.next →
      s'.next ≤ S.count →
      (∀ p, IsTable s pt p → ∀ i < 512, s'.word (entry p i) = s.word (entry p i)) → Run S pt s' m

/-- The entry of a page. -/
def encode : Option (ℕ × ℕ) → ℕ
  | none => 0
  | some (pa, perm) => PA2PTE pa ||| (perm ||| PTE_V)

/-- Mapped pages lie below `MAXVA` and carry what `vm_map` was given. -/
def Wf (m : Mapping) : Prop :=
  ∀ v pa perm, m v = some (pa, perm) → v < 2 ^ 26 ∧ pa % PGSIZE = 0 ∧ pa < WORD ∧
    perm < 2 ^ 10 ∧ perm &&& (PTE_R ||| PTE_W ||| PTE_X) ≠ 0

theorem encode_leaf {pa perm : ℕ} (hp : perm < 2 ^ 10)
    (hl : perm &&& (PTE_R ||| PTE_W ||| PTE_X) ≠ 0) : IsLeaf (encode (some (pa, perm))) := by
  constructor
  · rw [encode, ← Nat.or_assoc]
    exact or_PTE_V_valid _
  · rw [encode, PTE_FLAGS_pack pa (or_PTE_V_lt hp)]
    intro he
    apply hl
    have hz : (perm ||| PTE_V) &&& (PTE_R ||| PTE_W ||| PTE_X) = 0 := by
      rw [he]
      decide
    rw [Nat.and_or_distrib_right] at hz
    exact Nat.le_zero.mp (Nat.left_le_or.trans_eq hz)

/-! ### Each call refines its counterpart on the map -/

theorem MapCall.pages {m : Mapping} {va pa sz perm : ℕ} {remap : Bool}
    (h : MapCall m va pa sz perm remap) :
    vpn va = va / PGSIZE ∧ (va + sz - 1) / PGSIZE = va / PGSIZE + (sz - 1) / PGSIZE ∧
      va / PGSIZE + (sz - 1) / PGSIZE < 2 ^ 26 := by
  have hle : va + sz ≤ 2 ^ 38 := h.va_le
  have hal := h.va_aligned
  have hpos := h.sz_pos
  refine ⟨vpn_of_lt (by omega), ?_, ?_⟩ <;> simp only [PGSIZE] at * <;> omega

theorem MapCall.wf {m : Mapping} {va pa sz perm : ℕ} {remap : Bool}
    (h : MapCall m va pa sz perm remap) (hm : Wf m) : Wf (m.map va pa sz perm) := by
  intro v pa' perm' hv
  obtain ⟨-, hlast, hlt⟩ := h.pages
  unfold Mapping.map at hv
  split_ifs at hv with hin
  · cases hv
    have hal := h.pa_aligned
    refine ⟨by omega, ?_, Nat.mod_lt _ (by decide), h.perm_lt, h.leaf⟩
    simp only [PGSIZE, WORD] at *
    omega
  · exact hm v pa' perm' hv

theorem MapCall.table {m : Mapping} {va pa sz perm : ℕ} {remap : Bool}
    (h : MapCall m va pa sz perm remap) :
    mapPages (fun v => encode (m v)) (vpn va) pa ((sz - 1) / PGSIZE + 1)
      (sext32 perm ||| PTE_V) = fun v => encode (m.map va pa sz perm v) := by
  obtain ⟨hv, hlast, -⟩ := h.pages
  funext v
  rw [sext32_of_lt (h.perm_lt.trans (by decide)), hv]
  unfold mapPages Mapping.map
  by_cases hin : va / PGSIZE ≤ v ∧ v < va / PGSIZE + ((sz - 1) / PGSIZE + 1)
  · rw [if_pos hin, if_pos (by omega)]
    rfl
  · rw [if_neg hin, if_neg (by omega)]

theorem UnmapCall.pages {m : Mapping} {va npages : ℕ} (h : UnmapCall m va npages) (hm : Wf m) :
    npages = 0 ∨ (vpn va = va / PGSIZE ∧ va / PGSIZE + npages ≤ 2 ^ 26) := by
  by_cases hz : npages = 0
  · exact Or.inl hz
  · have hbound {v : ℕ} (h1 : va / PGSIZE ≤ v) (h2 : v < va / PGSIZE + npages) : v < 2 ^ 26 := by
      obtain ⟨⟨pa, perm⟩, hv⟩ := Option.ne_none_iff_exists'.mp (h.mapped v h1 h2)
      exact (hm v pa perm hv).1
    have h1 := hbound (v := va / PGSIZE) le_rfl (by omega)
    have h2 := hbound (v := va / PGSIZE + (npages - 1)) (by omega) (by omega)
    refine Or.inr ⟨vpn_of_lt ?_, by omega⟩
    simp only [PGSIZE] at h1
    omega

/-- What the memory of a run stands for. -/
structure Holds (S : Supply) (pt : ℕ) (s : Ram) (m : Mapping) : Prop where
  wf : Wf m
  repr : ∃ r d, pt = S.page r ∧ Repr S r s d fun v => encode (m v)

theorem Holds.map {m : Mapping} {va pa sz perm : ℕ} {remap : Bool} (h : Holds S pt s m)
    (hc : MapCall m va pa sz perm remap) :
    (vmMap S s pt va pa sz perm remap = .error .noSpaceInHeap ∧
      S.count < s.next + 2 * ((sz - 1) / PGSIZE + 1)) ∨
    ∃ s', vmMap S s pt va pa sz perm remap = .ok (0, s') ∧
      Holds S pt s' (m.map va pa sz perm) := by
  obtain ⟨r, d, rfl, hr⟩ := h.repr
  obtain ⟨hv, hlast, hlt⟩ := hc.pages
  have hle : va + sz ≤ 2 ^ 38 := hc.va_le
  have hend : va + sz ≤ WORD := hle.trans (by decide)
  rcases vmMap_spec hr hc.va_aligned hc.sz_pos hend (by omega) hc.pa_lt
    (hc.unmapped.imp_right fun hu i hi => by
      rw [hu (vpn va + i) (by omega) (by omega)]
      rfl) with he | ⟨s', d', he, hr'⟩
  · exact Or.inl he
  · rw [hc.table] at hr'
    exact Or.inr ⟨s', he, hc.wf h.wf, r, d', rfl, hr'⟩

theorem UnmapCall.table {m : Mapping} {va npages : ℕ} (h : UnmapCall m va npages) (hm : Wf m) :
    unmapPages (fun v => encode (m v)) (vpn va) npages =
      fun v => encode (m.unmap va npages v) := by
  funext v
  unfold unmapPages Mapping.unmap
  rcases h.pages hm with rfl | ⟨hv, -⟩
  · rw [if_neg (by omega), if_neg (by omega)]
  · rw [hv]
    split_ifs <;> rfl

theorem Holds.unmap {m : Mapping} {va npages : ℕ} (h : Holds S pt s m)
    (hc : UnmapCall m va npages) :
    ∃ s', vmUnmap S s pt va npages false = .ok s' ∧ Holds S pt s' (m.unmap va npages) := by
  obtain ⟨r, d, rfl, hr⟩ := h.repr
  have hwf : Wf (m.unmap va npages) := by
    intro v pa perm hv
    unfold Mapping.unmap at hv
    split_ifs at hv
    exact h.wf v pa perm hv
  have hlt := hc.va_lt
  have hsmall : vpn va < 2 ^ 27 := Nat.mod_lt _ (by decide)
  have hbounds : va + npages * PGSIZE < WORD ∧ vpn va + npages < 2 ^ 27 := by
    rcases hc.pages h.wf with rfl | ⟨hv, hle⟩
    · omega
    · rw [hv]
      simp only [PGSIZE, WORD] at *
      omega
  obtain ⟨s', he, hr'⟩ := vmUnmap_spec hr hc.va_aligned hbounds.1 hbounds.2 (fun i hi => by
    rcases hc.pages h.wf with rfl | ⟨hv, -⟩
    · omega
    · obtain ⟨⟨pa, perm⟩, hm⟩ :=
        Option.ne_none_iff_exists'.mp (hc.mapped (vpn va + i) (by omega) (by omega))
      obtain ⟨-, -, -, hp, hl⟩ := h.wf _ _ _ hm
      rw [hm]
      exact encode_leaf hp hl)
  rw [hc.table h.wf] at hr'
  exact ⟨s', he, hwf, r, d, rfl, hr'⟩

theorem Run.holds {m : Mapping} (h : Run S pt s m) : Holds S pt s m := by
  induction h with
  | @create s₀ s pt he =>
    rcases vmCreate_spec (S := S) s₀ with ⟨hf, -⟩ | ⟨s₁, d, hs, hr⟩
    · rw [hf] at he
      cases he
    · rw [hs] at he
      cases he
      exact ⟨fun _ _ _ hv => (Option.some_ne_none _ hv.symm).elim, s₀.next, d, rfl, hr⟩
  | map _ hc he ih =>
    rcases ih.map hc with ⟨hf, -⟩ | ⟨s₁, hs, hh⟩
    · rw [hf] at he
      cases he
    · rw [hs] at he
      cases he
      exact hh
  | unmap _ hc he ih =>
    obtain ⟨s₁, hs, hh⟩ := ih.unmap hc
    rw [hs] at he
    cases he
    exact hh
  | other _ hn hcount hw ih =>
    obtain ⟨r, d, rfl, hr⟩ := ih.repr
    exact ⟨ih.wf, r, d, rfl, hr.frame hn hcount hw⟩

/-! ### Lookups see exactly the map -/

/-- What `walk` and `walkaddr` must find at `va`. -/
def Lookup (S : Supply) (pt : ℕ) (s : Ram) (m : Mapping) (va : ℕ) : Prop :=
  match m (va / PGSIZE) with
  | none =>
      (∃ o, walk S s pt va false = .ok (o, s) ∧ ∀ pte, o = some pte → s.word pte &&& PTE_V = 0) ∧
      walkaddr S s pt va = .ok 0
  | some (pa, perm) =>
      (∃ pte, walk S s pt va false = .ok (some pte, s) ∧ s.word pte &&& PTE_V ≠ 0 ∧
        PTE2PA (s.word pte) = pa ∧ PTE_FLAGS (s.word pte) = perm ||| PTE_V) ∧
      walkaddr S s pt va = .ok (if perm &&& PTE_U ≠ 0 then pa ||| va % PGSIZE else 0)

theorem encode_user (pa perm : ℕ) :
    encode (some (pa, perm)) &&& PTE_U = perm &&& PTE_U := by
  have hhigh : PA2PTE pa &&& PTE_U = 0 := by
    rw [PA2PTE, show PTE_U = 2 ^ 4 from rfl, Nat.and_two_pow]
    simp
  have hv : PTE_V &&& PTE_U = 0 := by decide
  rw [encode, Nat.and_or_distrib_right, Nat.and_or_distrib_right, hhigh, hv, Nat.or_zero,
    Nat.zero_or]

theorem Holds.lookup {m : Mapping} {va : ℕ} (h : Holds S pt s m) (hva : va < MAXVA) :
    Lookup S pt s m va := by
  obtain ⟨r, d, rfl, hr⟩ := h.repr
  have hv : vpn va = va / PGSIZE := vpn_of_lt (lt_trans hva (by decide))
  have haddr := walkaddr_spec hr va
  have hwalk := walk_spec hr va
  rw [if_neg (not_le.mpr hva), hv] at haddr
  unfold Lookup
  cases hm : m (va / PGSIZE) with
  | none =>
    simp only [hm, encode, Nat.zero_and, ↓reduceIte] at haddr ⊢
    refine ⟨⟨_, hwalk, fun pte he => ?_⟩, haddr⟩
    obtain ⟨k, hk, rfl⟩ := Option.map_eq_some_iff.mp he
    rw [hr.leaf hk, hv, hm]
    rfl
  | some e =>
    obtain ⟨pa, perm⟩ := e
    obtain ⟨-, hal, hlt, hp, hl⟩ := h.wf _ _ _ hm
    have hleaf : IsLeaf (encode (some (pa, perm))) := encode_leaf hp hl
    simp only [hm] at haddr ⊢
    obtain ⟨k, hk⟩ := hr.leaf_of_ne_zero (by
      rw [hv, hm]
      exact hleaf.ne_zero)
    have hword : s.word (entry (S.page k) (PX 0 va)) = encode (some (pa, perm)) := by
      rw [hr.leaf hk, hv, hm]
    have hpa : PTE2PA (encode (some (pa, perm))) = pa := PTE2PA_pack hal hlt (or_PTE_V_lt hp)
    refine ⟨⟨entry (S.page k) (PX 0 va), by rw [hwalk, hk]; rfl, ?_, ?_, ?_⟩, ?_⟩
    · rw [hword]
      exact hleaf.1
    · rw [hword, hpa]
    · rw [hword, encode, PTE_FLAGS_pack pa (or_PTE_V_lt hp)]
    · rw [haddr, if_neg hleaf.1, encode_user, hpa,
        show va &&& 0xFFF = va % PGSIZE from Nat.and_two_pow_sub_one_eq_mod va 12]
      split_ifs <;> simp_all

/-- After any run the calls that keep their side succeed, up to the supply of pages, and
every lookup agrees with the finite map. -/
theorem run_finite_map {m : Mapping} (h : Run S pt s m) :
    (∀ va pa sz perm remap, MapCall m va pa sz perm remap →
      (vmMap S s pt va pa sz perm remap = .error .noSpaceInHeap ∧
        S.count < s.next + 2 * ((sz - 1) / PGSIZE + 1)) ∨
      ∃ s', vmMap S s pt va pa sz perm remap = .ok (0, s')) ∧
    (∀ va npages, UnmapCall m va npages → ∃ s', vmUnmap S s pt va npages false = .ok s') ∧
    ∀ va < MAXVA, Lookup S pt s m va := by
  refine ⟨fun va pa sz perm remap hc => ?_, fun va npages hc => ?_,
    fun va hva => h.holds.lookup hva⟩
  · exact (h.holds.map hc).imp_right fun ⟨s', he, _⟩ => ⟨s', he⟩
  · obtain ⟨s', he, -⟩ := h.holds.unmap hc
    exact ⟨s', he⟩

/-- Two user pages mapped into a fresh table, of which the lower one is unmapped again. -/
def upperPage : Mapping :=
  (Mapping.map (fun _ => none) 0x1000 0x80200000 (2 * PGSIZE) 22).unmap 0x1000 1

theorem fresh_table_upper_page : upperPage 1 = none ∧ upperPage 2 = some (0x80201000, 22) ∧
    ∃ (S : Supply) (pt : ℕ) (s : Ram), Run S pt s upperPage ∧ Lookup S pt s upperPage 0x1234 ∧
      Lookup S pt s upperPage 0x2345 := by
  refine ⟨by decide, by decide, ?_⟩
  let S : Supply :=
    { page := fun i => 0x80100000 + i * PGSIZE
      count := 16
      injective := fun i _ j _ h => by simp only [PGSIZE] at h; omega
      aligned := fun i _ => by simp only [PGSIZE]; omega
      ne_null := fun i _ => by omega
      fits := fun i _ => by simp only [PGSIZE, WORD]; omega }
  have hc : MapCall (fun _ => none) 0x1000 0x80200000 (2 * PGSIZE) 22 false :=
    ⟨by decide, by decide, by decide, by decide, by decide, by decide, by decide,
      Or.inr fun _ _ _ => rfl⟩
  have hu : UnmapCall (Mapping.map (fun _ => none) 0x1000 0x80200000 (2 * PGSIZE) 22) 0x1000 1 := by
    refine ⟨by decide, by decide, fun v hlow hhigh => ?_⟩
    obtain rfl : v = 1 := by
      simp only [PGSIZE] at hlow hhigh
      omega
    decide
  have hs : vmCreate S ⟨fun _ => 7, 0, []⟩ =
      .ok (S.page 0, clearPage ⟨fun _ => 7, 1, []⟩ (S.page 0)) := rfl
  have h₀ := Run.create hs
  rcases h₀.holds.map hc with ⟨-, hf⟩ | ⟨s₁, hs₁, -⟩
  · exact absurd hf (by decide)
  · have h₁ := h₀.map hc hs₁
    obtain ⟨s₂, hs₂, -⟩ := h₁.holds.unmap hu
    have h₂ := h₁.unmap hu hs₂
    obtain ⟨-, -, hlookup⟩ := run_finite_map h₂
    exact ⟨S, _, s₂, h₂, hlookup 0x1234 (by decide), hlookup 0x2345 (by decide)⟩

end Zrhos.Vm
