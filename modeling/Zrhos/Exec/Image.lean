import Zrhos.Exec.Model
import Zrhos.Lib.Overlay
import Zrhos.Mmap.Copyout
import Zrhos.Mmap.Counts

/-! A new image page by page: the frames and tables it takes, and what is written to its
pages. -/
namespace Zrhos.Exec
open Mmap Overlay

/-- A page of an image: its page number, its frame and its permissions. -/
structure Page where
  v : ℕ
  frame : ℕ
  perm : ℕ

/-- The pages `L` are mapped over the entries `pt₀`, and nothing else. -/
structure Paged (pt₀ : ℕ → ℕ) (L : List Page) (pt : ℕ → ℕ) : Prop where
  aligned : ∀ x ∈ L, x.frame % PGSIZE = 0
  lt_word : ∀ x ∈ L, x.frame < WORD
  frames_nodup : (L.map Page.frame).Nodup
  perm_lt : ∀ x ∈ L, x.perm < 2 ^ 5
  entry : ∀ x ∈ L, pt x.v = userPte x.frame x.perm
  other : ∀ v, v ∉ L.map Page.v → pt v = pt₀ v
  nodup : (L.map Page.v).Nodup

/-- The frames and the tables of an image were free in `a₀` and are in use now. -/
structure Mapped {κ : Type} (a₀ : Alloc κ) (pt₀ : ℕ → ℕ) (L : List Page) (a : Alloc κ)
    (im : Image) : Prop where
  paged : Paged pt₀ L im.pagetable
  ok : a.Ok
  keeps : ∀ q, a₀.InUse q → a.InUse q
  frames : ∀ x ∈ L, a.InUse x.frame ∧ ¬ a₀.InUse x.frame
  tables : ∀ p ∈ im.tables, a.InUse p ∧ ¬ a₀.InUse p

/-- `w` was laid over the bytes that the pages `L` had in `mem₀`. -/
structure Laid (L : List Page) (w : ℕ → Option ℕ) (mem₀ mem : ℕ → ℕ → ℕ) : Prop where
  pages : ∀ x ∈ L, ∀ off < PGSIZE,
    mem x.frame off = (w (x.v * PGSIZE + off)).getD (mem₀ x.frame off)
  others : ∀ q, q ∉ L.map Page.frame → mem q = mem₀ q
  within : ∀ k b, w k = some b → k / PGSIZE ∈ L.map Page.v

variable {κ : Type} {cnt : Counters κ} {a₀ a a' : Alloc κ} {im im' : Image} {pt₀ pt : ℕ → ℕ}
  {L P : List Page} {w : ℕ → Option ℕ} {mem₀ mem : ℕ → ℕ → ℕ} {s s' : Phys} {p q va : ℕ}

/-! ### Taking pages -/

/-- Pages are taken, for tables or for small blocks. -/
theorem Mapped.grow (h : Mapped a₀ pt₀ L a im) (hg : Grown a a')
    (hpt : im'.pagetable = im.pagetable)
    (htables : ∀ p ∈ im'.tables, p ∈ im.tables ∨ a'.InUse p ∧ ¬ a.InUse p) :
    Mapped a₀ pt₀ L a' im' where
  paged := hpt ▸ h.paged
  ok := hg.ok
  keeps q hq := hg.keeps q (h.keeps q hq)
  frames x hx := ⟨hg.keeps _ (h.frames x hx).1, (h.frames x hx).2⟩
  tables p hp := by
    rcases htables p hp with hp | ⟨huse, hfree⟩
    · exact ⟨hg.keeps p (h.tables p hp).1, (h.tables p hp).2⟩
    · exact ⟨huse, fun hold => hfree (h.keeps p hold)⟩

/-- A table is taken from the allocator, or it is there. -/
theorem descend_spec {tables parts tables' parts' : List ℕ} {n : ℕ} (hok : a.Ok)
    (h : descend a tables parts n = .ok (a', tables', parts')) :
    Grown a a' ∧ ∀ p ∈ tables', p ∈ tables ∨ a'.InUse p ∧ ¬ a.InUse p := by
  unfold descend at h
  split_ifs at h
  · cases h
    exact ⟨Grown.refl hok, fun p hp => Or.inl hp⟩
  · obtain ⟨⟨p, a₁⟩, hp, h⟩ := bind_ok h
    cases h
    obtain ⟨hg, huse, hfree⟩ := getpage_spec hok hp
    refine ⟨hg, fun q hq => ?_⟩
    rcases List.mem_append.mp hq with hq | hq
    · exact Or.inl hq
    · rw [List.mem_singleton.mp hq]
      exact Or.inr ⟨huse, hfree⟩

/-- The tables on the way to an entry; entries stay. -/
theorem walk_spec (hok : a.Ok) (h : walk a im va = .ok (a', im')) :
    Grown a a' ∧ im'.toTask = im.toTask ∧
      ∀ p ∈ im'.tables, p ∈ im.tables ∨ a'.InUse p ∧ ¬ a.InUse p := by
  unfold walk at h
  obtain ⟨⟨a₁, tables₁, mids⟩, hmid, h⟩ := bind_ok h
  obtain ⟨⟨a₂, tables₂, lows⟩, hlow, h⟩ := bind_ok h
  cases h
  obtain ⟨hg₁, htables₁⟩ := descend_spec hok hmid
  obtain ⟨hg₂, htables₂⟩ := descend_spec hg₁.ok hlow
  refine ⟨hg₁.trans hg₂, rfl, fun q hq => ?_⟩
  rcases htables₂ q hq with hq | ⟨huse, hfree⟩
  · exact (htables₁ q hq).imp_right fun hq => ⟨hg₂.keeps q hq.1, hq.2⟩
  · exact Or.inr ⟨huse, fun hold => hfree (hg₁.keeps q hold)⟩

theorem Mapped.walk (h : Mapped a₀ pt₀ L a im) (hw : walk a im va = .ok (a', im')) :
    Mapped a₀ pt₀ L a' im' := by
  obtain ⟨hg, htask, htables⟩ := walk_spec h.ok hw
  exact h.grow hg (by rw [htask]) htables

/-- The tables of `user_pagetable` and the `Mmap_t`. -/
theorem userPagetable_mapped {trampoline trapframe highLevel : ℕ} (hok : a.Ok)
    (h : userPagetable a trampoline trapframe highLevel = .ok (a', im)) :
    Mapped a (userTask trampoline trapframe highLevel).pagetable [] a' im ∧
      im.toTask = userTask trampoline trapframe highLevel := by
  unfold userPagetable at h
  obtain ⟨⟨root, a₁⟩, hroot, h⟩ := bind_ok h
  obtain ⟨hg, huse, hfree⟩ := getpage_spec hok hroot
  obtain ⟨⟨a₂, im₂⟩, htramp, h⟩ := bind_ok h
  obtain ⟨⟨a₃, im₃⟩, htrap, h⟩ := bind_ok h
  have hstart : Mapped a (userTask trampoline trapframe highLevel).pagetable [] a₁
      { userTask trampoline trapframe highLevel with tables := [root], mids := [], lows := [] } :=
    { paged := ⟨by simp, by simp, List.nodup_nil, by simp, by simp, fun _ _ => rfl,
        List.nodup_nil⟩
      ok := hg.ok
      keeps := hg.keeps
      frames := by simp
      tables := by
        intro p hp
        rw [List.mem_singleton.mp hp]
        exact ⟨huse, hfree⟩ }
  have htwo := hstart.walk htramp
  have hthree := htwo.walk htrap
  refine ⟨hthree.walk h, ?_⟩
  rw [(walk_spec hthree.ok h).2.1, (walk_spec htwo.ok htrap).2.1,
    (walk_spec hstart.ok htramp).2.1]

theorem Mapped.small {size : ℕ} (h : Mapped a₀ pt₀ L a im)
    (hm : memMallocSmall a size = .ok a') : Mapped a₀ pt₀ L a' im :=
  h.grow (memMallocSmall_grown h.ok hm) rfl fun _ hp => Or.inl hp

/-! ### Mapping pages -/

/-- A page more over a table that has no entry for it. -/
theorem Paged.snoc {v perm : ℕ} (h : Paged pt₀ L pt) (hv : v ∉ L.map Page.v)
    (hp : p ∉ L.map Page.frame) (hmod : p % PGSIZE = 0) (hlt : p < WORD) (hperm : perm < 2 ^ 5) :
    Paged pt₀ (L ++ [(⟨v, p, perm⟩ : Page)]) (Function.update pt v (userPte p perm)) where
  aligned := List.forall_mem_append.mpr ⟨h.aligned, List.forall_mem_singleton.mpr hmod⟩
  lt_word := List.forall_mem_append.mpr ⟨h.lt_word, List.forall_mem_singleton.mpr hlt⟩
  frames_nodup := by
    rw [List.map_append, List.map_singleton, List.nodup_append]
    refine ⟨h.frames_nodup, List.nodup_singleton _, fun q hq r hr hqr => hp ?_⟩
    rw [hqr, List.mem_singleton.mp hr] at hq
    exact hq
  perm_lt := List.forall_mem_append.mpr ⟨h.perm_lt, List.forall_mem_singleton.mpr hperm⟩
  entry := by
    refine List.forall_mem_append.mpr ⟨fun x hx => ?_, List.forall_mem_singleton.mpr ?_⟩
    · refine (Function.update_of_ne ?_ _ _).trans (h.entry x hx)
      rintro rfl
      exact hv (List.mem_map_of_mem hx)
    · exact Function.update_self _ _ _
  other u hu := by
    rw [List.map_append, List.mem_append, not_or, List.map_singleton, List.mem_singleton] at hu
    exact (Function.update_of_ne hu.2 _ _).trans (h.other u hu.1)
  nodup := by
    rw [List.map_append, List.map_singleton, List.nodup_append]
    refine ⟨h.nodup, List.nodup_singleton _, fun u hu w hw huw => hv ?_⟩
    rw [huw, List.mem_singleton.mp hw] at hu
    exact hu

/-- A page that is taken and mapped. -/
theorem Mapped.map {perm : ℕ} {a₁ a₂ : Alloc κ} (h : Mapped a₀ pt₀ L a im)
    (hp : getpage a = .ok (p, a₁)) (hmap : uvmMap a₁ im va p perm = .ok (a₂, im'))
    (hinc : refCntInc cnt a₂ p = .ok a') (hperm : perm < 2 ^ 5) :
    Mapped a₀ pt₀ (L ++ [(⟨vpn va, p, perm⟩ : Page)]) a' im' := by
  obtain ⟨hg, huse, hfree⟩ := getpage_spec h.ok hp
  have hpage := h.grow hg rfl fun q hq => Or.inl hq
  obtain ⟨⟨a₃, im₁⟩, hwalk, hmap⟩ := bind_ok hmap
  obtain ⟨pt', hpt, hmap⟩ := bind_ok hmap
  cases hmap
  obtain ⟨hgw, htask, htables⟩ := walk_spec hg.ok hwalk
  have hwalked := hpage.grow hgw (by rw [htask]) htables
  have hgi := refCntInc_grown hwalked.ok hinc
  obtain ⟨hfreev | hfreev, -, rfl⟩ := uvmMap_eq_ok.mp hpt
  swap
  · cases hfreev
  have hnew : vpn va ∉ L.map Page.v := by
    intro hmem
    obtain ⟨x, hx, hxv⟩ := List.mem_map.mp hmem
    rw [← hxv, hwalked.paged.entry x hx] at hfreev
    exact userPte_valid _ _ hfreev
  have hframe : p ∉ L.map Page.frame := by
    intro hmem
    obtain ⟨x, hx, rfl⟩ := List.mem_map.mp hmem
    exact hfree (h.frames x hx).1
  constructor
  case paged =>
    exact hwalked.paged.snoc hnew hframe (Mmap.InUse.aligned huse) (Mmap.InUse.lt_word huse hg.ok)
      hperm
  case ok => exact hgi.ok
  case keeps => exact fun q hq => hgi.keeps q (hwalked.keeps q hq)
  case frames =>
    refine List.forall_mem_append.mpr ⟨fun x hx => ?_, List.forall_mem_singleton.mpr ?_⟩
    · exact ⟨hgi.keeps _ (hwalked.frames x hx).1, (hwalked.frames x hx).2⟩
    · exact ⟨hgi.keeps _ (hgw.keeps _ huse), fun hold => hfree (h.keeps _ hold)⟩
  case tables =>
    exact fun q hq => ⟨hgi.keeps q (hwalked.tables q hq).1, (hwalked.tables q hq).2⟩

theorem uvmMappagesLoop_mapped {last perm fuel n : ℕ}
    (h : uvmMappagesLoop cnt last perm fuel a im va = .ok (a', im'))
    (hb : Mapped a₀ pt₀ L a im) (hperm : perm < 2 ^ 5) (hn : last = va + n * PGSIZE)
    (hlast : last < WORD) :
    ∃ P, Mapped a₀ pt₀ (L ++ P) a' im' ∧ P.map (fun x => (x.v, x.perm)) =
      (List.range (n + 1)).map fun i => (vpn (va + i * PGSIZE), perm) := by
  induction fuel generalizing a im va n L with
  | zero => cases h
  | succ fuel ih =>
    unfold uvmMappagesLoop at h
    obtain ⟨⟨p, a₁⟩, hp, h⟩ := bind_ok h
    obtain ⟨⟨a₂, im₁⟩, hmap, h⟩ := bind_ok h
    obtain ⟨a₃, hinc, h⟩ := bind_ok h
    have hone := hb.map hp hmap hinc hperm
    split_ifs at h with hend
    · cases h
      obtain rfl : n = 0 := by
        simp only [PGSIZE] at hn
        omega
      refine ⟨_, hone, ?_⟩
      rw [List.range_one, List.map_singleton, List.map_singleton, Nat.zero_mul, Nat.add_zero]
    · cases n with
      | zero =>
        rw [Nat.zero_mul, Nat.add_zero] at hn
        exact absurd hn.symm hend
      | succ n =>
        rw [Nat.succ_mul] at hn
        have hnext : (va + PGSIZE) % WORD = va + PGSIZE := Nat.mod_eq_of_lt (by omega)
        rw [hnext] at h
        obtain ⟨P, hmapped, hslots⟩ := ih (n := n) h hone (by omega)
        refine ⟨_ :: P, by rwa [List.append_assoc] at hmapped, ?_⟩
        rw [List.map_cons, hslots, List.range_succ_eq_map (n := n + 1), List.map_cons,
          List.map_map, Nat.zero_mul, Nat.add_zero]
        refine congrArg _ (List.map_congr_left fun i _ => ?_)
        have hi : va + PGSIZE + i * PGSIZE = va + (i + 1) * PGSIZE := by
          rw [Nat.succ_mul, Nat.add_assoc, Nat.add_comm PGSIZE]
        exact congrArg (fun a => (vpn a, perm)) hi

/-- The page numbers and permissions of a region that is mapped at once. -/
def slots (addr sz perm : ℕ) : List (ℕ × ℕ) :=
  (List.range (pgRoundUp sz / PGSIZE)).map fun i => (vpn (addr + i * PGSIZE), perm)

theorem pgRoundUp_add_le {addr sz : ℕ} (ha : addr % PGSIZE = 0) (hle : addr + sz < WORD) :
    addr + pgRoundUp sz ≤ WORD := by
  simp only [pgRoundUp, pgRoundDown, PGSIZE, WORD] at *
  omega

/-- The region of a mapping at a place of its own. -/
theorem region_ok {t t' : Task} {addr sz perm r : ℕ} (ha : addr % PGSIZE = 0)
    (h : Mmap.mmapByObj s t addr sz perm MAP_PRIVATE false = .ok (r, s', t')) :
    r = addr ∧ t'.pagetable = t.pagetable := by
  have hflag : MAP_PRIVATE &&& MAP_SHARED = 0 ∧ MAP_PRIVATE ||| MAP_PRIVATE = MAP_PRIVATE ∧
      MAP_PRIVATE &&& MAP_ANONYMOUS = 0 := by decide
  unfold Mmap.mmapByObj at h
  simp only [hflag, ne_eq, not_true_eq_false, and_false, ↓reduceIte, pgRoundDown_eq ha] at h
  split at h
  · cases h
  · cases h
    exact ⟨rfl, rfl⟩

theorem mmapByObj_mapped {addr sz perm r : ℕ}
    (h : mmapByObj cnt a im addr sz perm MAP_PRIVATE = .ok (r, a', im'))
    (hb : Mapped a₀ pt₀ L a im) (hperm : perm < 2 ^ 5) (ha : addr % PGSIZE = 0)
    (hle : addr + sz < WORD) :
    ∃ P, Mapped a₀ pt₀ (L ++ P) a' im' ∧
      P.map (fun x => (x.v, x.perm)) = slots addr sz perm := by
  have hround := pgRoundUp_add_le ha hle
  have hmod := pgRoundUp_mod sz
  obtain ⟨a₁, halloc, hrest⟩ := bind_ok h
  obtain ⟨a₂, hnode, hdata⟩ := bind_ok halloc
  obtain ⟨⟨r', s', t⟩, hregion, hmap⟩ := bind_ok hrest
  obtain ⟨⟨a₃, im₃⟩, hu, hend⟩ := bind_ok hmap
  cases hend
  obtain ⟨rfl, htable⟩ := region_ok ha hregion
  have hnodes := (hb.small hnode).small hdata
  have hstart : Mapped a₀ pt₀ L a₁ { im with toTask := t } :=
    hnodes.grow (Grown.refl hnodes.ok) htable fun p hp => Or.inl hp
  unfold uvmMappages at hu
  split_ifs at hu with hz
  · cases hu
    refine ⟨[], by rwa [List.append_nil], ?_⟩
    rw [slots, hz, Nat.zero_div]
    rfl
  · rw [pgRoundDown_eq ha] at hu
    obtain ⟨n, hn⟩ : ∃ n, pgRoundUp sz / PGSIZE = n + 1 := by
      refine Nat.exists_eq_succ_of_ne_zero fun h0 => ?_
      simp only [PGSIZE] at *
      omega
    have hlast : pgRoundDown ((r + pgRoundUp sz + WORD - 1) % WORD) = r + n * PGSIZE := by
      simp only [pgRoundDown, PGSIZE, WORD] at *
      omega
    rw [hlast] at hu
    have hlt : r + n * PGSIZE < WORD := by
      simp only [PGSIZE] at *
      omega
    rw [slots, hn]
    exact uvmMappagesLoop_mapped hu hstart hperm rfl hlt

/-! ### Writing bytes -/

theorem Laid.start : Laid L (fun _ => none) mem mem where
  pages _ _ _ _ := rfl
  others _ _ := rfl
  within k b h := by cases h

/-- New pages show what their frames held. -/
theorem Laid.extend (h : Laid L w mem₀ mem) (hb : Paged pt₀ (L ++ P) pt) :
    Laid (L ++ P) w mem₀ mem where
  pages x hx off hoff := by
    rcases List.mem_append.mp hx with hx | hx
    · exact h.pages x hx off hoff
    · have hnodup := hb.frames_nodup
      have hv := hb.nodup
      rw [List.map_append, List.nodup_append] at hnodup hv
      have hout : x.frame ∉ L.map Page.frame := fun hmem =>
        hnodup.2.2 _ hmem _ (List.mem_map_of_mem hx) rfl
      have hnone : w (x.v * PGSIZE + off) = none := by
        by_contra hsome
        obtain ⟨b, hb⟩ := Option.ne_none_iff_exists'.mp hsome
        have hin := h.within _ _ hb
        rw [Nat.mul_comm, Nat.mul_add_div (by decide), Nat.div_eq_of_lt hoff, Nat.add_zero] at hin
        exact hv.2.2 _ hin _ (List.mem_map_of_mem hx) rfl
      rw [h.others _ hout, hnone]
      rfl
  others q hq := by
    rw [List.map_append, List.mem_append, not_or] at hq
    exact h.others q hq.1
  within k b hk := by
    rw [List.map_append]
    exact List.mem_append_left _ (h.within k b hk)

/-- A `memmove` into one page. -/
theorem Laid.write (h : Laid L w mem₀ mem) (hb : Paged pt₀ L pt) {x : Page} (hx : x ∈ L)
    {off : ℕ} {bs : List ℕ} (hoff : off + bs.length ≤ PGSIZE) :
    Laid L (lay (x.v * PGSIZE + off) bs w) mem₀ (writeBytes mem x.frame off bs) where
  pages y hy k hk := by
    by_cases hyx : y = x
    · subst hyx
      unfold writeBytes lay
      rw [Function.update_self]
      by_cases hin : off ≤ k ∧ k < off + bs.length
      · rw [if_pos hin.1, if_pos (by omega), List.getD_eq_getElem _ _ (by omega),
          List.getElem?_eq_getElem (by omega), Option.getD_some]
        congr 1
        omega
      · rw [if_neg (c := _ ∧ _) (by omega), ← h.pages y hy k hk]
        split_ifs with hle
        · exact List.getD_eq_default _ _ (by omega)
        · rfl
    · have hv : y.v ≠ x.v := fun he => hyx (List.inj_on_of_nodup_map hb.nodup hy hx he)
      have hne : y.frame ≠ x.frame := fun he =>
        hyx (List.inj_on_of_nodup_map hb.frames_nodup hy hx he)
      rw [writeBytes_of_ne hne, h.pages y hy k hk, lay_outside]
      simp only [PGSIZE] at *
      omega
  others q hq := by
    rw [← h.others q hq]
    apply writeBytes_of_ne
    rintro rfl
    exact hq (List.mem_map_of_mem hx)
  within k b hk := by
    rcases lay_some hk with hin | hk
    · have hkv : k / PGSIZE = x.v := by
        simp only [PGSIZE] at *
        omega
      rw [hkv]
      exact List.mem_map_of_mem hx
    · exact h.within k b hk

theorem Paged.maps {x : Page} (hb : Paged pt₀ L pt) (hx : x ∈ L) : UserMaps (pt x.v) x.frame := by
  have hperm : PermOk x.perm := (Nat.mod_le _ _).trans_lt ((hb.perm_lt x hx).trans (by decide))
  rw [hb.entry x hx]
  exact userMaps_userPte hperm (hb.aligned x hx) (hb.lt_word x hx)

/-- Below `USERRDONLYMAP` the table starts out empty. -/
def EmptyBelow (pt₀ : ℕ → ℕ) : Prop := ∀ v < vpn USERRDONLYMAP, pt₀ v = 0

/-- `walkaddr` finds the pages of the image and no others. -/
theorem Paged.walkaddr (hb : Paged pt₀ L pt) (he : EmptyBelow pt₀) (hva : va < USERRDONLYMAP)
    (hmod : va % PGSIZE = 0) (hw : walkaddr pt va ≠ 0) :
    ∃ x ∈ L, x.v * PGSIZE = va ∧ walkaddr pt va = x.frame := by
  have hv : vpn va = va / PGSIZE := vpn_of_lt (hva.trans (by decide))
  have hentry : Mmap.walkaddr pt va = PTE2PA (pt (vpn va)) ∧ pt (vpn va) &&& PTE_V ≠ 0 := by
    unfold Mmap.walkaddr at hw ⊢
    dsimp only at hw ⊢
    split_ifs at hw ⊢ with hmax hvalid huser
    · exact absurd rfl hw
    · exact absurd rfl hw
    · exact absurd rfl hw
    · rw [and_0xFFF, hmod, Nat.or_zero]
      exact ⟨rfl, hvalid⟩
  by_cases hmem : vpn va ∈ L.map Page.v
  · obtain ⟨x, hx, hxv⟩ := List.mem_map.mp hmem
    refine ⟨x, hx, ?_, ?_⟩
    · rw [hxv, hv]
      exact Nat.div_mul_cancel (Nat.dvd_of_mod_eq_zero hmod)
    · rw [hentry.1, ← hxv, (hb.maps hx).2.2]
  · exfalso
    apply hentry.2
    rw [hb.other _ hmem, he, Nat.zero_and]
    rw [hv]
    simp only [vpn, USERRDONLYMAP, TRAPFRAME, TRAMPOLINE, MAXVA, PGSIZE] at *
    omega

/-- `copyout` writes its bytes, all of them. -/
theorem copyoutLoop_laid {fuel : ℕ} {bs : List ℕ} (hb : Paged pt₀ L pt) (he : EmptyBelow pt₀)
    (hl : Laid L w mem₀ s.mem) (hlen : bs.length ≤ fuel)
    (hle : va + bs.length ≤ USERRDONLYMAP) (h : copyoutLoop pt fuel s va bs = (0, s')) :
    Laid L (lay va bs w) mem₀ s'.mem := by
  induction fuel generalizing s va bs w with
  | zero =>
    obtain rfl := List.length_eq_zero_iff.mp (Nat.le_zero.mp hlen)
    cases h
    rwa [lay_nil]
  | succ fuel ih =>
    unfold copyoutLoop at h
    dsimp only at h
    split_ifs at h with hnil hwalk
    · obtain rfl := List.length_eq_zero_iff.mp hnil
      cases h
      rwa [lay_nil]
    · exact absurd (Prod.mk.inj h).1 (by decide)
    · obtain ⟨n, hn⟩ : ∃ n, n = min (PGSIZE - (va - pgRoundDown va)) bs.length := ⟨_, rfl⟩
      have hdown := pgRoundDown_le va
      have hoff : va - pgRoundDown va < PGSIZE := by
        simp only [pgRoundDown, PGSIZE]
        omega
      have htake : (bs.take n).length = n := by rw [List.length_take]; omega
      have hdrop : (bs.drop n).length = bs.length - n := List.length_drop
      obtain ⟨x, hx, hxv, hframe⟩ := hb.walkaddr he
        (show pgRoundDown va < USERRDONLYMAP by omega) (pgRoundDown_mod va) hwalk
      rw [← hn, hframe] at h
      have hwrite := hl.write hb hx
        (show va - pgRoundDown va + (bs.take n).length ≤ PGSIZE by omega)
      rw [hxv, Nat.add_sub_cancel' hdown] at hwrite
      by_cases hend : n = bs.length
      · rw [hend, List.drop_length] at h
        rw [hend, List.take_length] at hwrite
        have hs : s' = { s with mem := writeBytes s.mem x.frame (va - pgRoundDown va) bs } := by
          rw [List.take_length] at h
          cases fuel with
          | zero => exact (Prod.mk.inj h).2.symm
          | succ fuel => exact (Prod.mk.inj h).2.symm
        rwa [hs]
      · have hnext : (pgRoundDown va + PGSIZE) % WORD = va + n := by
          rw [Nat.mod_eq_of_lt]
          · omega
          · simp only [USERRDONLYMAP, TRAPFRAME, TRAMPOLINE, MAXVA, PGSIZE, WORD] at *
            omega
        rw [hnext] at h
        have hrest := ih hwrite (by omega) (by omega) h
        have happend : lay va (bs.take n ++ bs.drop n) w = _ := lay_append
        rw [List.take_append_drop, htake] at happend
        rwa [happend]

theorem copyoutLoop_cases (fuel : ℕ) (s : Phys) (va : ℕ) (src : List ℕ) :
    (copyoutLoop pt fuel s va src).1 = 0 ∨ (copyoutLoop pt fuel s va src).1 = -1 := by
  induction fuel generalizing s va src with
  | zero => exact Or.inl rfl
  | succ fuel ih =>
    unfold copyoutLoop
    dsimp only
    split_ifs
    · exact Or.inl rfl
    · exact Or.inr rfl
    · exact ih _ _ _

theorem copyout_laid {bs : List ℕ} (hb : Paged pt₀ L pt) (he : EmptyBelow pt₀)
    (hl : Laid L w mem₀ s.mem) (hle : va + bs.length ≤ USERRDONLYMAP)
    (h : ¬ (copyout s pt va bs).1 < 0) :
    Laid L (lay va bs w) mem₀ (copyout s pt va bs).2.mem := by
  have hzero : (copyout s pt va bs).1 = 0 := by
    have hcases : (copyout s pt va bs).1 = 0 ∨ (copyout s pt va bs).1 = -1 :=
      copyoutLoop_cases _ _ _ _
    omega
  exact copyoutLoop_laid hb he hl le_rfl hle (Prod.ext hzero rfl)

end Zrhos.Exec
