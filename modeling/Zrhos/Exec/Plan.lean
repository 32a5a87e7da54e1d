import Zrhos.Exec.Image

/-! What `exec` takes from the allocator, whatever the pages hold, and the bytes that the loader
and the stack put on them. -/
namespace Zrhos.Exec
open Mmap Overlay
open Fs (BSIZE)
open Sysfile (MAXFILE)

/-! ### The segments -/

/-- The program headers as the loop reads them. -/
def File.headers (f : File) : ℕ → ℕ → List Proghdr
  | 0, _ => []
  | n + 1, off => proghdr (f.bytes off PHSIZE) :: f.headers n ((off + PHSIZE) % 2 ^ 32)

/-- Those that are loaded. -/
def File.segments (f : File) (n off : ℕ) : List Proghdr :=
  (f.headers n off).filter fun ph => ph.type = ELF_PROG_LOAD

def File.loads (f : File) : List Proghdr :=
  let elf := elfhdr (f.bytes 0 EHSIZE)
  f.segments elf.phnum (elf.phoff % 2 ^ 32)

/-- The bytes `loadseg` reads for a segment. -/
def File.data (f : File) (ph : Proghdr) : List ℕ :=
  f.bytes (ph.off % 2 ^ 32) (ph.filesz % 2 ^ 32)

/-- The page numbers and permissions of a segment. -/
def Proghdr.slots (ph : Proghdr) : List (ℕ × ℕ) :=
  Exec.slots ph.vaddr ph.memsz (flags2perm ph.flags)

def stackSlots : List (ℕ × ℕ) := slots VA_USERSTACK (2 * PGSIZE) (PERM_R ||| PERM_W)

/-- All pages of the new image, in the order in which they get their frames. -/
def File.slots (f : File) : List (ℕ × ℕ) := f.loads.flatMap Proghdr.slots ++ stackSlots

/-! ### The plan -/

section
variable {κ : Type} (cnt : Counters κ)

def mapSegments : List Proghdr → Alloc κ → Image → Except Stop (Alloc κ × Image)
  | [], a, im => .ok (a, im)
  | ph :: phs, a, im => do
    let (_, a, im) ← mmapByObj cnt a im ph.vaddr ph.memsz (flags2perm ph.flags) MAP_PRIVATE
    mapSegments phs a im

/-- The pages of `n` strings. -/
def argPages : ℕ → Alloc κ → Except Stop (List ℕ × Alloc κ)
  | 0, a => .ok ([], a)
  | n + 1, a => do
    let (p, a) ← getpage a
    let (ps, a) ← argPages n a
    return (p :: ps, a)

/-- The new page table with its frames, taken in the order of `sys_exec` from the pages that are
free before the call. -/
def File.plan (f : File) (trampoline trapframe highLevel argc : ℕ) (a : Alloc κ) :
    Except Stop (Alloc κ × Image) := do
  let (_, a) ← argPages argc a
  let (a, im) ← userPagetable a trampoline trapframe highLevel
  let a ← memMallocSmall a MMAP_SIZE
  let (a, im) ← mapSegments cnt f.loads a im
  let (_, a, im) ← mmapByObj cnt a im VA_USERSTACK (2 * PGSIZE) (PERM_R ||| PERM_W) MAP_PRIVATE
  return (a, im)

end

/-! ### Reading a file -/

variable {κ : Type} {cnt : Counters κ} {a₀ a a' : Alloc κ} {im im' : Image} {pt₀ pt : ℕ → ℕ}
  {L : List Page} {w : ℕ → Option ℕ} {mem₀ mem : ℕ → ℕ → ℕ} {s s' : Phys} {k k' : Kern κ}
  {f : File} {argv : List (List ℕ)} {trampoline highLevel : ℕ}

theorem readi_some {off n : ℕ} {bs : List ℕ} (h : f.readi off n = some bs) :
    bs = f.bytes off n ∧ off ≤ f.content.length ∧ (off + n) % 2 ^ 32 ≤ MAXFILE * BSIZE ∧
      off ≤ (off + n) % 2 ^ 32 := by
  unfold File.readi at h
  split_ifs at h with hc
  push Not at hc
  exact ⟨(Option.some.inj h).symm, by omega⟩

theorem fromBytes_lt {bs : List ℕ} (h : ∀ b ∈ bs, b < 256) : fromBytes bs < 256 ^ bs.length := by
  induction bs with
  | nil => decide
  | cons b bs ih =>
    have hb := h b List.mem_cons_self
    have hrest := ih fun c hc => h c (List.mem_cons_of_mem _ hc)
    rw [fromBytes, List.length_cons, Nat.pow_succ]
    omega

theorem field_lt (off sz i n : ℕ) : field (f.bytes off sz) i n < 256 ^ n := by
  have hlen := List.length_take_le n ((f.bytes off sz).drop i)
  refine (fromBytes_lt fun b hb => f.byte_lt b ?_).trans_le (Nat.pow_le_pow_right (by decide) hlen)
  exact List.mem_of_mem_drop (List.mem_of_mem_take (List.mem_of_mem_drop (List.mem_of_mem_take hb)))

theorem drop_bytes (off sz i : ℕ) : (f.bytes off sz).drop i = f.bytes (off + i) (sz - i) := by
  rw [File.bytes, File.bytes, List.drop_take, List.drop_drop]

theorem take_bytes {off n m : ℕ} (h : m ≤ n) : (f.bytes off n).take m = f.bytes off m := by
  rw [File.bytes, File.bytes, List.take_take, min_eq_left h]

theorem flags2perm_lt (flags : ℕ) : flags2perm flags < 2 ^ 5 := by
  unfold flags2perm
  split_ifs <;> decide

theorem emptyBelow_userTask {trapframe : ℕ} :
    EmptyBelow (userTask trampoline trapframe highLevel).pagetable := by
  intro v hv
  obtain ⟨h1, h2⟩ : vpn USERRDONLYMAP < vpn TRAMPOLINE ∧ vpn USERRDONLYMAP < vpn TRAPFRAME := by
    decide
  rcases userTask_entry v with ⟨rfl, -⟩ | ⟨rfl, -⟩ | ⟨rfl, -⟩ | ⟨-, h⟩
  · exact absurd (hv.trans h1) (lt_irrefl _)
  · exact absurd (hv.trans h2) (lt_irrefl _)
  · exact absurd hv (lt_irrefl _)
  · exact h

/-! ### The loader -/

theorem File.loadsegLoop_done {va offset sz fuel i : ℕ} (hi : sz ≤ i)
    (h : f.loadsegLoop pt va offset sz fuel i s = .ok s') : s' = s := by
  cases fuel with
  | zero => cases h
  | succ fuel =>
    unfold File.loadsegLoop at h
    rw [if_neg (not_lt.mpr hi)] at h
    exact (Except.ok.inj h).symm

/-- `loadseg` writes the bytes of the segment, all of them. -/
theorem File.loadsegLoop_laid {va offset sz fuel i : ℕ} (hb : Paged pt₀ L pt)
    (he : EmptyBelow pt₀) (hl : Laid L w mem₀ s.mem) (hmod : (va + i) % PGSIZE = 0)
    (hi : offset + i < 2 ^ 32)
    (hle : va + i + (f.bytes (offset + i) (sz - i)).length ≤ USERRDONLYMAP)
    (h : f.loadsegLoop pt va offset sz fuel i s = .ok s') :
    Laid L (lay (va + i) (f.bytes (offset + i) (sz - i)) w) mem₀ s'.mem := by
  induction fuel generalizing s i w with
  | zero => cases h
  | succ fuel ih =>
    by_cases hlt : i < sz
    swap
    · rw [File.loadsegLoop_done (not_lt.mp hlt) h, Nat.sub_eq_zero_of_le (not_lt.mp hlt),
        File.bytes, List.take_zero, lay_nil]
      exact hl
    unfold File.loadsegLoop at h
    dsimp only at h
    rw [if_pos hlt] at h
    split at h
    · cases h
    case _ hwalk =>
      obtain ⟨n, hn⟩ : ∃ n, n = if sz - i < PGSIZE then sz - i else PGSIZE := ⟨_, rfl⟩
      rw [← hn, Nat.mod_eq_of_lt hi] at h
      split at h
      · cases h
      case _ bs hread =>
        obtain ⟨rfl, -, hmax, hwrap⟩ := readi_some hread
        split at h
        · cases h
        case _ hlen =>
          rw [not_not] at hlen
          have hmaxfile : MAXFILE * BSIZE = 274432 := by decide
          have hpage : PGSIZE = 4096 := rfl
          have hsize : 0 < n ∧ n ≤ sz - i ∧ n ≤ PGSIZE ∧ (sz - i = n ∨ n = PGSIZE) := by
            rw [hn]
            split_ifs
            · omega
            · exact ⟨by decide, by omega, le_rfl, Or.inr rfl⟩
          have htake : (f.bytes (offset + i) (sz - i)).take n = f.bytes (offset + i) n :=
            take_bytes hsize.2.1
          have hfirst : n ≤ (f.bytes (offset + i) (sz - i)).length := by
            have hshort := congrArg List.length htake
            rw [List.length_take, hlen] at hshort
            omega
          have hva : (va + i) % WORD = va + i :=
            Nat.mod_eq_of_lt ((show va + i < USERRDONLYMAP by omega).trans (by decide))
          rw [hva] at h hwalk
          obtain ⟨x, hx, hxv, hframe⟩ := hb.walkaddr he (by omega) hmod hwalk
          rw [hframe, Nat.mod_eq_of_lt (show i + PGSIZE < 2 ^ 32 by omega)] at h
          have hwrite := hl.write hb hx
            (show 0 + (f.bytes (offset + i) n).length ≤ PGSIZE by omega)
          rw [hxv, Nat.add_zero] at hwrite
          rcases hsize.2.2.2 with hend | rfl
          · -- the last page, which may be short
            rw [File.loadsegLoop_done (by omega) h, hend]
            exact hwrite
          · have hdrop : f.bytes (offset + (i + PGSIZE)) (sz - (i + PGSIZE)) =
                (f.bytes (offset + i) (sz - i)).drop PGSIZE := by
              rw [drop_bytes, Nat.add_assoc, Nat.sub_sub]
            have hrest := ih (i := i + PGSIZE) hwrite
              (by rw [← Nat.add_assoc, Nat.add_mod_right, hmod]) (by omega)
              (by rw [hdrop, List.length_drop]; omega) h
            have happend : lay (va + i) ((f.bytes (offset + i) (sz - i)).take PGSIZE ++
                (f.bytes (offset + i) (sz - i)).drop PGSIZE) w = _ := lay_append
            rw [List.take_append_drop, htake, hlen, ← hdrop, Nat.add_assoc va] at happend
            rwa [happend]

/-- The loop over the headers takes what the plan takes, and lays the bytes of the segments over
those of their pages where they are in low memory. -/
theorem File.load_planned {n off : ℕ} (mem₀ : ℕ → ℕ → ℕ)
    (h : f.load cnt n off k im = .ok (k', im')) (hb : Mapped a₀ pt₀ L k.alloc im) :
    mapSegments cnt (f.segments n off) k.alloc im = .ok (k'.alloc, im') ∧
      ∃ P, Mapped a₀ pt₀ (L ++ P) k'.alloc im' ∧
        P.map (fun x => (x.v, x.perm)) = (f.segments n off).flatMap Proghdr.slots ∧
        (EmptyBelow pt₀ →
          (∀ ph ∈ f.segments n off, ph.vaddr + (f.data ph).length ≤ USERRDONLYMAP) →
          ∀ w, Laid L w mem₀ k.mem →
            Laid (L ++ P) (layAll ((f.segments n off).map fun ph => (ph.vaddr, f.data ph)) w)
              mem₀ k'.mem) := by
  induction n generalizing off k im L with
  | zero =>
    cases h
    refine ⟨rfl, [], by rwa [List.append_nil], rfl, fun _ _ w hl => ?_⟩
    rwa [List.append_nil]
  | succ n ih =>
    unfold File.load at h
    split at h
    · cases h
    case _ bs hread =>
      obtain ⟨rfl, -⟩ := readi_some hread
      split at h
      · cases h
      dsimp only at h
      unfold File.segments at ih ⊢
      rw [File.headers]
      obtain ⟨ph, hph⟩ : ∃ ph, ph = proghdr (f.bytes off PHSIZE) := ⟨_, rfl⟩
      rw [← hph] at h ⊢
      by_cases htype : ph.type = ELF_PROG_LOAD
      swap
      · rw [if_pos htype] at h
        rw [List.filter_cons_of_neg (by simpa using htype)]
        exact ih h hb
      rw [if_neg (not_not.mpr htype)] at h
      rw [List.filter_cons_of_pos (by simpa using htype)]
      split_ifs at h with hsz hwrap halign
      rw [not_not] at halign
      obtain ⟨⟨maddr, a₁, im₁⟩, hmap, hrest⟩ := bind_ok h
      dsimp only at hrest
      split at hrest
      · cases hrest
      case _ haddr =>
        obtain ⟨s₂, hseg, hload⟩ := bind_ok hrest
        have hvaddr : ph.vaddr < WORD ∧ ph.memsz < WORD := by
          rw [hph]
          exact ⟨field_lt off PHSIZE 16 8, field_lt off PHSIZE 40 8⟩
        have hle : ph.vaddr + ph.memsz < WORD := by
          have hw : WORD = 2 ^ 64 := rfl
          by_contra hge
          have hsub : (ph.vaddr + ph.memsz) % WORD = ph.vaddr + ph.memsz - WORD := by
            rw [Nat.mod_eq_sub_mod (not_lt.mp hge), Nat.mod_eq_of_lt (by omega)]
          omega
        obtain ⟨P, hP, hslots⟩ := mmapByObj_mapped hmap hb (flags2perm_lt _) halign hle
        obtain ⟨hplan, Q, hQ, hslots', hbytes⟩ := ih hload hP
        rw [List.append_assoc] at hQ hbytes
        refine ⟨?_, P ++ Q, hQ, ?_, fun he hlow w hl => ?_⟩
        · rw [mapSegments, hmap]
          exact hplan
        · rw [List.map_append, hslots, hslots', List.flatMap_cons]
          rfl
        · rw [List.map_cons, layAll]
          apply hbytes he fun p hp => hlow p (List.mem_cons_of_mem _ hp)
          have hextend := hl.extend hP.paged
          have hdata := File.loadsegLoop_laid (s := a₁.phys k.mem) hP.paged he hextend
            (by rwa [Nat.add_zero]) (by omega)
            (hlow ph List.mem_cons_self) hseg
          rwa [Nat.add_zero, Nat.add_zero, Nat.sub_zero] at hdata

/-! ### The stack -/

/-- What is copied to the stack, and where. -/
def pushes : List (List ℕ) → ℕ → List ℕ → List (ℕ × List ℕ)
  | [], sp, ustack =>
    [(pushDown sp ((ustack.length + 1) * 8), ustack.flatMap wordBytes ++ wordBytes 0)]
  | arg :: args, sp, ustack =>
    let sp := pushDown sp (arg.length + 1)
    (sp, arg ++ [0]) :: pushes args sp (ustack ++ [sp])

/-- Where `sp` ends up. -/
def stackPointer : List (List ℕ) → ℕ → List ℕ → ℕ
  | [], sp, ustack => pushDown sp ((ustack.length + 1) * 8)
  | arg :: args, sp, ustack =>
    let sp := pushDown sp (arg.length + 1)
    stackPointer args sp (ustack ++ [sp])

/-- What the arguments put at an address. -/
def argByte (argv : List (List ℕ)) : ℕ → Option ℕ :=
  layAll (pushes argv (VA_USERSTACK + 2 * PGSIZE) []) fun _ => none

theorem wordBytes_length (x : ℕ) : (wordBytes x).length = 8 := by
  rw [wordBytes, List.length_map, List.length_range]

theorem flatMap_wordBytes_length (xs : List ℕ) : (xs.flatMap wordBytes).length = xs.length * 8 := by
  induction xs with
  | nil => rfl
  | cons x xs ih =>
    rw [List.flatMap_cons, List.length_append, ih, wordBytes_length, List.length_cons]
    omega

theorem array_length (ustack : List ℕ) :
    (ustack.flatMap wordBytes ++ wordBytes 0).length = (ustack.length + 1) * 8 := by
  rw [List.length_append, flatMap_wordBytes_length, wordBytes_length]
  omega

theorem pushDown_spec {sp n : ℕ} (h : n ≤ sp) (hw : sp < WORD) :
    pushDown sp n % 16 = 0 ∧ pushDown sp n + n ≤ sp ∧ sp < pushDown sp n + n + 16 := by
  have hmod : (sp + WORD - n) % WORD = sp - n := by
    rw [show sp + WORD - n = sp - n + WORD by omega, Nat.add_mod_right]
    exact Nat.mod_eq_of_lt (by omega)
  unfold pushDown
  rw [hmod]
  dsimp only
  omega

/-- All strings and the array are written, none of them above the old `sp`. -/
theorem pushStack_laid {sp sp' room : ℕ} {ustack : List ℕ} (hb : Paged pt₀ L pt)
    (he : EmptyBelow pt₀) (hl : Laid L w mem₀ s.mem)
    (hargs : ∀ arg ∈ argv, arg.length < PGSIZE) (hsp : sp ≤ USERRDONLYMAP)
    (hcount : ustack.length + room = MAXARG) (hroom : room * 8192 + 8192 ≤ sp)
    (h : pushStack pt argv s sp ustack = .ok (s', sp')) :
    Laid L (layAll (pushes argv sp ustack) w) mem₀ s'.mem ∧
      sp' = stackPointer argv sp ustack := by
  have hword : USERRDONLYMAP < WORD := by decide
  have hpage : PGSIZE = 4096 := rfl
  have hmaxarg : MAXARG = 32 := rfl
  induction argv generalizing s sp ustack w room with
  | nil =>
    unfold pushStack at h
    dsimp only at h
    split at h
    · cases h
    case _ hr =>
      cases h
      obtain ⟨-, hle, -⟩ := pushDown_spec (show (ustack.length + 1) * 8 ≤ sp by omega) (by omega)
      exact ⟨copyout_laid hb he hl (by rw [array_length]; omega) hr, rfl⟩
  | cons arg args ih =>
    unfold pushStack at h
    dsimp only at h
    split at h
    · cases h
    case _ hmax =>
    split at h
    · cases h
    case _ hr =>
      obtain ⟨room, rfl⟩ : ∃ n, room = n + 1 := ⟨room - 1, by omega⟩
      have hlen := hargs arg List.mem_cons_self
      obtain ⟨-, hle, hge⟩ := pushDown_spec (show arg.length + 1 ≤ sp by omega) (by omega)
      obtain ⟨sp₁, hsp₁⟩ : ∃ sp₁, sp₁ = pushDown sp (arg.length + 1) := ⟨_, rfl⟩
      rw [pushes, stackPointer, ← hsp₁]
      rw [← hsp₁] at h hr hle hge
      have hcopied := copyout_laid hb he hl (by
        rw [List.length_append, List.length_singleton]
        omega) hr
      have hroom' : room * 8192 + 8192 ≤ sp₁ := by linarith
      refine ih hcopied (fun a ha => hargs a (List.mem_cons_of_mem _ ha)) (by omega) ?_ hroom' h
      simp only [List.length_append, List.length_singleton]
      omega

end Zrhos.Exec
