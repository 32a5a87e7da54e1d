import Zrhos.Exec.Commit
import Zrhos.Mmap.Fork

/-! The image that an ELF file describes, against the one `exec` leaves. Nobody clears the pages of
a segment behind `filesz`, and the arguments may run down into it. -/
namespace Zrhos.Exec
open Mmap OrderedSet Overlay
open Sysfile (littleEndian)

variable {κ : Type} {cnt : Counters κ} {f : File} {k k' : Kern κ} {old im : Image}
  {tf tf' : Trapframe} {L : List Page} {trampoline highLevel : ℕ} {argv : List (List ℕ)}
  {ph : Proghdr}

/-! ### The file -/

/-- The header at the start of the file. -/
def File.elf (f : File) : Elfhdr := elfhdr (f.content.take EHSIZE)

/-- The `PT_LOAD` entries of the table at `phoff`, in full width. -/
def File.ptLoad (f : File) : List Proghdr :=
  ((List.range f.elf.phnum).map fun i =>
    proghdr ((f.content.drop (f.elf.phoff + i * PHSIZE)).take PHSIZE)).filter
      fun ph => ph.type = ELF_PROG_LOAD

/-- Two segments without a page in common. -/
def Proghdr.Apart (p q : Proghdr) : Prop :=
  p.vaddr + pgRoundUp p.memsz ≤ q.vaddr ∨ q.vaddr + pgRoundUp q.memsz ≤ p.vaddr

/-- An ELF file as a linker makes it. -/
structure File.Elf (f : File) : Prop where
  header : EHSIZE ≤ f.content.length
  table : f.elf.phoff + f.elf.phnum * PHSIZE ≤ f.content.length
  filesz_le : ∀ ph ∈ f.ptLoad, ph.filesz ≤ ph.memsz
  inFile : ∀ ph ∈ f.ptLoad, ph.off + ph.filesz ≤ f.content.length
  aligned : ∀ ph ∈ f.ptLoad, ph.vaddr % PGSIZE = 0
  below : ∀ ph ∈ f.ptLoad, ph.vaddr + ph.memsz ≤ VA_USERSTACK
  apart : f.ptLoad.Pairwise Proghdr.Apart

/-- The byte of a segment in memory: the file's, then zeros. -/
def File.byteAt (f : File) (ph : Proghdr) (i : ℕ) : ℕ :=
  if i < ph.filesz then f.content.getD (ph.off + i) 0 else 0

/-- Every byte of every segment is where the file wants it, with the permissions of the
segment. -/
def File.ImageOf (f : File) (k : Kern κ) (im : Image) : Prop :=
  ∀ ph ∈ f.ptLoad, ∀ i < ph.memsz, Shows k im ph.flags (ph.vaddr + i) (f.byteAt ph i)

/-- Nothing that the pages of the segments need is given back, no argument falls on a segment's
byte and changes it, and the frames hold zeros where the file has nothing. -/
structure File.Undisturbed (f : File) (mem : ℕ → ℕ → ℕ) (given : List ℕ) (im : Image)
    (argv : List (List ℕ)) : Prop where
  spared : ∀ ph ∈ f.ptLoad, ∀ i < ph.memsz, Spared given im (vpn (ph.vaddr + i))
  args : ∀ ph ∈ f.ptLoad, ∀ i < ph.memsz, ∀ b, argByte argv (ph.vaddr + i) = some b →
    b = f.byteAt ph i
  zero : ∀ ph ∈ f.ptLoad, ∀ i < ph.memsz, ph.filesz ≤ i → argByte argv (ph.vaddr + i) = none →
    mem (PTE2PA (im.pagetable (vpn (ph.vaddr + i)))) ((ph.vaddr + i) % PGSIZE) = 0

instance (f : File) (mem : ℕ → ℕ → ℕ) (given : List ℕ) (im : Image) (argv : List (List ℕ)) :
    Decidable (f.Undisturbed mem given im argv) :=
  decidable_of_iff ((∀ ph ∈ f.ptLoad, ∀ i < ph.memsz, Spared given im (vpn (ph.vaddr + i))) ∧
    (∀ ph ∈ f.ptLoad, ∀ i < ph.memsz, ∀ b ∈ argByte argv (ph.vaddr + i), b = f.byteAt ph i) ∧
    ∀ ph ∈ f.ptLoad, ∀ i < ph.memsz, ph.filesz ≤ i → argByte argv (ph.vaddr + i) = none →
      mem (PTE2PA (im.pagetable (vpn (ph.vaddr + i)))) ((ph.vaddr + i) % PGSIZE) = 0)
    ⟨fun ⟨h1, h2, h3⟩ => ⟨h1, h2, h3⟩, fun ⟨h1, h2, h3⟩ => ⟨h1, h2, h3⟩⟩

/-! ### The narrow fields are wide enough -/

theorem bytes_content {off n : ℕ} (h : off + n ≤ f.content.length) :
    f.bytes off n = (f.content.drop off).take n := by
  rw [File.bytes, List.drop_append_of_le_length (by omega), List.take_append_of_le_length]
  rw [List.length_drop]
  omega

theorem headers_eq {n off : ℕ} (h : off + n * PHSIZE ≤ f.content.length) :
    f.headers n off = (List.range n).map fun i =>
      proghdr ((f.content.drop (off + i * PHSIZE)).take PHSIZE) := by
  induction n generalizing off with
  | zero => rfl
  | succ n ih =>
    have hsize := f.size_lt
    rw [Nat.succ_mul] at h
    rw [File.headers, bytes_content (by omega), List.range_succ_eq_map, List.map_cons,
      List.map_map, Nat.zero_mul, Nat.add_zero]
    refine congrArg _ ?_
    by_cases hn : n = 0
    · rw [hn]
      rfl
    · have hpos : 0 < n * PHSIZE := Nat.mul_pos (Nat.pos_of_ne_zero hn) (by decide)
      rw [Nat.mod_eq_of_lt (by omega), ih (by omega)]
      refine List.map_congr_left fun i _ => ?_
      have hi : off + PHSIZE + i * PHSIZE = off + (i + 1) * PHSIZE := by
        rw [Nat.succ_mul]
        omega
      simp only [Function.comp_apply, hi]

theorem File.Elf.loads_eq (h : f.Elf) : f.loads = f.ptLoad := by
  have hsize := f.size_lt
  have htable := h.table
  have hhdr : f.bytes 0 EHSIZE = f.content.take EHSIZE := by
    have := h.header
    rw [bytes_content (by omega), List.drop_zero]
  unfold File.loads File.ptLoad
  rw [hhdr]
  change List.filter _ (f.headers f.elf.phnum (f.elf.phoff % 2 ^ 32)) = _
  rw [Nat.mod_eq_of_lt (by omega), headers_eq htable]

/-- A segment's bytes in memory are the file's. -/
theorem File.Elf.data_eq (h : f.Elf) (hph : ph ∈ f.ptLoad) :
    f.data ph = (f.content.drop ph.off).take ph.filesz ∧ (f.data ph).length = ph.filesz := by
  have hsize := f.size_lt
  have hin := h.inFile ph hph
  have hdata : f.data ph = (f.content.drop ph.off).take ph.filesz := by
    unfold File.data
    rw [Nat.mod_eq_of_lt (by omega), Nat.mod_eq_of_lt (by omega), bytes_content hin]
  refine ⟨hdata, ?_⟩
  rw [hdata, List.length_take, List.length_drop]
  omega

/-! ### The bytes of the segments -/

theorem le_pgRoundUp_memsz (h : f.Elf) (hph : ph ∈ f.ptLoad) : ph.memsz ≤ pgRoundUp ph.memsz := by
  apply le_pgRoundUp
  have hbelow := h.below ph hph
  have hstack : VA_USERSTACK + PGSIZE ≤ WORD := by decide
  omega

/-- What the segments put at the `i`-th byte of one of them. -/
theorem File.Elf.layAll_loads (h : f.Elf) (hph : ph ∈ f.ptLoad) {i : ℕ} (hi : i < ph.memsz) :
    layAll (f.loads.map fun p => (p.vaddr, f.data p)) (fun _ => none) (ph.vaddr + i) =
      if i < ph.filesz then some (f.byteAt ph i) else none := by
  have hapart : f.ptLoad.Pairwise fun p q => Overlay.Apart (p.vaddr, f.data p)
      (q.vaddr, f.data q) := by
    refine h.apart.imp_of_mem fun {p q} hp hq hpq => ?_
    have hp' := le_pgRoundUp_memsz h hp
    have hq' := le_pgRoundUp_memsz h hq
    have hplen := h.filesz_le p hp
    have hqlen := h.filesz_le q hq
    unfold Overlay.Apart Proghdr.Apart at *
    simp only [(h.data_eq hp).2, (h.data_eq hq).2]
    omega
  obtain ⟨hdata, hlen⟩ := h.data_eq hph
  rw [h.loads_eq]
  split_ifs with hfile
  · have hget := layAll_inside (w := fun _ => none) (List.pairwise_map.mpr hapart)
      (List.mem_map_of_mem hph) (i := i) (by rw [hlen]; exact hfile)
    have hin := h.inFile ph hph
    rw [hget, File.byteAt, if_pos hfile, List.getD_eq_getElem _ _ (by omega)]
    simp only [List.get_eq_getElem, hdata, List.getElem_take, List.getElem_drop]
  · apply layAll_outside
    intro p hp
    obtain ⟨q, hq, rfl⟩ := List.mem_map.mp hp
    have hpair : q = ph ∨ Proghdr.Apart q ph := by
      have hsymm : Std.Symm fun p q : Proghdr => p = q ∨ Proghdr.Apart p q :=
        ⟨fun p q hpq => hpq.imp Eq.symm Or.symm⟩
      refine List.Pairwise.forall_of_forall (R := fun p q => p = q ∨ Proghdr.Apart p q)
        (fun x _ => Or.inl rfl) (h.apart.imp Or.inr) hq hph
    have hqlen := h.filesz_le q hq
    have hq' := le_pgRoundUp_memsz h hq
    have hph' := le_pgRoundUp_memsz h hph
    simp only [(h.data_eq hq).2]
    rcases hpair with rfl | hpair
    · omega
    · unfold Proghdr.Apart at hpair
      omega

/-- The page of a segment's byte. -/
theorem File.Elf.page (h : f.Elf) (hslots : L.map (fun x => (x.v, x.perm)) = f.slots)
    (hph : ph ∈ f.ptLoad) {i : ℕ} (hi : i < ph.memsz) :
    ∃ x ∈ L, vpn (ph.vaddr + i) = x.v ∧ x.perm = flags2perm ph.flags := by
  have halign := h.aligned ph hph
  have hround := le_pgRoundUp_memsz h hph
  have hmod := pgRoundUp_mod ph.memsz
  have hslot : (vpn (ph.vaddr + i / PGSIZE * PGSIZE), flags2perm ph.flags) ∈ f.slots := by
    apply List.mem_append_left
    rw [List.mem_flatMap]
    refine ⟨ph, h.loads_eq.symm ▸ hph, ?_⟩
    apply List.mem_map.mpr
    refine ⟨i / PGSIZE, List.mem_range.mpr ?_, rfl⟩
    simp only [PGSIZE] at *
    omega
  rw [← hslots] at hslot
  obtain ⟨x, hx, hxe⟩ := List.mem_map.mp hslot
  obtain ⟨hv, hperm⟩ := Prod.mk.inj hxe
  refine ⟨x, hx, ?_, hperm⟩
  rw [hv]
  simp only [vpn, PGSIZE] at *
  omega

/-- `sys_exec` leaves the image the file describes exactly when nothing disturbs it. -/
theorem exec_image_iff (hok : k.alloc.Ok) (helf : f.Elf)
    (h : sysExec cnt trampoline k old tf highLevel f argv = .ok (0, k', im, tf')) :
    f.ImageOf k' im ↔ ∃ a im₀,
      f.plan cnt trampoline old.trapframe highLevel argv.length k.alloc = .ok (a, im₀) ∧
      f.Undisturbed k.mem (givenBack cnt a old) im₀ argv := by
  obtain ⟨a, L, mem, ps, sp, hplan, hm, hfreed, -, -⟩ := sysExec_made hok h
  have hlow (ph : Proghdr) (hph : ph ∈ f.loads) :
      ph.vaddr + (f.data ph).length ≤ USERRDONLYMAP := by
    rw [helf.loads_eq] at hph
    have hstack : VA_USERSTACK ≤ USERRDONLYMAP := by decide
    have hbelow := helf.below ph hph
    have hle := helf.filesz_le ph hph
    rw [(helf.data_eq hph).2]
    omega
  -- what one byte of the image is, and when it stays
  have hbyte (ph : Proghdr) (hph : ph ∈ f.ptLoad) (i : ℕ) (hi : i < ph.memsz) :
      Shows k' im ph.flags (ph.vaddr + i) (f.byteAt ph i) ↔
        Spared (givenBack cnt a old) im (vpn (ph.vaddr + i)) ∧
        ((argByte argv (ph.vaddr + i)).or
            (if i < ph.filesz then some (f.byteAt ph i) else none)).getD
          (k.mem (PTE2PA (im.pagetable (vpn (ph.vaddr + i)))) ((ph.vaddr + i) % PGSIZE)) =
            f.byteAt ph i := by
    obtain ⟨x, hx, hv, hperm⟩ := helf.page hm.slots hph hi
    have haddr : x.v * PGSIZE + (ph.vaddr + i) % PGSIZE = ph.vaddr + i := by
      have hbelow := helf.below ph hph
      have hstack : VA_USERSTACK ≤ 2 ^ 39 := by decide
      rw [← hv, vpn_of_lt (by omega)]
      exact Nat.div_add_mod' _ _
    have hoff : (ph.vaddr + i) % PGSIZE < PGSIZE := Nat.mod_lt _ (by decide)
    obtain ⟨pt₀, hb⟩ := hm.paged
    rw [hm.shows_iff hfreed hx hv hperm, hm.bytes hlow x hx _ hoff, haddr, layAll_or,
      helf.layAll_loads hph hi, hv, (hb.maps hx).2.2]
    rfl
  constructor
  · intro himage
    have hall (ph : Proghdr) (hph : ph ∈ f.ptLoad) (i : ℕ) (hi : i < ph.memsz) :=
      (hbyte ph hph i hi).mp (himage ph hph i hi)
    refine ⟨a, im, hplan, fun ph hph i hi => (hall ph hph i hi).1, fun ph hph i hi b hb => ?_,
      fun ph hph i hi hfile hnone => ?_⟩
    · have hvalue := (hall ph hph i hi).2
      rwa [hb] at hvalue
    · have hvalue := (hall ph hph i hi).2
      rw [hnone, if_neg (not_lt.mpr hfile)] at hvalue
      rwa [File.byteAt, if_neg (not_lt.mpr hfile)] at hvalue
  · rintro ⟨a', im', hplan', hu⟩ ph hph i hi
    obtain ⟨rfl, rfl⟩ := Prod.mk.inj (Except.ok.inj (hplan'.symm.trans hplan))
    refine (hbyte ph hph i hi).mpr ⟨hu.spared ph hph i hi, ?_⟩
    cases harg : argByte argv (ph.vaddr + i) with
    | some b => exact (hu.args ph hph i hi b harg)
    | none =>
      by_cases hfile : i < ph.filesz
      · rw [if_pos hfile]
        rfl
      · rw [if_neg hfile, File.byteAt, if_neg hfile]
        exact hu.zero ph hph i hi (not_lt.mp hfile) harg

/-- A file with one writable segment at `0x1000`, eight bytes long in the file and sixteen in
memory. -/
def smallFile : File where
  content := littleEndian 4 ELF_MAGIC ++ List.replicate 20 0 ++ littleEndian 8 0x1000 ++
    littleEndian 8 64 ++ List.replicate 16 0 ++ littleEndian 2 1 ++ List.replicate 6 0 ++
    littleEndian 4 ELF_PROG_LOAD ++ littleEndian 4 6 ++ littleEndian 8 120 ++
    littleEndian 8 0x1000 ++ littleEndian 8 0x1000 ++ littleEndian 8 8 ++ littleEndian 8 16 ++
    littleEndian 8 4096 ++ littleEndian 8 19
  slack := []
  byte_lt := by decide +kernel
  size_lt := by decide +kernel

theorem smallFile_ptLoad : smallFile.ptLoad = [⟨ELF_PROG_LOAD, 6, 120, 0x1000, 8, 16⟩] := by
  decide +kernel

theorem smallFile_elf : smallFile.Elf where
  header := by decide +kernel
  table := by decide +kernel
  filesz_le := by
    rw [smallFile_ptLoad]
    decide
  inFile := by
    rw [smallFile_ptLoad]
    decide +kernel
  aligned := by
    rw [smallFile_ptLoad]
    decide
  below := by
    rw [smallFile_ptLoad]
    decide
  apart := by
    rw [smallFile_ptLoad]
    exact List.pairwise_singleton _ _

/-- Twenty pages that were full of `b` when they were freed, and no counters; `g` is what the stack
holds in the key of each lookup. -/
def recycled (b g : ℕ) : Kern RefTree :=
  ((List.range 20).map fun i => 0x80300000 + i * PGSIZE).foldl memFree
    ⟨fun _ _ => b, ⟨[], 0x80400000, fun _ => 0, [], fun _ => g⟩⟩

/-- A task with regions, and the tables of its page table. -/
def oldImage (tree : List MmapNode) : Image :=
  { userTask machine.trampoline 0x80200000 0 with
    tree := tree
    tables := [0x80210000, 0x80211000, 0x80212000]
    mids := [vpn TRAMPOLINE / 2 ^ 18]
    lows := [vpn TRAMPOLINE / 2 ^ 9] }

/-- A page at `0x10000000`. -/
def onePage : List MmapNode := [⟨0x10000000, PGSIZE, PERM_R, MAP_ANONYMOUS ||| MAP_PRIVATE⟩]

/-- The machine after `sys_mmap` of that page, whose blocks took two of the twenty pages. -/
def mapped (b g : ℕ) : Kern RefTree :=
  { recycled b g with
    alloc := ((mmapAlloc (recycled b g).alloc).toOption).getD (recycled b g).alloc }

/-- The program with the argument `sh`. -/
def execSmall (k : Kern RefTree) (tree : List MmapNode) :
    Except Stop (ℤ × Kern RefTree × Image × Trapframe) :=
  sysExec refTree machine.trampoline k (oldImage tree) (fun _ => 0) 0 smallFile [[115, 104]]

/-- What it takes. -/
def planSmall (k : Kern RefTree) : Except Stop (Alloc RefTree × Image) :=
  smallFile.plan refTree machine.trampoline 0x80200000 0 1 k.alloc

theorem ok_of_result {α : Type} {x : Except Stop (ℤ × α)} {r : ℤ}
    (h : x.toOption.map Prod.fst = some r) : ∃ y, x = .ok (r, y) := by
  rcases x with e | ⟨r', y⟩
  · cases h
  · obtain rfl := Option.some.inj h
    exact ⟨y, rfl⟩

/-- On pages that held zeros the segment is as the file says. -/
theorem exec_image_iff_zero : ∃ k' im tf',
    execSmall (mapped 0 0) onePage = .ok (0, k', im, tf') ∧ smallFile.ImageOf k' im := by
  obtain ⟨⟨k', im, tf'⟩, hexec⟩ := ok_of_result (x := execSmall (mapped 0 0) onePage) (r := 0)
    (by decide +kernel)
  refine ⟨k', im, tf', hexec, ?_⟩
  apply (exec_image_iff (by decide +kernel) smallFile_elf hexec).mpr
  obtain ⟨⟨a, im₀⟩, hplan⟩ := ok_of_toBool (x := planSmall (mapped 0 0)) (by decide +kernel)
  have hun : (planSmall (mapped 0 0)).toOption.map (fun x => decide (smallFile.Undisturbed
      (mapped 0 0).mem (givenBack refTree x.1 (oldImage onePage)) x.2 [[115, 104]])) =
      some true := by decide +kernel
  rw [hplan] at hun
  exact ⟨a, im₀, hplan, of_decide_eq_true (Option.some.inj hun)⟩

/-- On pages that held sevens the ninth byte of the segment is a seven. -/
theorem exec_leaves_old_byte : ∃ k' im tf', (recycled 7 0).alloc.Ok ∧ smallFile.Elf ∧
    execSmall (recycled 7 0) [] = .ok (0, k', im, tf') ∧ ¬ smallFile.ImageOf k' im := by
  have hseven : (execSmall (recycled 7 0) []).toOption.map (fun x =>
      x.2.1.mem (PTE2PA (x.2.2.1.pagetable (vpn 0x1008))) 8) = some 7 := by decide +kernel
  obtain ⟨⟨k', im, tf'⟩, hexec⟩ := ok_of_result (x := execSmall (recycled 7 0) []) (r := 0)
    (by decide +kernel)
  refine ⟨k', im, tf', by decide +kernel, smallFile_elf, hexec, fun himage => ?_⟩
  rw [File.ImageOf, smallFile_ptLoad] at himage
  have hzero := (himage _ List.mem_cons_self 8 (by decide)).byte
  rw [hexec] at hseven
  have hmem := Option.some.inj hseven
  dsimp only at hmem hzero
  rw [show (0x1000 + 8) % PGSIZE = 8 from rfl] at hzero
  exact absurd (hmem.symm.trans hzero) (by decide +kernel)

end Zrhos.Exec
