import Zrhos.Mkfs.Dirs
import Zrhos.Mkfs.Mounted
import Zrhos.Sysfile.Lookup

/-! The kernel looks up names in a directory that `mkfs` has filled. -/
namespace Zrhos.Mkfs
open Turns
open Fs (Block BSIZE ROOTDEV Superblock IBLOCK Layout)
open Sysfile (NDIRECT NINDIRECT MAXFILE DPB DIRSIZ T_DIR Store ilock dirlookup namecmp nameField
  direntInum)

variable {sb : Superblock} {m m' image : Image} {inum k : ℕ} {indirect : Option ℕ}
  {entries : List (List ℕ × ℕ)} {g g' : Store} {e i : ℕ}

/-- A directory as `ialloc` leaves it. -/
structure FreshDir (sb : Superblock) (inum : ℕ) (m : Image) : Prop where
  type : (m.dinode sb inum).type = T_DIR
  size : (m.dinode sb inum).size = 0
  addrs : ∀ i ≤ NDIRECT, (m.dinode sb inum).addrs i = 0

/-- The calls of `dirlink` for the entries, in their order. -/
def linkAll (sb : Superblock) (inum : ℕ) : List (List ℕ × ℕ) → Image → Image
  | [], m => m
  | ent :: entries, m => linkAll sb inum entries (dirlink sb inum ent.1 ent.2 m).2

theorem FreshDir.listed (h : FreshDir sb inum image) :
    Listed sb inum image [] 0 none image := by
  constructor
  case type => exact h.type
  case size => exact h.size
  case blocks => exact blocks_zero
  case unset =>
    constructor
    case direct => exact fun j _ hj => h.addrs j hj.le
    case none => exact fun _ => h.addrs NDIRECT le_rfl
    case behind => simp
  case fits => exact Nat.zero_le _
  case used => simp
  case entry => exact fun k hk => absurd hk (Nat.not_lt_zero k)
  case free => simp
  case rest => exact fun _ _ _ => rfl

theorem linkAll_suffix : m.taken <:+ (linkAll sb inum entries m).taken := by
  induction entries generalizing m with
  | nil => exact List.suffix_rfl
  | cons ent entries ih => exact dirappend_suffix.trans ih

/-- Every entry finds its place, one behind the other. -/
theorem linkAll_listed {before : List (List ℕ × ℕ)} (hl : Layout sb) (hi : inum < sb.ninodes)
    (h : Listed sb inum image before (blocksFor before.length) indirect m)
    (hused : ∀ ent ∈ entries, ent.2 ≠ 0 ∧ ent.2 < 65536)
    (hmax : (before ++ entries).length ≤ MAXFILE * DPB)
    (hs : Supply sb image (linkAll sb inum entries m)) :
    ∃ indirect', Listed sb inum image (before ++ entries)
      (blocksFor (before ++ entries).length) indirect' (linkAll sb inum entries m) := by
  induction entries generalizing before indirect m with
  | nil =>
    rw [List.append_nil]
    exact ⟨indirect, h⟩
  | cons ent entries ih =>
    have hlt : before.length < MAXFILE * DPB := by
      rw [List.length_append, List.length_cons] at hmax
      omega
    obtain ⟨hne, hlt'⟩ := hused ent (List.mem_cons_self ..)
    obtain ⟨-, indirect', h'⟩ := h.dirlink hl hi hne hlt' hlt (hs.of_suffix linkAll_suffix)
    have happend : before ++ ent :: entries = (before ++ [ent]) ++ entries := by simp
    have hlen : before.length + 1 = (before ++ [ent]).length := by simp
    rw [happend] at hmax ⊢
    rw [hlen] at h'
    exact ih h' (fun ent' h => hused ent' (List.mem_cons_of_mem _ h)) hmax hs

/-! ### The kernel -/

/-- A name of at most 13 bytes. -/
structure ShortName (name : List ℕ) : Prop where
  bytes : 0 ∉ name
  length : name.length < DIRSIZ

section Kernel

variable (h : Listed sb inum image entries (blocksFor entries.length) indirect m)
  (hs : Shows sb inum m g) (hr : Read sb g' e inum g)

include h hs hr

theorem Listed.store_size : (g'.kernel.inode e).copy.size = 16 * entries.length := by
  rw [hr.copy, hs.size, h.size]

theorem Listed.store_block (hk : k < entries.length) : g'.addr e (k / DPB) =
    m.addr sb inum (k / DPB) ∧ g'.block (g'.kernel.inode e).dev (m.addr sb inum (k / DPB)) =
      m.block (m.addr sb inum (k / DPB)) := by
  have hj : k / DPB < blocksFor entries.length :=
    blocksFor_lt ((Nat.div_mul_le_self k DPB).trans_lt hk)
  refine ⟨h.blocks.store_addr hs hr hj, ?_⟩
  rw [hr.block, hr.dev, hs.block _ (h.blocks.taken _ hj)]

theorem Listed.readable (hd : Data sb m) (hmax : entries.length ≤ MAXFILE * DPB)
    (hk : k < entries.length) : g'.Readable e k := by
  have hj : k / DPB < blocksFor entries.length :=
    blocksFor_lt ((Nat.div_mul_le_self k DPB).trans_lt hk)
  have hmax' : entries.length ≤ 17152 := hmax
  constructor
  case begins =>
    rw [h.store_size hs hr]
    omega
  case fits =>
    rw [show MAXFILE * BSIZE = 274432 from rfl]
    omega
  case addr =>
    rw [(h.store_block hs hr hk).1]
    exact (hd _ (h.blocks.taken _ hj)).1

theorem Listed.direntInum (hk : k < entries.length) :
    Sysfile.direntInum (g'.slot e k) = entries[k].2 := by
  obtain ⟨ha, hb⟩ := h.store_block hs hr hk
  rw [Store.direntInum_slot, ha, hb, (h.entry k hk).inum]

theorem Listed.namecmp (hk : k < entries.length) {name : List ℕ} (hname : ShortName name)
    (hentry : ShortName entries[k].1) (b : ℕ × ℕ) :
    Sysfile.namecmp name (g'.slot e k) b = 0 ↔ name = entries[k].1 := by
  obtain ⟨ha, hb⟩ := h.store_block hs hr hk
  have hfield (x : ℕ) (hx : x ≤ name.length) :
      nameField ((g'.slot e k).drop 2) b.2 x = entries[k].1.getD x 0 := by
    have hx' : x < DIRSIZ := hx.trans_lt hname.length
    rw [Store.nameField_slot hx', ha, hb, (h.entry k hk).name x hx']
  rw [Sysfile.namecmp_eq_zero, Sysfile.agree_short hname.bytes hname.length]
  constructor
  · intro hc
    apply Sysfile.eq_of_getD hname.bytes hentry.bytes
    intro x hx
    rw [← hfield x hx, hc x hx]
  · intro he x hx
    rw [hfield x hx, ← he]

end Kernel

/-- Every name that `mkfs` has linked leads the kernel's `dirlookup` to the inode number it was
linked with, and no other name leads anywhere. -/
theorem directories_resolve (sb : Superblock) (hl : Layout sb) (inum : ℕ)
    (hi : inum < sb.ninodes) (image : Image)
    (hfresh : FreshDir sb inum image) (entries : List (List ℕ × ℕ))
    (hmax : entries.length ≤ (NDIRECT + NINDIRECT) * DPB)
    (hnames : ∀ ent ∈ entries, ShortName ent.1 ∧ ent.1 ≠ [] ∧ ent.2 ≠ 0 ∧ ent.2 < 65536)
    (hdistinct : (entries.map Prod.fst).Nodup)
    (hs : Supply sb image (linkAll sb inum entries image)) (g : Store) (e i : ℕ)
    (hshow : Shows sb inum (linkAll sb inum entries image) g) (hu : Unread g e inum) :
    ((linkAll sb inum entries image).dinode sb inum).size = 16 * entries.length ∧
    ∃ g', (ilock sb e).exec (Store.perform i) g = some ((), g') ∧
      (∀ ent ∈ entries, ∃ c,
        (dirlookup sb e ent.1).exec (Store.perform i) g' = (g'.skip c).igot i ROOTDEV ent.2 ∧
        ∀ r, (dirlookup sb e ent.1).exec (Store.perform i) g' = some r →
          ∃ e', r.1 = some e' ∧ (r.2.kernel.inode e').dev = ROOTDEV ∧
            (r.2.kernel.inode e').inum = ent.2) ∧
      ∀ name, ShortName name → name ∉ entries.map Prod.fst →
        ∃ c, (dirlookup sb e name).exec (Store.perform i) g' = some (none, g'.skip c) := by
  obtain ⟨indirect, h⟩ : ∃ indirect, Listed sb inum image ([] ++ entries)
      (blocksFor ([] ++ entries).length) indirect (linkAll sb inum entries image) :=
    linkAll_listed hl hi hfresh.listed (fun ent he => (hnames ent he).2.2) hmax hs
  rw [List.nil_append] at h
  have htype : (g.dinode sb ROOTDEV inum).type ≠ 0 := by
    rw [hshow.type, h.type]
    decide
  obtain ⟨g', hg', hr⟩ := hu.ilock (i := i) htype
  have hdir : (g'.kernel.inode e).copy.type = T_DIR := by rw [hr.copy, hshow.type, h.type]
  have hsize := h.store_size hshow hr
  have hcount : ((g'.kernel.inode e).copy.size + 15) / 16 = entries.length := by omega
  have hread (j : ℕ) (hj : j < entries.length) := h.readable hshow hr hs.data hmax hj
  have hmiss {name : List ℕ} (hname : ShortName name) (j : ℕ) (hj : j < entries.length)
      (hne : name ≠ entries[j].1) (b : ℕ × ℕ) : namecmp name (g'.slot e j) b ≠ 0 := fun hc =>
    hne ((h.namecmp hshow hr hj hname (hnames _ (List.getElem_mem hj)).1 b).mp hc)
  have hapart := List.pairwise_map.mp hdistinct
  refine ⟨h.size, g', hg', fun ent hent => ?_, fun name hname hnot => ?_⟩
  · obtain ⟨k, hk, rfl⟩ := List.getElem_of_mem hent
    have hshort := (hnames _ hent).1
    obtain ⟨c, hc⟩ := Sysfile.exec_dirlookup_some sb i entries[k].1 hdir
      hr.held (hcount ▸ hk) (fun j hj => hread j (hj.trans_lt hk))
      (fun j hj => Or.inr (hmiss hshort j (hj.trans hk)
        (List.pairwise_iff_getElem.mp hapart j k (hj.trans hk) hk hj).symm))
      (by rw [h.direntInum hshow hr hk]; exact (hnames _ hent).2.2.1)
      (fun b => (h.namecmp hshow hr hk hshort hshort b).mpr rfl)
    rw [hr.dev, h.direntInum hshow hr hk] at hc
    refine ⟨c, hc, fun r hrun => ?_⟩
    rw [hc] at hrun
    exact Store.igot_inum hrun
  · have hother (j : ℕ) (hj : j < entries.length) : name ≠ entries[j].1 := fun he =>
      hnot (he ▸ List.mem_map_of_mem (List.getElem_mem hj))
    exact Sysfile.exec_dirlookup_none hdir hr.held (fun j hj => hread j (hcount ▸ hj))
      fun j hj => Or.inr (hmiss hname j (hcount ▸ hj) (hother j (hcount ▸ hj)))

/-- An image with an empty root directory. -/
def emptyRoot : Image where
  block b := if b = 2 then Sysfile.rootBlock else fun _ => 0
  taken := []

def twoEntries : List (List ℕ × ℕ) := [([97], 5), ([98, 99], 6)]

theorem directories_resolve_two_entries : ∃ g',
    (ilock oneBitmapBlock 0).exec (Store.perform 0)
        (mounted (linkAll oneBitmapBlock 1 twoEntries emptyRoot)) = some ((), g') ∧
      (∃ c, (dirlookup oneBitmapBlock 0 [97]).exec (Store.perform 0) g' =
        (g'.skip c).igot 0 ROOTDEV 5) ∧
      (∃ c, (dirlookup oneBitmapBlock 0 [98, 99]).exec (Store.perform 0) g' =
        (g'.skip c).igot 0 ROOTDEV 6) ∧
      ∃ c, (dirlookup oneBitmapBlock 0 [98]).exec (Store.perform 0) g' =
        some (none, g'.skip c) := by
  have hl : Layout oneBitmapBlock := ⟨by decide, by decide, by decide, by decide⟩
  have hfresh : FreshDir oneBitmapBlock 1 emptyRoot :=
    ⟨rfl, rfl, by decide⟩
  have htaken : (linkAll oneBitmapBlock 1 twoEntries emptyRoot).taken = [1027] := by rfl
  have hs : Supply oneBitmapBlock emptyRoot (linkAll oneBitmapBlock 1 twoEntries emptyRoot) := by
    constructor
    case data =>
      intro b hb
      rw [htaken, List.mem_singleton] at hb
      subst hb
      exact ⟨by decide, by unfold Metadata; decide⟩
    case nodup =>
      rw [htaken]
      decide
    case zero =>
      intro b hb x _
      rw [htaken, List.mem_singleton] at hb
      subst hb
      rfl
  have hnames : ∀ ent ∈ twoEntries,
      ShortName ent.1 ∧ ent.1 ≠ [] ∧ ent.2 ≠ 0 ∧ ent.2 < 65536 := by
    intro ent hent
    rcases List.mem_pair.mp hent with rfl | rfl
    · exact ⟨⟨by decide, by decide⟩, by decide, by decide, by decide⟩
    · exact ⟨⟨by decide, by decide⟩, by decide, by decide, by decide⟩
  generalize hm : linkAll oneBitmapBlock 1 twoEntries emptyRoot = m at hs ⊢
  have hshow : Shows oneBitmapBlock 1 m (mounted m) := ⟨rfl, rfl, fun _ _ => rfl, fun _ _ => rfl⟩
  obtain ⟨-, g', hg', hfind, hnone⟩ := directories_resolve oneBitmapBlock hl 1 (by decide) emptyRoot
    hfresh twoEntries (by decide) hnames (by decide) (hm ▸ hs) (mounted m) 0 0 (hm ▸ hshow)
    ⟨⟨le_rfl, rfl⟩, rfl, rfl, rfl, rfl⟩
  obtain ⟨c, hc, -⟩ := hfind ([97], 5) (by simp [twoEntries])
  obtain ⟨c', hc', -⟩ := hfind ([98, 99], 6) (by simp [twoEntries])
  exact ⟨g', hg', ⟨c, hc⟩, ⟨c', hc'⟩, hnone [98] ⟨by decide, by decide⟩ (by decide)⟩

end Zrhos.Mkfs
