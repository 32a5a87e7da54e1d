import Zrhos.Sysfile.Store

/-! What a directory lookup finds: names are compared slot by slot, and a slot is read
through the blocks of the directory. -/
namespace Zrhos.Sysfile
open Turns
open Fs (Block Superblock BSIZE)
open Klib (strncmp strncmp_eq_zero Agree)

variable {sb : Superblock} {i : ℕ} {g g' : Store} {name de : List ℕ} {beyond : ℕ × ℕ}

/-! ### Names -/

theorem nameField_lt {b x : ℕ} (hx : x < DIRSIZ) : nameField name b x = name.getD x 0 := if_pos hx

theorem getD_ne_zero (h0 : 0 ∉ name) {x : ℕ} (hx : x < name.length) : name.getD x 0 ≠ 0 := by
  rw [List.getD_eq_getElem _ _ hx]
  exact fun hc => h0 (hc ▸ List.getElem_mem hx)

theorem getD_length : name.getD name.length 0 = 0 := by
  simp [List.getD_eq_getElem?_getD]

/-- A name of at most 13 bytes agrees with a field that holds it and its terminator. -/
theorem agree_short {t : ℕ → ℕ} {b : ℕ} (h0 : 0 ∉ name) (hlen : name.length < DIRSIZ) :
    Agree DIRSIZ (nameField name b) t ↔ ∀ x ≤ name.length, t x = name.getD x 0 := by
  constructor
  · rintro ⟨k, hk, hbefore, heq, hend⟩
    have hle : k ≤ name.length := by
      by_contra hc
      have h := (hbefore name.length (not_le.mp hc)).1
      rw [nameField_lt hlen, getD_length] at h
      exact h rfl
    have hkn : k = name.length := by
      by_contra hc
      have hlt : k < name.length := lt_of_le_of_ne hle hc
      have h := hend (hlt.trans hlen)
      rw [nameField_lt (hlt.trans hlen)] at h
      exact getD_ne_zero h0 hlt h
    subst hkn
    intro x hx
    have hxD : x < DIRSIZ := hx.trans_lt hlen
    rcases Nat.lt_or_eq_of_le hx with hlt | rfl
    · rw [← (hbefore x hlt).2, nameField_lt hxD]
    · rw [← heq, nameField_lt hxD]
  · intro h
    refine ⟨name.length, hlen.le, fun j hj => ?_, ?_, fun _ => ?_⟩
    · rw [nameField_lt (hj.trans hlen)]
      exact ⟨getD_ne_zero h0 hj, (h j hj.le).symm⟩
    · rw [nameField_lt hlen, h _ le_rfl]
    · rw [nameField_lt hlen, getD_length]

/-- Strings are equal if they agree up to the end of one of them. -/
theorem eq_of_getD {other : List ℕ} (h0 : 0 ∉ name) (h0' : 0 ∉ other)
    (h : ∀ x ≤ name.length, other.getD x 0 = name.getD x 0) : name = other := by
  have hle : other.length ≤ name.length := by
    by_contra hc
    have hlast := h name.length le_rfl
    rw [getD_length] at hlast
    exact getD_ne_zero h0' (not_le.mp hc) hlast
  have hge : name.length ≤ other.length := by
    by_contra hc
    have hlast := h other.length (not_le.mp hc).le
    rw [getD_length] at hlast
    exact getD_ne_zero h0 (not_le.mp hc) hlast.symm
  apply List.ext_getElem (le_antisymm hge hle)
  intro x hx hx'
  have hget := h x hx.le
  rwa [List.getD_eq_getElem _ _ hx, List.getD_eq_getElem _ _ hx', eq_comm] at hget

theorem namecmp_eq_zero : namecmp name de beyond = 0 ↔
    Agree DIRSIZ (nameField name beyond.1) (nameField (de.drop 2) beyond.2) := strncmp_eq_zero

/-! ### Slots -/

namespace Store

/-- The bytes of entry `k` of the directory behind entry `e` of the inode table. -/
def slot (g : Store) (e k : ℕ) : List ℕ := g.bytes e (16 * k) 16

def stray (g : Store) : ℕ × ℕ := (g.oracle 0).ext .stray

/-- Entry `k` lies in a block that the directory has. -/
structure Readable (g : Store) (e k : ℕ) : Prop where
  begins : 16 * k ≤ (g.kernel.inode e).copy.size
  fits : 16 * k + 16 ≤ MAXFILE * BSIZE
  addr : g.addr e (k / DPB) ≠ 0

/-- `iget` as the last step of a lookup. -/
def igot (i : ℕ) (g : Store) (dev inum : ℕ) : Option (Option ℕ × Store) :=
  (g.perform i (.iget dev inum)).map fun r => (some r.1, r.2)

end Store

theorem Store.slot_getD {e k x : ℕ} (hx : x < 16) : (g.slot e k).getD x 0 =
    g.block (g.kernel.inode e).dev (g.addr e (k / DPB)) (16 * (k % DPB) + x) := by
  have hdiv : (16 * k + x) / BSIZE = k / DPB := by
    rw [show DPB = 64 from rfl, show BSIZE = 1024 from rfl]
    omega
  have hmod : (16 * k + x) % BSIZE = 16 * (k % DPB) + x := by
    rw [show DPB = 64 from rfl, show BSIZE = 1024 from rfl]
    omega
  simp [Store.slot, Store.bytes, Store.byte, List.getD_eq_getElem?_getD, hx, hdiv, hmod]

theorem Store.direntInum_slot {e k : ℕ} : direntInum (g.slot e k) =
    half (g.block (g.kernel.inode e).dev (g.addr e (k / DPB))) (16 * (k % DPB)) := by
  simp only [direntInum, half, Nat.zero_add]
  rw [Store.slot_getD (by decide), Store.slot_getD (by decide), Nat.add_zero]

theorem Store.nameField_slot {e k b x : ℕ} (hx : x < DIRSIZ) :
    nameField ((g.slot e k).drop 2) b x =
      g.block (g.kernel.inode e).dev (g.addr e (k / DPB)) (16 * (k % DPB) + 2 + x) := by
  have hx' : x < 14 := hx
  have hget := Store.slot_getD (g := g) (e := e) (k := k) (x := 2 + x) (by omega)
  rw [nameField_lt hx, Nat.add_assoc, ← hget]
  simp [List.getD_eq_getElem?_getD]

theorem exec_readi_slot {e k : ℕ} (hheld : g.held = []) (h : g.Readable e k) :
    (readi sb e false 0 (16 * k) 16).exec (Store.perform i) g =
      some (((16 : ℤ), g.slot e k), g) := by
  have hB : BSIZE = 1024 := rfl
  have hdiv : 16 * k / BSIZE = k / DPB := by
    rw [show DPB = 64 from rfl, hB]
    omega
  have hin : 16 * k + 16 ≤ ((g.kernel.inode e).copy.size / BSIZE + 2) * BSIZE := by
    have := h.begins
    rw [hB]
    omega
  have hbacked : g.Backed e (16 * k) 16 := by
    intro j hj hlt
    have hjk : j = k / DPB := by
      rw [hdiv] at hj
      rw [show DPB = 64 from rfl] at hj ⊢
      rw [hB] at hlt
      omega
    rw [hjk]
    exact h.addr
  obtain ⟨c, hc, hread⟩ : ∃ c, (false = false → c = 0) ∧
      (readi sb e false 0 (16 * k) 16).exec (Store.perform i) g =
        some (((16 : ℤ), g.slot e k), g.skip c) :=
    exec_readi hheld (fun hu => absurd hu Bool.false_ne_true) h.begins h.fits hin hbacked
  rw [hread, hc rfl]
  rfl

theorem exec_dirlookupLoop_succ {dp dev n k : ℕ} (hheld : g.held = []) (h : g.Readable dp k) :
    (dirlookupLoop sb dp dev name (n + 1) (16 * k)).exec (Store.perform i) g =
      if direntInum (g.slot dp k) = 0 then
        (dirlookupLoop sb dp dev name n (16 * (k + 1))).exec (Store.perform i) g
      else if namecmp name (g.slot dp k) g.stray = 0 then
        (g.skip 1).igot i dev (direntInum (g.slot dp k))
      else (dirlookupLoop sb dp dev name n (16 * (k + 1))).exec (Store.perform i) (g.skip 1) := by
  have hnext : 16 * k + 16 = 16 * (k + 1) := by ring
  conv_lhs => unfold dirlookupLoop
  rw [exec_bind_of_eq (exec_readi_slot hheld h), if_neg (by simp), hnext]
  split_ifs with h0 hc
  · rfl
  · rw [exec_bind_of_eq (exec_call.trans (Store.perform_ext .stray))]
    refine (congrArg (fun p : FsM (Option ℕ) => p.exec (Store.perform i) (g.skip 1))
      (if_pos hc)).trans ?_
    rw [exec_bind, exec_call, Store.igot]
    cases (g.skip 1).perform i (.iget dev (direntInum (g.slot dp k))) <;> rfl
  · rw [exec_bind_of_eq (exec_call.trans (Store.perform_ext .stray))]
    exact congrArg (fun p : FsM (Option ℕ) => p.exec (Store.perform i) (g.skip 1)) (if_neg hc)

/-- The lookup passes over entries that are free or have other names. -/
theorem exec_dirlookupLoop_pass (sb : Superblock) (i : ℕ) (name : List ℕ) (dev : ℕ)
    {dp n t k : ℕ} {g : Store} (hheld : g.held = [])
    (hread : ∀ j < k + t, g.Readable dp j)
    (hmiss : ∀ j, k ≤ j → j < k + t →
      direntInum (g.slot dp j) = 0 ∨ ∀ b, namecmp name (g.slot dp j) b ≠ 0) :
    ∃ c, (dirlookupLoop sb dp dev name (t + n) (16 * k)).exec (Store.perform i) g =
      (dirlookupLoop sb dp dev name n (16 * (k + t))).exec (Store.perform i) (g.skip c) := by
  induction t generalizing k g with
  | zero => exact ⟨0, by simp⟩
  | succ t ih =>
    have hidx : k + (t + 1) = k + 1 + t := by omega
    rw [hidx] at hread hmiss ⊢
    rw [Nat.succ_add, exec_dirlookupLoop_succ hheld (hread k (by omega))]
    by_cases h0 : direntInum (g.slot dp k) = 0
    · rw [if_pos h0]
      exact ih hheld hread fun j hj hlt => hmiss j (by omega) hlt
    · have hno := (hmiss k le_rfl (by omega)).resolve_left h0 g.stray
      rw [if_neg h0, if_neg hno]
      obtain ⟨c, hc⟩ := ih (g := g.skip 1) (k := k + 1) hheld
        (fun j hj => ⟨(hread j hj).begins, (hread j hj).fits, (hread j hj).addr⟩)
        fun j hj hlt => hmiss j (by omega) hlt
      exact ⟨c + 1, hc.trans (by rw [Store.skip_skip])⟩

theorem exec_dirlookup {dp : ℕ} (htype : (g.kernel.inode dp).copy.type = T_DIR) :
    (dirlookup sb dp name).exec (Store.perform i) g =
      (dirlookupLoop sb dp (g.kernel.inode dp).dev name
        (((g.kernel.inode dp).copy.size + 15) / 16) (16 * 0)).exec (Store.perform i) g := by
  unfold dirlookup
  rw [exec_bind_of_eq (exec_call.trans (Store.perform_inode dp)), if_neg (not_not.mpr htype)]

/-- No entry has the name. -/
theorem exec_dirlookup_none {dp : ℕ} (htype : (g.kernel.inode dp).copy.type = T_DIR)
    (hheld : g.held = [])
    (hread : ∀ j < ((g.kernel.inode dp).copy.size + 15) / 16, g.Readable dp j)
    (hmiss : ∀ j < ((g.kernel.inode dp).copy.size + 15) / 16,
      direntInum (g.slot dp j) = 0 ∨ ∀ b, namecmp name (g.slot dp j) b ≠ 0) :
    ∃ c, (dirlookup sb dp name).exec (Store.perform i) g = some (none, g.skip c) := by
  obtain ⟨c, hc⟩ := exec_dirlookupLoop_pass sb i name (g.kernel.inode dp).dev (k := 0) (n := 0)
    (t := ((g.kernel.inode dp).copy.size + 15) / 16) hheld
    (by simpa using hread) (fun j _ hj => hmiss j (by omega))
  exact ⟨c, (exec_dirlookup htype).trans hc⟩

/-- The first entry with the name is the one `iget` gets. -/
theorem exec_dirlookup_some (sb : Superblock) (i : ℕ) (name : List ℕ) {dp k : ℕ} (htype : (g.kernel.inode dp).copy.type = T_DIR)
    (hheld : g.held = []) (hk : k < ((g.kernel.inode dp).copy.size + 15) / 16)
    (hread : ∀ j ≤ k, g.Readable dp j)
    (hmiss : ∀ j < k, direntInum (g.slot dp j) = 0 ∨ ∀ b, namecmp name (g.slot dp j) b ≠ 0)
    (hinum : direntInum (g.slot dp k) ≠ 0) (hname : ∀ b, namecmp name (g.slot dp k) b = 0) :
    ∃ c, (dirlookup sb dp name).exec (Store.perform i) g =
      (g.skip c).igot i (g.kernel.inode dp).dev (direntInum (g.slot dp k)) := by
  obtain ⟨n, hn⟩ : ∃ n, ((g.kernel.inode dp).copy.size + 15) / 16 = k + (n + 1) :=
    ⟨((g.kernel.inode dp).copy.size + 15) / 16 - k - 1, by omega⟩
  obtain ⟨c, hc⟩ := exec_dirlookupLoop_pass sb i name (g.kernel.inode dp).dev (k := 0) (t := k)
    (n := n + 1) hheld (fun j hj => hread j (by omega))
    (fun j _ hj => hmiss j (by omega))
  refine ⟨c + 1, ?_⟩
  have hreadk : (g.skip c).Readable dp k :=
    ⟨(hread k le_rfl).begins, (hread k le_rfl).fits, (hread k le_rfl).addr⟩
  have hnamec : namecmp name ((g.skip c).slot dp k) (g.skip c).stray = 0 := hname _
  have hinumc : direntInum ((g.skip c).slot dp k) ≠ 0 := hinum
  rw [exec_dirlookup htype, hn, hc, Nat.zero_add,
    exec_dirlookupLoop_succ (g := g.skip c) hheld hreadk, if_neg hinumc, if_pos hnamec,
    Store.skip_skip, Nat.add_comm 1 c]
  rfl

theorem igetEntry_inum {table : ℕ → Inode} {dev inum e : ℕ} {ip : Inode}
    (h : igetEntry table dev inum = some (e, ip)) : ip.dev = dev ∧ ip.inum = inum := by
  unfold igetEntry at h
  split at h
  · rename_i e' hfind
    obtain ⟨rfl, rfl⟩ := Prod.mk.inj (Option.some_injective _ h)
    have hp := List.find?_some hfind
    exact (of_decide_eq_true hp).2
  · split at h
    · obtain ⟨rfl, rfl⟩ := Prod.mk.inj (Option.some_injective _ h)
      exact ⟨rfl, rfl⟩
    · cases h

/-- The entry a lookup answers stands for the inode it has found. -/
theorem Store.igot_inum {dev inum : ℕ} {r : Option ℕ × Store} (h : g.igot i dev inum = some r) :
    ∃ e, r.1 = some e ∧ (r.2.kernel.inode e).dev = dev ∧ (r.2.kernel.inode e).inum = inum := by
  obtain ⟨x, hx, rfl⟩ := Option.map_eq_some_iff.mp h
  obtain ⟨y, hy, rfl⟩ := Option.map_eq_some_iff.mp hx
  simp only [Sysfile.perform] at hy
  split_ifs at hy
  obtain ⟨⟨e, ip⟩, he, rfl⟩ := Option.map_eq_some_iff.mp hy
  refine ⟨e, rfl, ?_⟩
  simpa [Kernel.setHand, Kernel.setInode] using igetEntry_inum he

end Zrhos.Sysfile
