import Zrhos.Lib.Walk
import Zrhos.Sysfile.Components
import Zrhos.Sysfile.Create

/-! `namex` of a task that runs alone. It holds a reference to the inode it has come to and to
no other. -/
namespace Zrhos.Sysfile
open Turns Walk
open Fs (Block Superblock ROOTDEV IPB IBLOCK)

variable {sb : Superblock} {i e n m : ℕ} {g s s' : Store} {l l' : List ℕ} {x y : Inode}
  {look : ℕ → List ℕ → Option ℕ}

/-! ### Inodes by their number -/

namespace Store

/-- The fields of an inode once it is locked. -/
def known (sb : Superblock) (g : Store) (x : Inode) : Dinode :=
  if x.valid then x.copy else g.dinode sb x.dev x.inum

/-- The entry of the inode table that is in use for inode `n`. -/
def entryOf (g : Store) (n : ℕ) : Option ℕ :=
  (List.range NINODE).find? fun e =>
    0 < (g.kernel.inode e).ref ∧ (g.kernel.inode e).dev = ROOTDEV ∧ (g.kernel.inode e).inum = n

/-- Inode `n`, in memory or on disk. -/
def inodeOf (sb : Superblock) (g : Store) (n : ℕ) : Dinode :=
  match g.entryOf n with
  | some e => g.known sb (g.kernel.inode e)
  | none => g.dinode sb ROOTDEV n

def IsDir (sb : Superblock) (g : Store) (n : ℕ) : Prop := (g.inodeOf sb n).type = T_DIR

instance : DecidablePred (g.IsDir sb) := fun _ => inferInstanceAs (Decidable (_ = T_DIR))

/-- No call is in progress, and no inode has two entries of the table. -/
structure Resting (g : Store) : Prop where
  held : g.held = []
  itable : g.kernel.itable = none
  holder : ∀ e, g.kernel.holder e = none
  ref : ∀ e, 0 ≤ (g.kernel.inode e).ref
  unique : ∀ e < NINODE, ∀ e' < NINODE, 0 < (g.kernel.inode e).ref →
    0 < (g.kernel.inode e').ref → (g.kernel.inode e).dev = (g.kernel.inode e').dev →
    (g.kernel.inode e).inum = (g.kernel.inode e').inum → e = e'

/-- There are two free entries of the inode table. -/
def Room (g : Store) : Prop :=
  ∃ e < NINODE, ∃ e' < NINODE, e ≠ e' ∧ (g.kernel.inode e).ref = 0 ∧ (g.kernel.inode e').ref = 0

theorem entryOf_none (h : g.entryOf n = none) (he : e < NINODE) (href : 0 < (g.kernel.inode e).ref)
    (hdev : (g.kernel.inode e).dev = ROOTDEV) : (g.kernel.inode e).inum ≠ n := by
  intro hinum
  have hno := List.find?_eq_none.mp h e (List.mem_range.mpr he)
  simp [href, hdev, hinum] at hno

theorem entryOf_some (h : g.entryOf n = some e) : e < NINODE ∧ 0 < (g.kernel.inode e).ref ∧
    (g.kernel.inode e).dev = ROOTDEV ∧ (g.kernel.inode e).inum = n := by
  have hp := List.find?_some h
  exact ⟨List.mem_range.mp (List.mem_of_find?_eq_some h), of_decide_eq_true hp⟩

theorem Resting.entryOf_eq (h : g.Resting) (he : e < NINODE) (href : 0 < (g.kernel.inode e).ref)
    (hdev : (g.kernel.inode e).dev = ROOTDEV) : g.entryOf (g.kernel.inode e).inum = some e := by
  cases hentry : g.entryOf (g.kernel.inode e).inum with
  | none => exact absurd rfl (entryOf_none hentry he href hdev)
  | some e' =>
    obtain ⟨he', href', hdev', hinum'⟩ := entryOf_some hentry
    rw [h.unique e he e' he' href href' (hdev.trans hdev'.symm) hinum'.symm]

/-- An inode that is in use. -/
theorem Resting.inodeOf_eq (h : g.Resting) (he : e < NINODE) (href : 0 < (g.kernel.inode e).ref)
    (hdev : (g.kernel.inode e).dev = ROOTDEV) :
    g.inodeOf sb (g.kernel.inode e).inum = g.known sb (g.kernel.inode e) := by
  unfold inodeOf
  rw [h.entryOf_eq he href hdev]

end Store

/-! ### The inode table on the way -/

/-- The entry stands for the same inode. -/
structure Keeps (sb : Superblock) (g : Store) (x y : Inode) : Prop where
  dev : y.dev = x.dev
  inum : y.inum = x.inum
  known : g.known sb y = g.known sb x

theorem Keeps.refl : Keeps sb g x x := ⟨rfl, rfl, rfl⟩

theorem Keeps.trans {z : Inode} (h : Keeps sb g x y) (h' : Keeps sb g y z) : Keeps sb g x z :=
  ⟨h'.dev.trans h.dev, h'.inum.trans h.inum, h'.known.trans h.known⟩

/-- All but the inodes and the answers that are used up. -/
structure Same (g s : Store) : Prop where
  block : s.block = g.block
  disk : s.disk = g.disk
  held : s.held = g.held
  holder : s.kernel.holder = g.kernel.holder
  itable : s.kernel.itable = g.kernel.itable
  oracle : ∃ k, s.oracle = (g.skip k).oracle

/-- The store `g` with references to the entries `l` more. -/
structure Walks (sb : Superblock) (g s : Store) (l : List ℕ) : Prop where
  same : Same g s
  ref : ∀ e, (s.kernel.inode e).ref = (g.kernel.inode e).ref + l.count e
  kept : ∀ e < NINODE, 0 < (g.kernel.inode e).ref →
    Keeps sb g (g.kernel.inode e) (s.kernel.inode e)
  mine : ∀ e ∈ l, e < NINODE ∧ (s.kernel.inode e).dev = ROOTDEV ∧
    g.known sb (s.kernel.inode e) = g.inodeOf sb (s.kernel.inode e).inum

theorem Walks.start : Walks sb g g [] where
  same := ⟨rfl, rfl, rfl, rfl, rfl, 0, rfl⟩
  ref e := by simp
  kept e _ _ := Keeps.refl
  mine e he := by cases he

/-- One entry of the inode table has changed. -/
theorem Walks.update (h : Walks sb g s l) (hsame : Same g s')
    (hinode : s'.kernel.inode = Function.update s.kernel.inode e x)
    (href : x.ref = (g.kernel.inode e).ref + l'.count e)
    (hcount : ∀ e' ≠ e, l'.count e' = l.count e')
    (hkept : e < NINODE → 0 < (g.kernel.inode e).ref → Keeps sb g (g.kernel.inode e) x)
    (hmine : e ∈ l' → e < NINODE ∧ x.dev = ROOTDEV ∧ g.known sb x = g.inodeOf sb x.inum) :
    Walks sb g s' l' := by
  constructor
  case same => exact hsame
  case ref =>
    intro e'
    rw [hinode]
    by_cases he : e' = e
    · subst he
      rw [Function.update_self, href]
    · rw [Function.update_of_ne he, h.ref, hcount e' he]
  case kept =>
    intro e' hlt hpos
    rw [hinode]
    by_cases he : e' = e
    · subst he
      rw [Function.update_self]
      exact hkept hlt hpos
    · rw [Function.update_of_ne he]
      exact h.kept e' hlt hpos
  case mine =>
    intro e' hmem
    rw [hinode]
    by_cases he : e' = e
    · subst he
      rw [Function.update_self]
      exact hmine hmem
    · rw [Function.update_of_ne he]
      refine h.mine e' (List.count_pos_iff.mp ?_)
      rw [← hcount e' he]
      exact List.count_pos_iff.mpr hmem

/-- The table after `iget` has answered entry `e` and what it holds now. -/
def Store.got (s : Store) (i e : ℕ) (x : Inode) : Store :=
  { s with kernel := (s.kernel.setInode e x).setHand i e (s.kernel.hand i e + 1) }

theorem perform_iget (h : s.kernel.itable = none) : s.perform i (.iget ROOTDEV n) =
    (igetEntry s.kernel.inode ROOTDEV n).map fun r => (r.1, s.got i r.1 r.2) := by
  simp only [Store.perform, Sysfile.perform, if_pos h, Option.map_map, Function.comp_def]
  rfl

theorem Same.got (h : Same g s) : Same g (s.got i e x) :=
  ⟨h.block, h.disk, h.held, h.holder, h.itable, h.oracle⟩

theorem count_cons_of_ne {e' : ℕ} (h : e' ≠ e) : (e :: l).count e' = l.count e' :=
  List.count_cons_of_ne h.symm

/-- An entry that is in use stands for the inode it did before. -/
theorem Walks.known_eq (hrest : g.Resting) (h : Walks sb g s l) (he : e < NINODE)
    (href : 0 < (s.kernel.inode e).ref) (hdev : (s.kernel.inode e).dev = ROOTDEV) :
    g.known sb (s.kernel.inode e) = g.inodeOf sb (s.kernel.inode e).inum := by
  by_cases hpos : 0 < (g.kernel.inode e).ref
  · have hk := h.kept e he hpos
    rw [hk.known, hk.inum]
    exact (hrest.inodeOf_eq he hpos (hk.dev.symm.trans hdev)).symm
  · have hzero : (g.kernel.inode e).ref = 0 := le_antisymm (not_lt.mp hpos) (hrest.ref e)
    rw [h.ref e, hzero, zero_add] at href
    exact (h.mine e (List.count_pos_iff.mp (by omega))).2.2

/-- An inode that no entry is in use for was not in memory before. -/
theorem Walks.entryOf_none (h : Walks sb g s l) (hnone : s.entryOf n = none) :
    g.entryOf n = none := by
  cases hentry : g.entryOf n with
  | none => rfl
  | some e =>
    obtain ⟨he, hpos, hdev, hinum⟩ := Store.entryOf_some hentry
    have hk := h.kept e he hpos
    have href : 0 < (s.kernel.inode e).ref := by
      rw [h.ref e]
      omega
    exact absurd (hk.inum.trans hinum)
      (Store.entryOf_none hnone he href (hk.dev.trans hdev))

theorem Walks.iget (hrest : g.Resting) (h : Walks sb g s l) (i m : ℕ) :
    (s.perform i (.iget ROOTDEV m) = none ∧ ∀ e < NINODE, (s.kernel.inode e).ref ≠ 0) ∨
    ∃ e x, s.perform i (.iget ROOTDEV m) = some (e, s.got i e x) ∧ Walks sb g (s.got i e x) (e :: l) ∧
      x.inum = m ∧ ∀ e' ∈ l, ((s.got i e x).kernel.inode e').inum = (s.kernel.inode e').inum := by
  rw [perform_iget (h.same.itable.trans hrest.itable)]
  have hinode (e : ℕ) (x : Inode) :
      (s.got i e x).kernel.inode = Function.update s.kernel.inode e x := rfl
  cases hentry : s.entryOf m with
  | some e =>
    obtain ⟨he, hpos, hdev, hinum⟩ := Store.entryOf_some hentry
    obtain ⟨x, hx⟩ : ∃ x, x = { s.kernel.inode e with ref := (s.kernel.inode e).ref + 1 } :=
      ⟨_, rfl⟩
    have hget : igetEntry s.kernel.inode ROOTDEV m = some (e, x) := by
      unfold igetEntry
      unfold Store.entryOf at hentry
      rw [hentry, hx]
    rw [hget]
    refine .inr ⟨e, x, rfl, ?_, hx ▸ hinum, fun e' _ => ?_⟩
    · refine h.update h.same.got (hinode _ _) ?_ (fun e' he' => count_cons_of_ne he')
        (fun he hpos => ?_) fun _ => ⟨he, hx ▸ hdev, ?_⟩
      · rw [hx, List.count_cons_self]
        simp only [h.ref e]
        omega
      · have hk := h.kept e he hpos
        rw [hx]
        exact ⟨hk.dev, hk.inum, hk.known⟩
      · rw [hx]
        exact h.known_eq hrest he hpos hdev
    · rw [hinode]
      by_cases hee : e' = e
      · subst hee
        rw [Function.update_self, hx]
      · rw [Function.update_of_ne hee]
  | none =>
    cases hfree : (List.range NINODE).find? fun e => (s.kernel.inode e).ref = 0 with
    | none =>
      have hget : igetEntry s.kernel.inode ROOTDEV m = none := by
        unfold igetEntry
        unfold Store.entryOf at hentry
        rw [hentry, hfree]
      refine .inl ⟨by rw [hget]; rfl, fun e he => ?_⟩
      simpa using List.find?_eq_none.mp hfree e (List.mem_range.mpr he)
    | some e =>
      have hzero : (s.kernel.inode e).ref = 0 := by simpa using List.find?_some hfree
      have he : e < NINODE := List.mem_range.mp (List.mem_of_find?_eq_some hfree)
      obtain ⟨x, hx⟩ : ∃ x, x = { s.kernel.inode e with
          dev := ROOTDEV
          inum := m
          ref := 1
          valid := false } := ⟨_, rfl⟩
      have hget : igetEntry s.kernel.inode ROOTDEV m = some (e, x) := by
        unfold igetEntry
        unfold Store.entryOf at hentry
        rw [hentry, hfree, hx]
      have hsum := h.ref e
      have hnonneg := hrest.ref e
      have hcount : l.count e = 0 := by omega
      rw [hget]
      refine .inr ⟨e, x, rfl, ?_, by rw [hx], fun e' hmem => ?_⟩
      · refine h.update h.same.got (hinode _ _) ?_ (fun e' he' => count_cons_of_ne he')
          (fun _ hpos => by omega) fun _ => ⟨he, by rw [hx], ?_⟩
        · rw [List.count_cons_self, hcount, hx]
          dsimp only
          omega
        · unfold Store.inodeOf
          rw [hx, h.entryOf_none hentry]
          rfl
      · have hee : e' ≠ e := fun hee => (List.count_pos_iff.mpr (hee ▸ hmem)).ne' hcount
        rw [hinode, Function.update_of_ne hee]

/-- `iget` finds no entry only if there was none for it. -/
theorem Walks.not_room (h : Walks sb g s l) (hlen : l.length ≤ 1)
    (hfull : ∀ e < NINODE, (s.kernel.inode e).ref ≠ 0) : ¬ g.Room := by
  rintro ⟨e, he, e', he', hne, hzero, hzero'⟩
  have hsum := h.ref e
  have hsum' := h.ref e'
  have hcount : 0 < l.count e := by
    have := hfull e he
    omega
  have hcount' : 0 < l.count e' := by
    have := hfull e' he'
    omega
  match l, hlen with
  | [], _ => simp at hcount
  | [a], _ =>
    have ha := List.count_pos_iff.mp hcount
    have ha' := List.count_pos_iff.mp hcount'
    exact hne ((List.mem_singleton.mp ha).trans (List.mem_singleton.mp ha').symm)

/-- An inode of the file system that has a link. -/
structure Store.Linked (sb : Superblock) (g : Store) (n : ℕ) : Prop where
  type : (g.inodeOf sb n).type ≠ 0
  nlink : 1 ≤ (g.inodeOf sb n).nlink

theorem Walks.ready (hrest : g.Resting) (h : Walks sb g s l) (hmem : e ∈ l) : s.Ready e := by
  have hsum := h.ref e
  have hnonneg := hrest.ref e
  have hpos := List.count_pos_iff.mpr hmem
  exact ⟨by omega, (congrFun h.same.holder e).trans (hrest.holder e)⟩

/-- `ilock` leaves the inode as it is known, in memory. -/
theorem Walks.ilock (hrest : g.Resting) (h : Walks sb g s l) (hmem : e ∈ l)
    (htype : (g.inodeOf sb (s.kernel.inode e).inum).type ≠ 0) (i : ℕ) : ∃ s',
      (ilock sb e).exec (Store.perform i) s = some ((), s'.lock i e) ∧ Walks sb g s' l ∧
      (s'.kernel.inode e).inum = (s.kernel.inode e).inum ∧ (s'.kernel.inode e).dev = ROOTDEV ∧
      (s'.kernel.inode e).copy = g.inodeOf sb (s.kernel.inode e).inum := by
  obtain ⟨he, hdev, hknown⟩ := h.mine e hmem
  unfold Store.known at hknown
  by_cases hv : (s.kernel.inode e).valid = true
  · rw [if_pos hv] at hknown
    exact ⟨s, exec_ilock_valid (h.ready hrest hmem) hv, h, rfl, hdev, hknown⟩
  · have hread : s.dinode sb (s.kernel.inode e).dev (s.kernel.inode e).inum =
        g.inodeOf sb (s.kernel.inode e).inum := by
      rw [if_neg hv] at hknown
      unfold Store.dinode at hknown ⊢
      rw [h.same.block, hknown]
    have hlock := exec_ilock_load (i := i) sb (h.ready hrest hmem)
      (h.same.held.trans hrest.held) (by simpa using hv)
    rw [if_neg (by rw [hread]; exact htype)] at hlock
    obtain ⟨x, hx⟩ : ∃ x, x = { s.kernel.inode e with
        copy := s.dinode sb (s.kernel.inode e).dev (s.kernel.inode e).inum
        valid := true } := ⟨_, rfl⟩
    have hinode : (s.load sb e).kernel.inode = Function.update s.kernel.inode e x := by
      rw [hx]
      rfl
    have hxknown : g.known sb x = g.inodeOf sb (s.kernel.inode e).inum := by
      rw [hx, ← hread]
      rfl
    have hself : (s.load sb e).kernel.inode e = x := by rw [hinode, Function.update_self]
    refine ⟨s.load sb e, hlock, ?_, ?_, ?_, ?_⟩
    · have hsame : Same g (s.load sb e) :=
        ⟨h.same.block, h.same.disk, h.same.held, h.same.holder, h.same.itable, h.same.oracle⟩
      refine h.update hsame hinode ?_ (fun _ _ => rfl) (fun he hpos => ?_) fun _ => ⟨he, ?_, ?_⟩
      · rw [hx]
        exact h.ref e
      · have hk := h.kept e he hpos
        refine ⟨?_, ?_, ?_⟩
        · rw [hx]
          exact hk.dev
        · rw [hx]
          exact hk.inum
        · rw [hxknown, ← (h.mine e hmem).2.2, hk.known]
      · rw [hx]
        exact hdev
      · rw [hxknown, hx]
    · rw [hself, hx]
    · rw [hself, hx]
      exact hdev
    · rw [hself, hx]
      exact hread

/-- `iput` of an inode that has a link gives one reference back. -/
theorem Walks.iput (hrest : g.Resting) (h : Walks sb g s l) (hperm : l.Perm (e :: l'))
    (hlinked : g.Linked sb (s.kernel.inode e).inum) (i : ℕ) : ∃ s',
      (iput sb e).exec (Store.perform i) s = some ((), s') ∧ Walks sb g s' l' ∧
      ∀ e', (s'.kernel.inode e').inum = (s.kernel.inode e').inum := by
  have hmem : e ∈ l := hperm.mem_iff.mpr List.mem_cons_self
  obtain ⟨he, hdev, hknown⟩ := h.mine e hmem
  have hnot : ¬ ((s.kernel.inode e).ref = 1 ∧ (s.kernel.inode e).valid = true ∧
      (s.kernel.inode e).copy.nlink = 0) := by
    rintro ⟨-, hv, hzero⟩
    unfold Store.known at hknown
    rw [if_pos hv] at hknown
    have hlink := hlinked.nlink
    rw [← hknown, hzero] at hlink
    exact absurd hlink (by decide)
  obtain ⟨x, hx⟩ : ∃ x, x = { s.kernel.inode e with ref := (s.kernel.inode e).ref + -1 } := ⟨_, rfl⟩
  obtain ⟨s', hs'⟩ : ∃ s', s' = { s with
      kernel := (s.kernel.addRef e (-1)).setHand i e (s.kernel.hand i e - 1) } := ⟨_, rfl⟩
  have hput : s.perform i (.iput e) = some (false, s') := by
    rw [hs']
    simp only [Store.perform, Sysfile.perform, if_pos (h.same.itable.trans hrest.itable), if_neg hnot]
    rfl
  have hinode : s'.kernel.inode = Function.update s.kernel.inode e x := by
    rw [hs', hx]
    rfl
  refine ⟨s', ?_, ?_, fun e' => ?_⟩
  · unfold Sysfile.iput
    rw [exec_bind_of_eq (exec_call.trans hput)]
    rfl
  · have hsame : Same g s' := by
      rw [hs']
      exact ⟨h.same.block, h.same.disk, h.same.held, h.same.holder, h.same.itable, h.same.oracle⟩
    have hcount (e' : ℕ) : l.count e' = (e :: l').count e' := hperm.count_eq e'
    refine h.update hsame hinode ?_ (fun e' hne => ?_) (fun he hpos => ?_) fun _ => ⟨he, ?_, ?_⟩
    · have hsum := h.ref e
      rw [hcount, List.count_cons_self] at hsum
      rw [hx]
      dsimp only
      omega
    · rw [hcount, count_cons_of_ne hne]
    · have hk := h.kept e he hpos
      rw [hx]
      exact ⟨hk.dev, hk.inum, hk.known⟩
    · rw [hx]
      exact hdev
    · rw [hx]
      exact hknown
  · rw [hinode]
    by_cases hee : e' = e
    · subst hee
      rw [Function.update_self, hx]
    · rw [Function.update_of_ne hee]

theorem Walks.iunlockput (hrest : g.Resting) (h : Walks sb g s l) (hperm : l.Perm (e :: l'))
    (hlinked : g.Linked sb (s.kernel.inode e).inum) (i : ℕ) : ∃ s',
      (iunlockput sb e).exec (Store.perform i) (s.lock i e) = some ((), s') ∧ Walks sb g s' l' ∧
      ∀ e', (s'.kernel.inode e').inum = (s.kernel.inode e').inum := by
  have hholder : s.kernel.holder e = none := (congrFun h.same.holder e).trans (hrest.holder e)
  obtain ⟨s', hput, hwalks, hinum⟩ := h.iput hrest hperm hlinked i
  refine ⟨s', ?_, hwalks, hinum⟩
  unfold Sysfile.iunlockput iunlock
  rw [exec_bind_of_eq (exec_call.trans (Store.perform_V e)), Store.unlock_lock hholder, hput]

/-! ### The loop -/

/-- `dirlookup` of the name in directory `n` gets what `look` says, whatever else the inode table
holds. -/
def Store.Answers (sb : Superblock) (i : ℕ) (g : Store) (look : ℕ → List ℕ → Option ℕ) (n : ℕ)
    (name : List ℕ) : Prop :=
  ∀ (s : Store) (dp : ℕ), s.block = g.block → s.held = g.held →
    (∃ k, s.oracle = (g.skip k).oracle) → (s.kernel.inode dp).dev = ROOTDEV →
    (s.kernel.inode dp).inum = n → (s.kernel.inode dp).copy = g.inodeOf sb n →
    ∃ k, (dirlookup sb dp name).exec (Store.perform i) s = match look n name with
      | none => some (none, s.skip k)
      | some m => (s.skip k).igot i ROOTDEV m

/-- What `namex` is to find: the inode at the end of the path, or with `parent` the directory of
its last element and that element. -/
def goal (dir : ℕ → Prop) [DecidablePred dir] (look : ℕ → List ℕ → Option ℕ) (parent : Bool) (n : ℕ)
    (names : List (List ℕ)) : Option (ℕ × List ℕ) :=
  if parent then Walk.parent dir look n names else (walk dir look n names).map fun m => (m, [])

section Goal

variable {dir : ℕ → Prop} [DecidablePred dir] {parent : Bool} {name : List ℕ}
  {names : List (List ℕ)}

theorem goal_cons (h : ¬ (parent = true ∧ names = [])) : goal dir look parent n (name :: names) =
    (step dir look n name).bind fun m => goal dir look parent m names := by
  unfold goal
  cases parent with
  | false =>
    simp only [Bool.false_eq_true, if_false, walk]
    cases step dir look n name <;> rfl
  | true =>
    cases names with
    | nil => exact absurd ⟨rfl, rfl⟩ h
    | cons name' names => exact parent_cons_cons

theorem goal_of_not_dir (h : ¬ dir n) : goal dir look parent n (name :: names) = none := by
  by_cases hlast : parent = true ∧ names = []
  · obtain ⟨rfl, rfl⟩ := hlast
    exact (parent_singleton look).trans (if_neg h)
  · rw [goal_cons hlast, step, if_neg h]
    rfl

end Goal

theorem Walks.skip (h : Walks sb g s l) (k : ℕ) : Walks sb g (s.skip k) l where
  same := by
    obtain ⟨j, hj⟩ := h.same.oracle
    refine ⟨h.same.block, h.same.disk, h.same.held, h.same.holder, h.same.itable, k + j, ?_⟩
    have hskip : (s.skip k).oracle = fun n => s.oracle (n + k) := rfl
    rw [hskip, hj]
    simp only [Store.skip, Nat.add_assoc]
  ref := h.ref
  kept := h.kept
  mine := h.mine

/-- `iget` of a task that has locked an inode. -/
theorem igot_lock (h : s.kernel.itable = none) (m : ℕ) : (s.lock i e).igot i ROOTDEV m =
    (s.perform i (.iget ROOTDEV m)).map fun r => (some r.1, r.2.lock i e) := by
  have h' : (s.lock i e).kernel.itable = none := h
  have hinode : (s.lock i e).kernel.inode = s.kernel.inode := rfl
  rw [Store.igot, perform_iget h, perform_iget h', hinode, Option.map_map, Option.map_map]
  rfl

/-- The loop comes to the inode that the names lead to and holds no other. -/
theorem namexLoop_spec (hrest : g.Resting) (i : ℕ) (parent : Bool)
    {names : List (List ℕ × List ℕ)} (hended : Ended names) (h : Walks sb g s [e])
    (hinum : (s.kernel.inode e).inum = n)
    (hfirst : parent = true → names = [] → g.Linked sb n)
    (hway : ∀ p x, Visits (g.IsDir sb) look n (names.map Prod.fst) p x →
      g.Linked sb p ∧ (g.IsDir sb p → g.Answers sb i look p x)) :
    (∃ r s', (namexLoop sb parent names e).exec (Store.perform i) s = some (r, s') ∧
      Walks sb g s' (r.toList.map Prod.fst) ∧
      r.map (fun x => ((s'.kernel.inode x.1).inum, x.2)) =
        goal (g.IsDir sb) look parent n (names.map Prod.fst)) ∨
    ((namexLoop sb parent names e).exec (Store.perform i) s = none ∧ ¬ g.Room) := by
  induction names generalizing s e n with
  | nil =>
    left
    unfold namexLoop
    cases parent with
    | false =>
      rw [if_neg Bool.false_ne_true]
      exact ⟨some (e, []), s, rfl, h, by simp [goal, walk, hinum]⟩
    | true =>
      obtain ⟨s', hput, hwalks, -⟩ := h.iput hrest (List.Perm.refl _)
        (hinum.symm ▸ hfirst rfl rfl) i
      rw [if_pos rfl, exec_bind_of_eq hput]
      exact ⟨none, s', rfl, hwalks, by simp [goal]⟩
  | cons x names ih =>
    obtain ⟨name, rest⟩ := x
    obtain ⟨hlinked, hanswers⟩ := hway n name Visits.first
    have hmem : e ∈ [e] := List.mem_cons_self
    obtain ⟨s₁, hlock, h₁, hinum₁, hdev₁, hcopy₁⟩ :=
      h.ilock hrest hmem (by rw [hinum]; exact hlinked.type) i
    rw [hinum] at hinum₁ hcopy₁
    have hcopy : ((s₁.lock i e).kernel.inode e).copy = g.inodeOf sb n := hcopy₁
    obtain ⟨s₂, hput, h₂, -⟩ := h₁.iunlockput hrest (List.Perm.refl _) (hinum₁.symm ▸ hlinked) i
    have hnone : ∀ {p : FsM (Option (ℕ × List ℕ))}, p = (do
        iunlockput sb e
        return none) → p.exec (Store.perform i) (s₁.lock i e) = some (none, s₂) := by
      rintro p rfl
      rw [exec_bind_of_eq hput]
      rfl
    unfold namexLoop
    rw [exec_bind_of_eq hlock, exec_bind_of_eq (exec_call.trans (Store.perform_inode e)), hcopy]
    by_cases hdir : (g.inodeOf sb n).type = T_DIR
    · rw [if_neg (not_not.mpr hdir)]
      by_cases hlast : parent = true ∧ rest = []
      · left
        have hnil : names = [] := hended.1.mp hlast.2
        have hholder : s₁.kernel.holder e = none :=
          (congrFun h₁.same.holder e).trans (hrest.holder e)
        have hunlock : (do
            iunlock e
            return some (e, name) : FsM (Option (ℕ × List ℕ))).exec (Store.perform i)
              (s₁.lock i e) = some (some (e, name), s₁) := by
          unfold iunlock
          rw [exec_bind_of_eq (exec_call.trans (Store.perform_V e)), Store.unlock_lock hholder]
          rfl
        rw [if_pos hlast]
        refine ⟨_, s₁, hunlock, h₁, ?_⟩
        subst hnil
        obtain ⟨rfl, -⟩ := hlast
        simp only [Option.map_some, hinum₁]
        have hisdir : g.IsDir sb n := hdir
        exact ((parent_singleton look).trans (if_pos hisdir)).symm
      · have hmore : ¬ (parent = true ∧ names.map Prod.fst = []) := fun hc =>
          hlast ⟨hc.1, hended.1.mpr (List.map_eq_nil_iff.mp hc.2)⟩
        have hstep : step (g.IsDir sb) look n name = look n name := if_pos hdir
        obtain ⟨k, hlook⟩ := hanswers hdir (s₁.lock i e) e h₁.same.block h₁.same.held h₁.same.oracle
          hdev₁ hinum₁ hcopy
        rw [if_neg hlast, List.map_cons, goal_cons hmore, hstep]
        cases hnext : look n name with
        | none =>
          left
          rw [hnext] at hlook
          obtain ⟨s₃, hput, h₃, -⟩ :=
            (h₁.skip k).iunlockput hrest (List.Perm.refl _) (hinum₁.symm ▸ hlinked) i
          refine ⟨none, s₃, ?_, h₃, rfl⟩
          rw [exec_bind_of_eq hlook]
          exact exec_bind_of_eq hput
        | some m =>
          have hcommute : ((s₁.lock i e).skip k).igot i ROOTDEV m = ((s₁.skip k).perform i
              (.iget ROOTDEV m)).map fun r => (some r.1, r.2.lock i e) :=
            igot_lock (s := s₁.skip k) (h₁.same.itable.trans hrest.itable) m
          rw [hnext] at hlook
          dsimp only at hlook
          rw [hcommute] at hlook
          rcases (h₁.skip k).iget hrest i m with ⟨hfull, hno⟩ | ⟨e', x, hget, h₃, hx, hsame⟩
          · right
            rw [hfull] at hlook
            exact ⟨by rw [exec_bind, hlook]; rfl, (h₁.skip k).not_room le_rfl hno⟩
          · rw [hget] at hlook
            have hinum₃ := (hsame e hmem).trans hinum₁
            obtain ⟨s₄, hput, h₄, hkept⟩ :=
              h₃.iunlockput hrest (List.Perm.swap e e' []) (hinum₃.symm ▸ hlinked) i
            have hinum₄ : (s₄.kernel.inode e').inum = m := by
              rw [hkept e', ← hx]
              simp [Store.got, Kernel.setHand, Kernel.setInode]
            have hrun := ih hended.2 h₄ hinum₄
              (fun hp hnil => absurd ⟨hp, by rw [hnil]; rfl⟩ hmore)
              (fun p y hv => hway p y (hv.cons (hstep.trans hnext)))
            rw [Option.bind_some, exec_bind_of_eq hlook]
            dsimp only
            rw [exec_bind_of_eq hput]
            exact hrun
    · left
      rw [if_pos hdir]
      exact ⟨none, s₂, hnone rfl, h₂, (goal_of_not_dir hdir).symm⟩

/-! ### Paths -/

/-- The path starts in directory `n`: the root directory, or the one of the task. -/
def Store.StartsAt (g : Store) (i : ℕ) (path : List ℕ) (n : ℕ) : Prop :=
  if path.head? = some slash then n = ROOTINO
  else ∃ e < NINODE, (g.kernel.task i).cwd = some e ∧ 0 < (g.kernel.inode e).ref ∧
    (g.kernel.inode e).dev = ROOTDEV ∧ (g.kernel.inode e).inum = n

/-- The inodes that the names lead through have links, and `dirlookup` finds in those that are
directories what `look` says. -/
def Store.Way (sb : Superblock) (i : ℕ) (g : Store) (look : ℕ → List ℕ → Option ℕ) (n : ℕ)
    (names : List (List ℕ)) : Prop :=
  g.Linked sb n ∧ ∀ p x, Visits (g.IsDir sb) look n names p x →
    g.Linked sb p ∧ (g.IsDir sb p → g.Answers sb i look p x)

theorem startDir_spec (sb : Superblock) {path : List ℕ} (hrest : g.Resting) (hstart : g.StartsAt i path n) :
    (∃ e s, (startDir path).exec (Store.perform i) g = some (e, s) ∧ Walks sb g s [e] ∧
      (s.kernel.inode e).inum = n) ∨
    ((startDir path).exec (Store.perform i) g = none ∧ ¬ g.Room) := by
  unfold Store.StartsAt at hstart
  unfold startDir
  by_cases hslash : path.head? = some slash
  · rw [if_pos hslash] at hstart ⊢
    subst hstart
    have hnil : Walks sb g g [] := Walks.start
    rcases hnil.iget hrest i ROOTINO with ⟨hfull, hno⟩ | ⟨e, x, hget, h, hx, -⟩
    · exact .inr ⟨exec_call.trans hfull, hnil.not_room (Nat.zero_le _) hno⟩
    · refine .inl ⟨e, _, exec_call.trans hget, h, ?_⟩
      rw [← hx]
      simp [Store.got, Kernel.setHand, Kernel.setInode]
  · rw [if_neg hslash] at hstart ⊢
    obtain ⟨e, he, hcwd, hpos, hdev, hinum⟩ := hstart
    obtain ⟨x, hx⟩ : ∃ x, x = { g.kernel.inode e with ref := (g.kernel.inode e).ref + 1 } := ⟨_, rfl⟩
    have hread : g.perform i .cwd = some (some e, g) := congrArg (fun r => some (r, g)) hcwd
    have hdup : g.perform i (.idup e) = some ((), g.got i e x) := by
      rw [hx]
      simp only [Store.perform, Sysfile.perform, if_pos hrest.itable]
      rfl
    have hinode : (g.got i e x).kernel.inode = Function.update g.kernel.inode e x := rfl
    have hself : (g.got i e x).kernel.inode e = x := by rw [hinode, Function.update_self]
    have hkeeps : Keeps sb g (g.kernel.inode e) x := by
      rw [hx]
      exact ⟨rfl, rfl, rfl⟩
    have hzero : Walks sb g g [] := Walks.start
    refine .inl ⟨e, g.got i e x, ?_, ?_, ?_⟩
    · rw [exec_bind_of_eq (exec_call.trans hread)]
      exact exec_bind_of_eq (exec_call.trans hdup)
    · refine hzero.update hzero.same.got hinode ?_ (fun e' hne => count_cons_of_ne hne)
        (fun _ _ => hkeeps) fun _ => ⟨he, hkeeps.dev.trans hdev, ?_⟩
      · rw [hx]
        simp
      · rw [hkeeps.known, hkeeps.inum]
        exact (hrest.inodeOf_eq he hpos hdev).symm
    · rw [hself, hkeeps.inum, hinum]

theorem namex_spec {path : List ℕ} (hrest : g.Resting) (hstart : g.StartsAt i path n)
    (hway : g.Way sb i look n (components path)) (parent : Bool) :
    (∃ r g', (namex sb path parent).exec (Store.perform i) g = some (r, g') ∧
      Walks sb g g' (r.toList.map Prod.fst) ∧
      r.map (fun x => ((g'.kernel.inode x.1).inum, x.2)) =
        goal (g.IsDir sb) look parent n (components path)) ∨
    ((namex sb path parent).exec (Store.perform i) g = none ∧ ¬ g.Room) := by
  obtain ⟨hnames, hended⟩ := elems_spec (le_refl path.length)
  unfold namex
  rcases startDir_spec sb hrest hstart with ⟨e, s, hexec, h, hinum⟩ | ⟨hnone, hroom⟩
  · rw [exec_bind_of_eq hexec, ← hnames]
    exact namexLoop_spec hrest i parent hended h hinum (fun _ _ => hway.1) (hnames ▸ hway.2)
  · exact .inr ⟨by rw [exec_bind, hnone]; rfl, hroom⟩

/-- The only reference that is new is the one to the entry `r`. No lock is left behind. -/
structure Neutral (g g' : Store) (r : Option ℕ) : Prop where
  ref : ∀ e, (g'.kernel.inode e).ref = (g.kernel.inode e).ref + if r = some e then 1 else 0
  unlocked : ∀ e, g'.kernel.holder e = none
  kept : ∀ e < NINODE, 0 < (g.kernel.inode e).ref →
    (g'.kernel.inode e).dev = (g.kernel.inode e).dev ∧
      (g'.kernel.inode e).inum = (g.kernel.inode e).inum
  returned : ∀ e, r = some e → e < NINODE ∧ (g'.kernel.inode e).dev = ROOTDEV
  held : g'.held = []
  block : g'.block = g.block
  disk : g'.disk = g.disk

theorem Walks.neutral (sb : Superblock) {r : Option ℕ} (hrest : g.Resting)
    (h : Walks sb g s r.toList) : Neutral g s r where
  ref e := by
    rw [h.ref e]
    cases r with
    | none => simp
    | some e' =>
      by_cases he : e' = e
      · simp [he]
      · simp [he]
  unlocked e := (congrFun h.same.holder e).trans (hrest.holder e)
  kept e he hpos := ⟨(h.kept e he hpos).dev, (h.kept e he hpos).inum⟩
  returned e he := by
    have hmem : e ∈ r.toList := by simp [he]
    exact ⟨(h.mine e hmem).1, (h.mine e hmem).2.1⟩
  held := h.same.held.trans hrest.held
  block := h.same.block
  disk := h.same.disk

theorem components_double_slash (u v : List ℕ) :
    components (u ++ slash :: slash :: v) = components (u ++ slash :: v) := by
  rw [components_append, components_slash, components_append]

theorem components_trailing_slash (u : List ℕ) : components (u ++ [slash]) = components u := by
  rw [components_append, components_nil, List.append_nil]

/-- `namei` finds the inode at the end of the path and `nameiparent` the directory of its last
element: from the start of the path along its elements in the directories as `dirlookup` shows
them. More slashes change nothing, and a call leaves one reference behind or none. -/
theorem path_resolution (sb : Superblock) (i : ℕ) (g : Store) (hrest : g.Resting)
    (look : ℕ → List ℕ → Option ℕ) (path : List ℕ) (n : ℕ) (hstart : g.StartsAt i path n)
    (hway : g.Way sb i look n (components path)) :
    (∀ r g', (namei sb path).exec (Store.perform i) g = some (r, g') →
      (r.map fun e => (g'.kernel.inode e).inum) = walk (g.IsDir sb) look n (components path) ∧
      Neutral g g' r) ∧
    (∀ r g', (nameiparent sb path).exec (Store.perform i) g = some (r, g') →
      (r.map fun x => ((g'.kernel.inode x.1).inum, x.2)) =
        Walk.parent (g.IsDir sb) look n (components path) ∧ Neutral g g' (r.map Prod.fst)) ∧
    (g.Room → ∃ r g' r' g'', (namei sb path).exec (Store.perform i) g = some (r, g') ∧
      (nameiparent sb path).exec (Store.perform i) g = some (r', g'')) ∧
    (∀ u v, path = u ++ slash :: v → namei sb (u ++ slash :: slash :: v) = namei sb path ∧
      nameiparent sb (u ++ slash :: slash :: v) = nameiparent sb path) ∧
    (path ≠ [] → namei sb (path ++ [slash]) = namei sb path ∧
      nameiparent sb (path ++ [slash]) = nameiparent sb path) := by
  have hrun := namex_spec hrest hstart hway
  have hsame {path' : List ℕ} (hhead : path'.head? = some slash ↔ path.head? = some slash)
      (hnames : components path' = components path) : namei sb path' = namei sb path ∧
        nameiparent sb path' = nameiparent sb path := by
    have hnamex (parent : Bool) : namex sb path' parent = namex sb path parent :=
      namex_congr hhead hnames
    unfold namei nameiparent
    rw [hnamex, hnamex]
    exact ⟨rfl, rfl⟩
  refine ⟨fun r g' hnamei => ?_, fun r g' hparent => ?_, fun hroom => ?_, fun u v hpath => ?_,
    fun hne => ?_⟩
  · obtain ⟨x, g₁, hx, hend⟩ := exec_bind_eq_some.mp hnamei
    rcases hrun false with ⟨r', g'', hexec, h, hgoal⟩ | ⟨hnone, -⟩
    · rw [hexec] at hx
      cases hx
      cases hend
      refine ⟨?_, ?_⟩
      · have hnum := congrArg (Option.map Prod.fst) hgoal
        simp only [goal, Bool.false_eq_true, if_false, Option.map_map, Function.comp_def] at hnum
        simpa [Function.comp_def] using hnum
      · refine Walks.neutral sb hrest ?_
        rw [Option.toList_map]
        exact h
    · rw [hnone] at hx
      cases hx
  · rcases hrun true with ⟨r', g'', hexec, h, hgoal⟩ | ⟨hnone, -⟩
    · have heq := hparent.symm.trans hexec
      cases heq
      refine ⟨hgoal, Walks.neutral sb hrest ?_⟩
      rw [Option.toList_map]
      exact h
    · cases hparent.symm.trans hnone
  · rcases hrun false with ⟨r, g', hexec, -, -⟩ | ⟨-, hno⟩
    · rcases hrun true with ⟨r', g'', hexec', -, -⟩ | ⟨-, hno⟩
      · exact ⟨_, g', r', g'', exec_bind_eq_some.mpr ⟨r, g', hexec, rfl⟩, hexec'⟩
      · exact absurd hroom hno
    · exact absurd hroom hno
  · subst hpath
    refine hsame ?_ (components_double_slash u v)
    cases u <;> simp
  · refine hsame ?_ (components_trailing_slash path)
    cases path with
    | nil => exact absurd rfl hne
    | cons a path => simp

/-- A root directory with one entry: block 1059 says that `a` is inode 5, which is a file. -/
def oneEntryDisk : Store where
  block _ b :=
    if b = 2 then fun x => if x = 64 ∨ x = 70 then 1 else if x = 72 then 16 else if x = 76 then 35
      else if x = 77 then 4 else if x = 320 then 2 else if x = 326 then 1 else 0
    else if b = 1059 then fun x => if x = 0 then 5 else if x = 2 then 97 else 0
    else fun _ => 0
  disk _ := fun _ => 0
  held := []
  kernel := bootKernel
  oracle _ := answers [] fun _ => 0

theorem oneEntryDisk_ref (e : ℕ) :
    (oneEntryDisk.kernel.inode e).ref = if e = 0 then 1 else 0 := by
  simp only [oneEntryDisk, bootKernel]
  split_ifs <;> rfl

theorem oneEntryDisk_resting : oneEntryDisk.Resting := by
  have hfirst (e : ℕ) (h : 0 < (oneEntryDisk.kernel.inode e).ref) : e = 0 := by
    by_contra hne
    rw [oneEntryDisk_ref, if_neg hne] at h
    exact absurd h (lt_irrefl 0)
  constructor
  case held => rfl
  case itable => rfl
  case holder => exact fun _ => rfl
  case ref =>
    intro e
    rw [oneEntryDisk_ref]
    split_ifs <;> decide
  case unique =>
    intro e _ e' _ h h' _ _
    rw [hfirst e h, hfirst e' h']

theorem oneEntryDisk_root : oneEntryDisk.inodeOf Fs.mkfsSb 1 = oneEntryDisk.dinode Fs.mkfsSb ROOTDEV 1 :=
  rfl

theorem oneEntryDisk_answers {look : ℕ → List ℕ → Option ℕ} (h : look 1 [97] = some 5) :
    oneEntryDisk.Answers Fs.mkfsSb 0 look 1 [97] := by
  intro s dp hblock hheld _ hdev _ hcopy
  rw [oneEntryDisk_root] at hcopy
  have hsize : (s.kernel.inode dp).copy.size = 16 := by
    rw [hcopy]
    decide
  have haddr : s.addr dp (0 / DPB) = 1059 := by
    unfold Store.addr
    rw [if_pos (by decide), hcopy]
    decide
  have hread : s.Readable dp 0 := ⟨by omega, by decide, by rw [haddr]; decide⟩
  have hinum : direntInum (s.slot dp 0) = 5 := by
    rw [Store.direntInum_slot, haddr, hdev, hblock]
    decide
  have hname (b : ℕ × ℕ) : namecmp [97] (s.slot dp 0) b = 0 := by
    rw [namecmp_eq_zero, agree_short (by decide) (by decide)]
    intro x hx
    have hx' : x ≤ 1 := hx
    rw [Store.nameField_slot (hx'.trans_lt (by decide)), haddr, hdev, hblock]
    interval_cases x <;> decide
  obtain ⟨k, hk⟩ := exec_dirlookup_some Fs.mkfsSb 0 [97] (k := 0) (by rw [hcopy]; decide)
    (hheld.trans rfl) (by omega) (fun j hj => by rwa [Nat.le_zero.mp hj])
    (fun j hj => absurd hj (Nat.not_lt_zero j)) (by rw [hinum]; decide) hname
  rw [hdev, hinum] at hk
  rw [h]
  exact ⟨k, hk⟩

theorem oneEntryDisk_linked : oneEntryDisk.Linked Fs.mkfsSb 1 ∧ oneEntryDisk.Linked Fs.mkfsSb 5 := by
  have hfile : oneEntryDisk.inodeOf Fs.mkfsSb 5 = oneEntryDisk.dinode Fs.mkfsSb ROOTDEV 5 := rfl
  refine ⟨⟨?_, ?_⟩, ?_, ?_⟩
  · rw [oneEntryDisk_root]
    decide
  · rw [oneEntryDisk_root]
    decide
  · rw [hfile]
    decide
  · rw [hfile]
    decide

theorem oneEntryDisk_isDir :
    oneEntryDisk.IsDir Fs.mkfsSb 1 ∧ ¬ oneEntryDisk.IsDir Fs.mkfsSb 5 := by
  have hfile : oneEntryDisk.inodeOf Fs.mkfsSb 5 = oneEntryDisk.dinode Fs.mkfsSb ROOTDEV 5 := rfl
  unfold Store.IsDir
  rw [oneEntryDisk_root, hfile]
  decide

/-- `/a` leads to inode 5 and `/a/b` to nothing, for `a` is no directory. -/
theorem path_resolution_root : ∃ r g' r' g'',
    (namei Fs.mkfsSb [slash, 97]).exec (Store.perform 0) oneEntryDisk = some (r, g') ∧
      (r.map fun e => (g'.kernel.inode e).inum) = some 5 ∧ Neutral oneEntryDisk g' r ∧
    (namei Fs.mkfsSb [slash, 97, slash, 98]).exec (Store.perform 0) oneEntryDisk = some (r', g'') ∧
      r' = none ∧ Neutral oneEntryDisk g'' r' := by
  obtain ⟨look, hlook⟩ : ∃ look : ℕ → List ℕ → Option ℕ, look = fun _ _ => some 5 := ⟨_, rfl⟩
  obtain ⟨hdir, hfile⟩ := oneEntryDisk_isDir
  have hstep : step (oneEntryDisk.IsDir Fs.mkfsSb) look 1 [97] = some 5 := by
    rw [step, if_pos hdir, hlook]
  have hway {names : List (List ℕ)} (hnames : names = [[97]] ∨ names = [[97], [98]]) :
      oneEntryDisk.Way Fs.mkfsSb 0 look 1 names := by
    refine ⟨oneEntryDisk_linked.1, ?_⟩
    rintro p x ⟨ys, zs, hsplit, hwalk⟩
    match ys with
    | [] =>
      cases hwalk
      have hx : x = [97] := by
        rcases hnames with rfl | rfl
        · exact (List.cons.inj hsplit).1.symm
        · exact (List.cons.inj hsplit).1.symm
      exact ⟨oneEntryDisk_linked.1, fun _ => hx ▸ oneEntryDisk_answers (by rw [hlook])⟩
    | [y] =>
      have hy : y = [97] := by
        rcases hnames with rfl | rfl
        · exact (List.cons.inj hsplit).1.symm
        · exact (List.cons.inj hsplit).1.symm
      rw [hy, walk, hstep] at hwalk
      cases hwalk
      exact ⟨oneEntryDisk_linked.2, fun h => absurd h hfile⟩
    | _ :: _ :: _ =>
      rcases hnames with rfl | rfl <;> simp at hsplit
  have hroom : oneEntryDisk.Room := ⟨1, by decide, 2, by decide, by decide, rfl, rfl⟩
  have hone : components [slash, 97] = [[97]] := by decide
  have htwo : components [slash, 97, slash, 98] = [[97], [98]] := by decide
  obtain ⟨hfound, -, hreturns, -, -⟩ := path_resolution Fs.mkfsSb 0 oneEntryDisk
    oneEntryDisk_resting look [slash, 97] 1 rfl (hway (.inl hone))
  obtain ⟨hfound', -, hreturns', -, -⟩ := path_resolution Fs.mkfsSb 0 oneEntryDisk
    oneEntryDisk_resting look [slash, 97, slash, 98] 1 rfl (hway (.inr htwo))
  obtain ⟨r, g', -, -, hexec, -⟩ := hreturns hroom
  obtain ⟨r', g'', -, -, hexec', -⟩ := hreturns' hroom
  obtain ⟨hgoal, hneutral⟩ := hfound r g' hexec
  obtain ⟨hgoal', hneutral'⟩ := hfound' r' g'' hexec'
  refine ⟨r, g', r', g'', hexec, hgoal.trans ?_, hneutral, hexec', ?_, hneutral'⟩
  · rw [hone, walk, hstep]
    rfl
  · rw [htwo, walk, hstep] at hgoal'
    have hmissing : step (oneEntryDisk.IsDir Fs.mkfsSb) look 5 [98] = none := if_neg hfile
    rw [Option.bind_some, walk, hmissing] at hgoal'
    exact Option.map_eq_none_iff.mp hgoal'

end Zrhos.Sysfile
