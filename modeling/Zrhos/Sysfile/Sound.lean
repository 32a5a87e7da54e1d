import Zrhos.Sysfile.Refs

/-! Every operation keeps the counts, does to its caller what the contract says and leaves
what other calls own alone. -/
namespace Zrhos.Sysfile
open Turns Tally
open Mmap (upTo mem_upTo)

structure Sound (strict : Prop) (K : Kernel) (i : ℕ) (o : Op) (r : o.Resp) (K' : Kernel) :
    Prop where
  counted : Counted K'
  leaves : Leaves strict o (view K i) r (view K' i)
  others : ∀ j, j ≠ i → view K' j = view K j

variable {K K' : Kernel} {i t e f fd n : ℕ} {T : Task} {strict : Prop}

/-! ### Inodes -/

theorem igetEntry_spec {table : ℕ → Inode} {dev inum : ℕ} {r : ℕ × Inode}
    (h : igetEntry table dev inum = some r) : r.2.ref = (table r.1).ref + 1 ∧
      (0 < (table r.1).ref → (table r.1).dev = dev ∧ (table r.1).inum = inum) := by
  unfold igetEntry at h
  split at h
  case _ e hfind =>
    cases h
    have hp := List.find?_some hfind
    simp only [decide_eq_true_eq] at hp
    exact ⟨rfl, fun _ => hp.2⟩
  case _ hfind =>
    split at h
    case _ e hfind' =>
      cases h
      have hp := List.find?_some hfind'
      simp only [decide_eq_true_eq] at hp
      refine ⟨?_, fun hpos => ?_⟩
      · dsimp only
        omega
      · dsimp only at hpos
        omega
    case _ => cases h

theorem view_setHand : view (K.setHand i e n) i =
    { view K i with hand := Function.update (K.hand i) e n } := by
  simp only [view, Kernel.setHand, Function.update_self]
  rfl

theorem view_setHand_of_ne {j : ℕ} (hj : j ≠ i) : view (K.setHand i e n) j = view K j :=
  view_congr (fun _ => Iff.rfl) (Function.update_of_ne hj _ _) Iff.rfl Iff.rfl rfl rfl
    fun _ _ => rfl

/-- What a call has in hand of one entry changes with the count of the entry. -/
theorem Counted.handed (h : Counted K) (hi : i < NTASK) {inode : ℕ → Inode} {lost : ℕ → ℕ}
    (hother : ∀ d, d ≠ e → (inode d).ref = (K.inode d).ref ∧ lost d = K.lost d)
    (hself : (inode e).ref + (K.hand i e + K.lost e : ℕ) = (K.inode e).ref + (n + lost e : ℕ)) :
    Counted ({ K with
      inode := inode
      lost := lost }.setHand i e n) := by
  refine h.withInodes rfl rfl rfl rfl fun d => ?_
  have hhand : handsOn ({ K with
      inode := inode
      lost := lost }.setHand i e n) d + (if d = e then K.hand i e else 0) =
        handsOn K d + if d = e then n else 0 :=
    handsOn_setHand hi d
  have hinode : ({ K with
      inode := inode
      lost := lost }.setHand i e n).inode d = inode d := rfl
  have hlost : ({ K with
      inode := inode
      lost := lost }.setHand i e n).lost d = lost d := rfl
  rw [hinode, hlost]
  by_cases hd : d = e
  · subst hd
    simp only [↓reduceIte] at hhand
    push_cast at hself ⊢
    omega
  · simp only [hd, ↓reduceIte, Nat.add_zero] at hhand
    rw [hhand, (hother d hd).1, (hother d hd).2]

/-- A reference taken into the hand of a call. -/
theorem Counted.gain (h : Counted K) (hi : i < NTASK) {ip : Inode}
    (hip : ip.ref = (K.inode e).ref + 1) :
    Counted ((K.setInode e ip).setHand i e (K.hand i e + 1)) := by
  refine h.handed hi (fun d hd => ⟨?_, rfl⟩) ?_
  · rw [Function.update_of_ne hd]
  · rw [Function.update_self, hip]
    push_cast
    ring

/-- A reference dropped from the hand of a call. -/
theorem Counted.drop (h : Counted K) (hi : i < NTASK) (hpos : 0 < K.hand i e) :
    Counted ((K.addRef e (-1)).setHand i e (K.hand i e - 1)) := by
  refine h.handed hi (fun d hd => ⟨?_, rfl⟩) ?_
  · rw [Function.update_of_ne hd]
  · rw [Function.update_self]
    dsimp only
    omega

theorem Counted.forget (h : Counted K) (hi : i < NTASK) (hpos : 0 < K.hand i e) :
    Counted ((K.forget e).setHand i e (K.hand i e - 1)) := by
  refine h.handed hi (fun d hd => ⟨rfl, ?_⟩) ?_
  · rw [Function.update_of_ne hd]
  · rw [Function.update_self]
    omega

theorem Counted.hand_le (h : Counted K) (hi : i < NTASK) : (K.hand i e : ℤ) ≤ (K.inode e).ref := by
  have hle : K.hand i e ≤ handsOn K e :=
    Finset.single_le_sum (f := fun j => K.hand j e) (fun _ _ => Nat.zero_le _) (mem_upTo hi)
  have href := h.inode_ref e
  unfold references at href
  push_cast at href
  omega

/-- Where an operation of a task only changes locks, both sides of the counts stay. -/
theorem Counted.withLocks (h : Counted K) {holder : ℕ → Option ℕ} {itable : Option ℕ} :
    Counted { K with
      holder := holder
      itable := itable } :=
  h.withInodes rfl rfl rfl rfl fun _ => rfl

theorem sound_P (h : Counted K) (hfree : K.holder e = none) :
    Sound strict K i (.P (.inode e)) ()
      { K with holder := Function.update K.holder e (some i) } := by
  refine ⟨h.withLocks, ⟨?_, ?_⟩, fun j hj => ?_⟩
  · simp [view, hfree]
  · have hheld : { d | Function.update K.holder e (some i) d = some i } =
        insert e { d | K.holder d = some i } := by
      ext d
      by_cases hd : d = e
      · subst hd
        simp
      · simp [hd]
    simp only [view, hheld]
  · refine view_congr (fun d => ?_) rfl Iff.rfl Iff.rfl rfl rfl fun _ _ => rfl
    by_cases hd : d = e
    · subst hd
      simp [hfree, hj.symm]
    · simp [hd]

theorem sound_V (h : Counted K) (hheld : K.holder e = some i) :
    Sound strict K i (.V (.inode e)) () { K with holder := Function.update K.holder e none } := by
  refine ⟨h.withLocks, ?_, fun j hj => ?_⟩
  · have hset : { d | Function.update K.holder e none d = some i } =
        { d | K.holder d = some i } \ {e} := by
      ext d
      by_cases hd : d = e
      · subst hd
        simp
      · simp [hd]
    simp only [Leaves, view, hset]
  · refine view_congr (fun d => ?_) rfl Iff.rfl Iff.rfl rfl rfl fun _ _ => rfl
    by_cases hd : d = e
    · subst hd
      simp [hheld, hj.symm]
    · simp [hd]

theorem sound_iputLast (h : Counted K) (hfree : K.itable = none) (hs : ¬ strict) :
    Sound strict K i (.iput e) true { K with itable := some i } := by
  refine ⟨h.withLocks, ⟨hs, ?_⟩, fun j hj => ?_⟩
  · simp [view]
  · exact view_congr (fun _ => Iff.rfl) rfl (by simp [hfree, hj.symm]) Iff.rfl rfl rfl fun _ _ => rfl

theorem sound_itableUnlock (h : Counted K) (hheld : K.itable = some i) :
    Sound strict K i .itableUnlock () { K with itable := none } := by
  refine ⟨h.withLocks, ?_, fun j hj => ?_⟩
  · simp [Leaves, view]
  · exact view_congr (fun _ => Iff.rfl) rfl (by simp [hheld, hj.symm]) Iff.rfl rfl rfl fun _ _ => rfl

/-- The common part of `iget`, `ialloc` and `idup`. -/
theorem gain_view {ip : Inode} :
    view ((K.setInode e ip).setHand i e (K.hand i e + 1)) i = (view K i).add e ∧
      ∀ j, j ≠ i → view ((K.setInode e ip).setHand i e (K.hand i e + 1)) j = view K j :=
  ⟨view_setHand, fun _ hj => view_setHand_of_ne hj⟩

theorem sound_iget (h : Counted K) (hi : i < NTASK) {dev inum : ℕ} {r : ℕ × Inode}
    (hr : igetEntry K.inode dev inum = some r) :
    Sound strict K i (.iget dev inum) r.1
      ((K.setInode r.1 r.2).setHand i r.1 (K.hand i r.1 + 1)) :=
  ⟨h.gain hi (igetEntry_spec hr).1, gain_view.1, gain_view.2⟩

/-- A free inode on disk that is not one of those the caller has locked gets an entry other
than theirs. -/
theorem sound_inew (h : Counted K) (hi : i < NTASK) {dev inum : ℕ} {type : ℤ} {r : ℕ × Inode}
    (hr : igetEntry K.inode dev inum = some r)
    (hnew : strict → ∀ d, K.holder d = some i → ¬ ((K.inode d).dev = dev ∧ (K.inode d).inum = inum)) :
    Sound strict K i (.inew dev inum type) r.1
      ((K.setInode r.1 { r.2 with copy := { r.2.copy with type := type } }).setHand i r.1
        (K.hand i r.1 + 1)) := by
  obtain ⟨href, hsame⟩ := igetEntry_spec hr
  refine ⟨h.gain hi href, ⟨fun hs d hd hpos hrd => ?_, gain_view.1⟩, gain_view.2⟩
  have hle := h.hand_le (e := d) hi
  have hhand : 0 < K.hand i d := hpos
  rw [hrd] at hsame
  exact hnew hs d hd (hsame (by omega))

theorem sound_idup (h : Counted K) (hi : i < NTASK) :
    Sound strict K i (.idup e) () ((K.addRef e 1).setHand i e (K.hand i e + 1)) :=
  ⟨h.gain hi rfl, gain_view.1, gain_view.2⟩

theorem sound_iput (h : Counted K) (hi : i < NTASK) (hpos : 0 < K.hand i e) :
    Sound strict K i (.iput e) false ((K.addRef e (-1)).setHand i e (K.hand i e - 1)) :=
  ⟨h.drop hi hpos, view_setHand, fun _ hj => view_setHand_of_ne hj⟩

theorem sound_entryExist (h : Counted K) (hi : i < NTASK) (hpos : 0 < K.hand i e) :
    Sound strict K i (.entryExist e) () ((K.forget e).setHand i e (K.hand i e - 1)) :=
  ⟨h.forget hi hpos, view_setHand, fun _ hj => view_setHand_of_ne hj⟩

theorem Counted.setInode (h : Counted K) {ip : Inode} (hip : ip.ref = (K.inode e).ref) :
    Counted (K.setInode e ip) := by
  refine h.withInodes rfl rfl rfl rfl fun d => ?_
  have href : ((K.setInode e ip).inode d).ref = (K.inode d).ref := by
    by_cases hd : d = e
    · subst hd
      simp [Kernel.setInode, hip]
    · simp [Kernel.setInode, hd]
  rw [href]
  rfl

end Zrhos.Sysfile
