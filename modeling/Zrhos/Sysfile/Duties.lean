import Zrhos.Sysfile.Refs

/-! Every function of the inode layer and every system call keeps to the contract of the
operations. A call starts and ends with nothing in hand. -/
namespace Zrhos.Sysfile
open Turns
open Fs (Block Superblock)

variable {sb : Superblock} {strict : Prop} {g : View} {e d : ℕ} {α : Type}

/-! ### Views -/

def View.lock (g : View) (e : ℕ) : View := { g with held := insert e g.held }

def View.unlock (g : View) (e : ℕ) : View := { g with held := g.held \ {e} }

theorem View.unlock_lock (he : e ∉ g.held) : (g.lock e).unlock e = g := by
  simp [View.lock, View.unlock, he]

theorem View.lock_unlock_of_ne (hne : e ≠ d) : (g.lock e).unlock d = (g.unlock d).lock e := by
  have hheld : insert e g.held \ {d} = insert e (g.held \ {d}) :=
    Set.insert_sdiff_of_notMem _ (by simpa using hne)
  simp only [View.lock, View.unlock, hheld]

theorem View.add_sub : (g.add e).sub e = g := by
  simp [View.add, View.sub]

theorem View.add_add_sub : ((g.add e).add d).sub e = g.add d := by
  by_cases h : d = e
  · subst h
    simp [View.add, View.sub]
  · simp [View.add, View.sub, h, Ne.symm h, Function.update_comm h]

theorem View.add_pos : 0 < (g.add e).hand e := by
  simp [View.add]

theorem View.le_add (a : ℕ) : g.hand a ≤ (g.add e).hand a := by
  by_cases h : a = e
  · subst h
    simp [View.add]
  · simp [View.add, h]

/-! ### Blocks and inodes -/

section Inodes

variable {p : FsM α} {Q : α → View → Prop}

theorem quiet_duty (h : p.Uses Op.Quiet) (hg : g.itable = false) (hQ : ∀ a, Q a g) :
    Safe (duty strict) p g Q := by
  refine h.safe (fun o ho => ?_) hQ
  cases o <;> first
    | exact ho.elim
    | exact ⟨trivial, fun _ _ h' => h'⟩
    | exact ⟨fun _ => hg, fun _ _ h' => h'⟩

variable {R : Unit → View → Prop}

theorem P_duty (hg : strict → e ∉ g.held ∧ g.itable = false) (hR : e ∉ g.held → R () (g.lock e)) :
    Safe (duty strict) (call (.P (.inode e))) g R := by
  refine ⟨hg, fun _ g' hg' => ?_⟩
  obtain ⟨hfree, rfl⟩ := hg'
  exact hR hfree

theorem ilock_duty (hfree : strict → e ∉ g.held) (hg : g.itable = false)
    (hR : e ∉ g.held → R () (g.lock e)) : Safe (duty strict) (ilock sb e) g R := by
  unfold ilock
  simp only [safe_bind]
  refine quiet_duty (by simp [Op.Quiet]) hg fun ip => ?_
  split_ifs
  · exact safe_panic.mpr trivial
  · simp only [safe_bind]
    refine P_duty (fun hs => ⟨hfree hs, hg⟩) fun he => ?_
    refine quiet_duty (by simp [Op.Quiet]) hg fun ip => ?_
    exact quiet_duty (by simp [Op.Quiet]) hg fun _ => hR he

theorem iunlock_duty (he : e ∈ g.held) (hR : R () (g.unlock e)) :
    Safe (duty strict) (iunlock e) g R := by
  refine ⟨he, fun _ g' hg' => ?_⟩
  cases hg'
  exact hR

/-- `itrunc` does not get past its first operation when the caller holds the inode. -/
theorem itrunc_duty (hs : ¬ strict) (he : e ∈ g.held) : Safe (duty strict) (itrunc sb e) g R := by
  unfold itrunc
  simp only [safe_bind]
  exact P_duty (fun h => absurd h hs) fun hfree => absurd he hfree

theorem iput_duty (hpos : 0 < g.hand e) (hR : R () (g.sub e)) :
    Safe (duty strict) (iput sb e) g R := by
  unfold iput
  simp only [safe_bind]
  refine safe_call.mpr ⟨hpos, fun last g' hg' => ?_⟩
  cases last with
  | false =>
    have hsub : g' = g.sub e := by simpa [duty, Leaves] using hg'
    subst hsub
    exact hR
  | true =>
    obtain ⟨hs, rfl⟩ : ¬ strict ∧ g' = { g with itable := true } := by
      simpa [duty, Leaves] using hg'
    simp only [↓reduceIte, safe_bind]
    refine P_duty (fun h => absurd h hs) fun _ => itrunc_duty hs ?_
    exact Set.mem_insert e g.held

theorem iunlockput_duty (he : e ∈ g.held) (hpos : 0 < g.hand e) (hR : R () ((g.unlock e).sub e)) :
    Safe (duty strict) (iunlockput sb e) g R := by
  unfold iunlockput
  simp only [safe_bind]
  exact iunlock_duty he (iput_duty hpos hR)

/-- The caller gives up an inode that it has locked, with its reference. -/
theorem release_duty (he : e ∉ g.held) (hR : R () g) :
    Safe (duty strict) (iunlockput sb e) ((g.add e).lock e) R := by
  refine iunlockput_duty (Set.mem_insert e g.held) View.add_pos ?_
  have hview : (((g.add e).lock e).unlock e).sub e = g := by
    rw [View.unlock_lock (g := g.add e) he, View.add_sub]
  rwa [hview]

end Inodes

/-! ### Directories and paths -/

/-- What a lookup leaves: one more reference if it finds something. -/
def Found (g : View) : Option ℕ → View → Prop
  | none, g' => g' = g
  | some e, g' => g' = g.add e

theorem dirlookupLoop_duty {dp dev n off : ℕ} {name : List ℕ} (hg : g.itable = false) :
    Safe (duty strict) (dirlookupLoop sb dp dev name n off) g (Found g) := by
  induction n generalizing off with
  | zero => exact rfl
  | succ n ih =>
    unfold dirlookupLoop
    simp only [safe_bind]
    refine quiet_duty (by simp) hg fun de => ?_
    split_ifs
    · exact safe_panic.mpr trivial
    · exact ih
    · simp only [safe_bind]
      refine quiet_duty (by simp [Op.Quiet]) hg fun beyond => ?_
      split_ifs
      · simp only [safe_bind]
        exact safe_call.mpr ⟨trivial, fun r g' hg' => hg'⟩
      · exact ih

theorem dirlookup_duty {dp : ℕ} {name : List ℕ} (hg : g.itable = false) :
    Safe (duty strict) (dirlookup sb dp name) g (Found g) := by
  unfold dirlookup
  simp only [safe_bind]
  refine quiet_duty (by simp [Op.Quiet]) hg fun ip => ?_
  split_ifs
  · exact safe_panic.mpr trivial
  · exact dirlookupLoop_duty hg

/-- `dirlink` drops the reference to an entry that it finds. -/
theorem dirlink_duty {dp inum : ℕ} {name : List ℕ} (hg : g.itable = false) :
    Safe (duty strict) (dirlink sb dp name inum) g fun _ g' => g' = g := by
  unfold dirlink
  simp only [safe_bind]
  refine quiet_duty (by simp [Op.Quiet]) hg fun ip => ?_
  split_ifs
  · exact safe_panic.mpr trivial
  · simp only [safe_bind]
    refine (dirlookup_duty hg).mono fun old g' hg' => ?_
    cases old with
    | none =>
      cases hg'
      exact quiet_duty dirlinkLoop_quiet hg fun _ => rfl
    | some e =>
      cases hg'
      simp only [safe_bind]
      refine safe_call.mpr ⟨View.add_pos, fun _ g' hg' => ?_⟩
      exact Eq.trans hg' View.add_sub

theorem startDir_duty {path : List ℕ} :
    Safe (duty strict) (startDir path) g fun e g' => g' = g.add e := by
  unfold startDir
  split_ifs
  · exact safe_call.mpr ⟨trivial, fun e g' hg' => hg'⟩
  · simp only [safe_bind]
    refine safe_call.mpr ⟨trivial, fun cwd g' hg' => ?_⟩
    cases hg'
    cases cwd with
    | none => exact safe_panic.mpr trivial
    | some e =>
      simp only [safe_bind]
      exact safe_call.mpr ⟨trivial, fun _ g' hg' => hg'⟩

theorem namexLoop_duty {parent : Bool} {path : List (List ℕ × List ℕ)} {ip : ℕ}
    (hg : g.itable = false) (hfree : strict → g.held = ∅) :
    Safe (duty strict) (namexLoop sb parent path ip) (g.add ip)
      fun r => Found g (r.map Prod.fst) := by
  induction path generalizing ip with
  | nil =>
    unfold namexLoop
    split_ifs
    · simp only [safe_bind]
      exact iput_duty View.add_pos View.add_sub
    · exact rfl
  | cons elem path ih =>
    obtain ⟨name, rest⟩ := elem
    unfold namexLoop
    simp only [safe_bind]
    refine ilock_duty (fun hs => by simp [View.add, hfree hs]) hg fun hip => ?_
    have hnot : ip ∉ g.held := hip
    refine quiet_duty (by simp [Op.Quiet]) hg fun ino => ?_
    split_ifs
    · simp only [safe_bind]
      exact release_duty hnot rfl
    · simp only [safe_bind]
      exact iunlock_duty (Set.mem_insert ip _) (View.unlock_lock hip)
    · simp only [safe_bind]
      refine (dirlookup_duty (g := (g.add ip).lock ip) hg).mono fun next g' hg' => ?_
      cases next with
      | none =>
        cases hg'
        simp only [safe_bind]
        exact release_duty hnot rfl
      | some next =>
        cases hg'
        simp only [safe_bind]
        have hview : (((((g.add ip).lock ip).add next).unlock ip).sub ip) = g.add next := by
          have hun : (((g.add ip).lock ip).add next).unlock ip = (g.add ip).add next :=
            View.unlock_lock (g := (g.add ip).add next) hnot
          rw [hun, View.add_add_sub]
        refine iunlockput_duty (Set.mem_insert ip _) ?_ ?_
        · exact lt_of_lt_of_le View.add_pos (View.le_add (g := (g.add ip).lock ip) ip)
        · rw [hview]
          exact ih

theorem namex_duty {path : List ℕ} {parent : Bool} (hg : g.itable = false)
    (hfree : strict → g.held = ∅) :
    Safe (duty strict) (namex sb path parent) g fun r => Found g (r.map Prod.fst) := by
  unfold namex
  simp only [safe_bind]
  refine startDir_duty.mono fun e g' hg' => ?_
  cases hg'
  exact namexLoop_duty hg hfree

theorem namei_duty {path : List ℕ} (hg : g.itable = false) (hfree : strict → g.held = ∅) :
    Safe (duty strict) (namei sb path) g (Found g) := by
  unfold namei
  simp only [safe_bind]
  exact namex_duty hg hfree

/-- What `ialloc` leaves: a new inode is not one that the caller has locked. -/
def Fresh (strict : Prop) (g : View) : Option ℕ → View → Prop
  | none, g' => g' = g
  | some e, g' => (strict → ∀ d ∈ g.held, 0 < g.hand d → e ≠ d) ∧ g' = g.add e

theorem iallocLoop_duty {dev n i : ℕ} {type : ℤ} {b : Option (ℕ × Block)}
    (hg : g.itable = false) :
    Safe (duty strict) (iallocLoop sb dev type n i b) g (Fresh strict g) := by
  induction n generalizing i b with
  | zero => exact rfl
  | succ n ih =>
    unfold iallocLoop
    simp only [safe_bind]
    refine quiet_duty nextBuf_quiet hg fun b => ?_
    split_ifs
    · simp only [safe_bind]
      refine safe_call.mpr ⟨trivial, fun e g' hg' => ?_⟩
      obtain ⟨hnew, rfl⟩ := hg'
      exact quiet_duty (by simp [Op.Quiet]) hg fun _ => ⟨hnew, rfl⟩
    · exact ih

/-! ### open -/

/-- What `create` and the lookup of `sys_open` leave: a locked inode. -/
def Locked (g : View) : Option ℕ → View → Prop
  | none, g' => g' = g
  | some e, g' => g' = (g.add e).lock e

theorem createFail_duty {dp ip : ℕ} (hg : g.itable = false) (hdp : dp ∉ g.held)
    (hip : ip ∉ g.held) (hne : ip ≠ dp) :
    Safe (duty strict) (createFail sb dp ip) ((((g.add dp).lock dp).add ip).lock ip)
      (Locked g) := by
  unfold createFail
  simp only [safe_bind]
  refine quiet_duty (by simp) hg fun _ => quiet_duty (by simp) hg fun _ => ?_
  refine release_duty (g := (g.add dp).lock dp) ?_ (release_duty hdp rfl)
  simp [View.lock, View.add, hip, hne]

theorem linkDots_duty {ip inum parent : ℕ} (hg : g.itable = false) :
    Safe (duty strict) (linkDots sb ip inum parent) g fun _ g' => g' = g := by
  unfold linkDots
  simp only [safe_bind]
  refine (dirlink_duty hg).mono fun r g' hg' => ?_
  cases hg'
  split_ifs
  · exact rfl
  · simp only [safe_bind]
    exact dirlink_duty hg

theorem createLink_duty {dp ip inum : ℕ} {name : List ℕ} {type : ℤ} {dots : Bool}
    (hg : g.itable = false) (hdp : dp ∉ g.held) (hip : ip ∉ g.held) (hne : ip ≠ dp) :
    Safe (duty strict) (createLink sb dp name ip inum type dots)
      ((((g.add dp).lock dp).add ip).lock ip) (Locked g) := by
  unfold createLink
  split_ifs
  · exact createFail_duty hg hdp hip hne
  · simp only [safe_bind]
    refine (dirlink_duty (g := (((g.add dp).lock dp).add ip).lock ip) hg).mono fun r g' hg' => ?_
    cases hg'
    split_ifs
    · exact createFail_duty hg hdp hip hne
    · simp only [safe_bind]
      refine quiet_duty (by simp) hg fun _ => ?_
      have hview : (((((g.add dp).lock dp).add ip).lock ip).unlock dp).sub dp =
          (g.add ip).lock ip := by
        have hun : (((g.add dp).lock dp).add ip).unlock dp = (g.add dp).add ip :=
          View.unlock_lock (g := (g.add dp).add ip) hdp
        rw [View.lock_unlock_of_ne hne, hun]
        exact congrArg (View.lock · ip) View.add_add_sub
      refine iunlockput_duty ?_ ?_ ?_
      · simp [View.lock, View.add]
      · exact lt_of_lt_of_le View.add_pos (View.le_add (g := (g.add dp).lock dp) dp)
      · rw [hview]
        exact rfl

theorem createNew_duty {dp ip : ℕ} {name : List ℕ} {type major minor : ℤ}
    (hg : g.itable = false) (hheld : g.held = ∅) (hne : strict → ip ≠ dp) :
    Safe (duty strict) (createNew sb dp name ip type major minor)
      (((g.add dp).lock dp).add ip) (Locked g) := by
  have hdp : dp ∉ g.held := by simp [hheld]
  have hip : ip ∉ g.held := by simp [hheld]
  unfold createNew
  simp only [safe_bind]
  refine ilock_duty (fun hs => by simp [View.lock, View.add, hheld, hne hs]) hg fun hfree => ?_
  have hipdp : ip ≠ dp := fun h => hfree (h ▸ Set.mem_insert dp g.held)
  refine quiet_duty (by simp) hg fun _ => quiet_duty (by simp) hg fun _ => ?_
  refine quiet_duty (by simp [Op.Quiet]) hg fun ino => ?_
  refine quiet_duty (by simp [Op.Quiet]) hg fun dino => ?_
  split_ifs
  · simp only [safe_bind]
    refine (linkDots_duty (g := (((g.add dp).lock dp).add ip).lock ip) hg).mono fun dots g' hg' => ?_
    cases hg'
    exact createLink_duty hg hdp hip hipdp
  · simp only [safe_bind, safe_pure]
    exact createLink_duty hg hdp hip hipdp

theorem createOld_duty {dp ip : ℕ} {type : ℤ} (hg : g.itable = false) (hheld : g.held = ∅) :
    Safe (duty strict) (createOld sb dp ip type) (((g.add dp).lock dp).add ip) (Locked g) := by
  have hfree (x : ℕ) : x ∉ g.held := by simp [hheld]
  unfold createOld
  simp only [safe_bind]
  have hview : ((((g.add dp).lock dp).add ip).unlock dp).sub dp = g.add ip := by
    have hun : (((g.add dp).lock dp).add ip).unlock dp = (g.add dp).add ip :=
      View.unlock_lock (g := (g.add dp).add ip) (hfree dp)
    rw [hun, View.add_add_sub]
  refine iunlockput_duty (Set.mem_insert dp _) ?_ ?_
  · exact lt_of_lt_of_le View.add_pos (View.le_add (g := (g.add dp).lock dp) dp)
  · rw [hview]
    refine ilock_duty (fun _ => hfree ip) hg fun _ => ?_
    refine quiet_duty (by simp [Op.Quiet]) hg fun ino => ?_
    split_ifs
    · exact rfl
    · simp only [safe_bind]
      exact release_duty (hfree ip) rfl

theorem create_duty {path : List ℕ} {type major minor : ℤ} (hg : g.itable = false)
    (hheld : g.held = ∅) :
    Safe (duty strict) (create sb path type major minor) g (Locked g) := by
  have hfree (x : ℕ) : x ∉ g.held := by simp [hheld]
  unfold create nameiparent
  simp only [safe_bind]
  refine (namex_duty hg fun _ => hheld).mono fun r g' hg' => ?_
  cases r with
  | none =>
    cases hg'
    exact rfl
  | some r =>
    obtain ⟨dp, name⟩ := r
    cases hg'
    simp only [safe_bind]
    refine ilock_duty (fun _ => hfree dp) hg fun _ => ?_
    refine (dirlookup_duty (g := (g.add dp).lock dp) hg).mono fun old g' hg' => ?_
    cases old with
    | some ip =>
      cases hg'
      exact createOld_duty hg hheld
    | none =>
      cases hg'
      simp only [safe_bind]
      refine quiet_duty (by simp [Op.Quiet]) hg fun dino => ?_
      unfold ialloc
      refine (iallocLoop_duty (g := (g.add dp).lock dp) hg).mono fun new g' hg' => ?_
      cases new with
      | none =>
        cases hg'
        simp only [safe_bind]
        exact release_duty (hfree dp) rfl
      | some ip =>
        obtain ⟨hnew, rfl⟩ := hg'
        exact createNew_duty hg hheld fun hs => hnew hs dp (Set.mem_insert dp _) View.add_pos

theorem openInode_duty {path : List ℕ} {omode : ℕ} (hg : g.itable = false) (hheld : g.held = ∅) :
    Safe (duty strict) (openInode sb path omode) g (Locked g) := by
  have hfree (x : ℕ) : x ∉ g.held := by simp [hheld]
  unfold openInode
  split_ifs
  · exact create_duty hg hheld
  · simp only [safe_bind]
    refine (namei_duty hg fun _ => hheld).mono fun r g' hg' => ?_
    cases r with
    | none =>
      cases hg'
      exact rfl
    | some ip =>
      cases hg'
      simp only [safe_bind]
      refine ilock_duty (fun _ => hfree ip) hg fun _ => ?_
      refine quiet_duty (by simp [Op.Quiet]) hg fun ino => ?_
      split_ifs
      · simp only [safe_bind]
        exact release_duty (hfree ip) rfl
      · exact rfl

/-! ### The calls -/

/-- At its end a call owns nothing. -/
def Done (_ : ℤ) (g : View) : Prop := g = .rest

/-- An operation that needs nothing and changes nothing. -/
theorem still_duty {o : Op} {Q : o.Resp → View → Prop} (hpre : Asks strict o g)
    (hpost : ∀ r g', Leaves strict o g r g' → g' = g) (hQ : ∀ r, Q r g) :
    Safe (duty strict) (call o) g Q :=
  safe_call.mpr ⟨hpre, fun r g' hg' => (hpost r g' hg').symm ▸ hQ r⟩

theorem openFail_duty {ip : ℕ} :
    Safe (duty strict) (openFail sb ip) ((View.rest.add ip).lock ip) Done := by
  unfold openFail
  simp only [safe_bind]
  refine release_duty (g := .rest) (Set.notMem_empty ip) ?_
  exact still_duty trivial (fun _ _ h => h) fun _ => rfl

theorem openDone_duty {ip omode fd : ℕ} :
    Safe (duty strict) (openDone sb ip omode fd) (View.rest.lock ip) Done := by
  unfold openDone
  simp only [safe_bind]
  refine safe_call.mpr ⟨trivial, fun trunc g' hg' => ?_⟩
  obtain ⟨hstrict, rfl⟩ := hg'
  have htrunc : Safe (duty strict) (when (trunc = true) (itrunc sb ip)) (View.rest.lock ip)
      fun _ g' => g' = View.rest.lock ip := by
    unfold when
    split_ifs with ht
    · exact itrunc_duty (fun hs => absurd (hstrict hs) (by simp [ht])) (Set.mem_insert ip _)
    · exact rfl
  refine htrunc.mono fun _ g' hg' => ?_
  cases hg'
  refine iunlock_duty (Set.mem_insert ip _) ?_
  rw [View.unlock_lock (Set.notMem_empty ip)]
  refine still_duty trivial (fun _ _ h => h) fun _ => ?_
  exact still_duty trivial (fun _ _ h => h) fun _ => rfl

theorem openDescriptor_duty {ip omode : ℕ} :
    Safe (duty strict) (openDescriptor sb ip omode) ((View.rest.add ip).lock ip) Done := by
  unfold openDescriptor
  simp only [safe_bind]
  refine quiet_duty (by simp [Op.Quiet]) rfl fun ino => ?_
  split_ifs
  · exact openFail_duty
  · simp only [safe_bind]
    refine safe_call.mpr ⟨rfl, fun f g' hg' => ?_⟩
    cases f with
    | none =>
      cases hg'
      exact openFail_duty
    | some f =>
      cases hg'
      simp only [safe_bind]
      refine safe_call.mpr ⟨⟨rfl, View.add_pos⟩, fun fd g' hg' => ?_⟩
      cases fd with
      | none =>
        cases hg'
        simp only [safe_bind]
        refine safe_call.mpr ⟨rfl, fun _ g' hg' => ?_⟩
        cases hg'
        exact openFail_duty
      | some fd =>
        cases hg'
        have hview : { ({ (View.rest.add ip).lock ip with alloc := some f } : View).sub ip with
            alloc := none } = View.rest.lock ip :=
          congrArg (View.lock · ip) (View.add_sub (g := .rest))
        rw [hview]
        exact openDone_duty

theorem sysOpen_duty {omode : ℕ} : Safe (duty strict) (sysOpen sb omode) .rest Done := by
  unfold sysOpen
  simp only [safe_bind]
  refine quiet_duty (by simp [Op.Quiet]) rfl fun path => ?_
  cases path with
  | none => exact rfl
  | some path =>
    simp only [safe_bind]
    refine still_duty (fun _ => rfl) (fun _ _ h => h) fun _ => ?_
    refine (openInode_duty rfl rfl).mono fun ip g' hg' => ?_
    cases ip with
    | none =>
      cases hg'
      simp only [safe_bind]
      exact still_duty trivial (fun _ _ h => h) fun _ => rfl
    | some ip =>
      cases hg'
      exact openDescriptor_duty

theorem changeDir_duty {ip : ℕ} :
    Safe (duty strict) (changeDir sb ip) ((View.rest.add ip).lock ip) Done := by
  unfold changeDir
  simp only [safe_bind]
  refine iunlock_duty (Set.mem_insert ip _) ?_
  rw [View.unlock_lock (g := View.rest.add ip) (Set.notMem_empty ip)]
  refine safe_call.mpr ⟨rfl, fun old g' hg' => ?_⟩
  cases old with
  | none =>
    cases hg'
    exact safe_panic.mpr trivial
  | some old =>
    cases hg'
    simp only [safe_bind]
    refine iput_duty View.add_pos ?_
    have hview : ({ (View.rest.add ip).add old with away := true } : View).sub old =
        { View.rest.add ip with away := true } :=
      congrArg (fun g : View => { g with away := true }) (View.add_sub (g := View.rest.add ip))
    rw [hview]
    refine safe_call.mpr ⟨⟨rfl, View.add_pos⟩, fun _ g' hg' => ?_⟩
    have hrest : { ({ View.rest.add ip with away := true } : View).sub ip with away := false } =
        View.rest :=
      congrArg (fun g : View => { g with away := false }) (View.add_sub (g := View.rest))
    have hg'' : g' = View.rest := Eq.trans hg' hrest
    subst hg''
    exact still_duty trivial (fun _ _ h => h) fun _ => rfl

theorem sysChdir_duty : Safe (duty strict) (sysChdir sb) .rest Done := by
  unfold sysChdir
  simp only [safe_bind]
  refine quiet_duty (by simp [Op.Quiet]) rfl fun path => ?_
  cases path with
  | none => exact rfl
  | some path =>
    simp only [safe_bind]
    refine still_duty (fun _ => rfl) (fun _ _ h => h) fun _ => ?_
    refine (namei_duty rfl fun _ => rfl).mono fun r g' hg' => ?_
    cases r with
    | none =>
      cases hg'
      simp only [safe_bind]
      exact still_duty trivial (fun _ _ h => h) fun _ => rfl
    | some ip =>
      cases hg'
      simp only [safe_bind]
      refine ilock_duty (fun _ => Set.notMem_empty ip) rfl fun _ => ?_
      refine quiet_duty (by simp [Op.Quiet]) rfl fun ino => ?_
      split_ifs
      · simp only [safe_bind]
        refine release_duty (g := .rest) (Set.notMem_empty ip) ?_
        exact still_duty trivial (fun _ _ h => h) fun _ => rfl
      · exact changeDir_duty

/-- The caller unlocks the inode of a file. -/
theorem letGo_duty {ip : ℕ} {R : Unit → View → Prop} (hR : R () .rest) :
    Safe (duty strict) (iunlock ip) (View.rest.lock ip) R := by
  refine iunlock_duty (Set.mem_insert ip _) ?_
  rwa [View.unlock_lock (Set.notMem_empty ip)]

theorem when_setOff_duty {c : Prop} [Decidable c] {f off : ℕ} {R : Unit → View → Prop}
    (hR : R () g) : Safe (duty strict) (when c (call (.setOff f off))) g R := by
  unfold when
  split_ifs
  · exact still_duty trivial (fun _ _ h => h) fun _ => hR
  · exact hR

theorem writeInode_duty {f ip buf : ℕ} {count : ℤ} :
    Safe (duty strict) (writeInode sb f ip buf count) .rest Done := by
  unfold writeInode
  simp only [safe_bind]
  refine still_duty (fun _ => rfl) (fun _ _ h => h) fun _ => ?_
  refine ilock_duty (fun _ => Set.notMem_empty ip) rfl fun _ => ?_
  refine still_duty trivial (fun _ _ h => h) fun writable => ?_
  split_ifs
  · simp only [safe_bind]
    exact letGo_duty rfl
  · simp only [safe_bind]
    refine still_duty trivial (fun _ _ h => h) fun file => ?_
    refine quiet_duty writei_quiet rfl fun n => when_setOff_duty (letGo_duty ?_)
    refine still_duty trivial (fun _ _ h => h) fun _ => ?_
    exact still_duty trivial (fun _ _ h => h) fun _ => rfl

theorem readInode_duty {f ip buf : ℕ} {count : ℤ} :
    Safe (duty strict) (readInode sb f ip buf count) .rest Done := by
  unfold readInode
  simp only [safe_bind]
  refine ilock_duty (fun _ => Set.notMem_empty ip) rfl fun _ => ?_
  refine still_duty trivial (fun _ _ h => h) fun file => ?_
  split_ifs
  · simp only [safe_bind]
    exact letGo_duty rfl
  · simp only [safe_bind]
    refine quiet_duty readi_quiet rfl fun n => when_setOff_duty (letGo_duty ?_)
    exact still_duty trivial (fun _ _ h => h) fun _ => rfl

theorem onFile_duty {fd : ℤ} {device : ℤ → Ext} {answer : ∀ major, (device major).Resp → Option ℤ}
    {inode : ℕ → ℕ → FsM ℤ} (h : ∀ f ip, Safe (duty strict) (inode f ip) .rest Done) :
    Safe (duty strict) (onFile fd device answer inode) .rest Done := by
  unfold onFile
  split_ifs
  · exact rfl
  · simp only [safe_bind]
    refine still_duty trivial (fun _ _ h => h) fun f => ?_
    cases f with
    | none => exact rfl
    | some f =>
      simp only [safe_bind]
      refine still_duty trivial (fun _ _ h => h) fun file => ?_
      cases file.type with
      | FD_NONE => exact rfl
      | FD_DEVICE =>
        simp only [safe_bind]
        refine still_duty trivial (fun _ _ h => h) fun r => ?_
        cases answer file.major r with
        | none => exact rfl
        | some n =>
          simp only [safe_bind]
          exact still_duty trivial (fun _ _ h => h) fun _ => rfl
      | FD_INODE =>
        dsimp only
        cases file.ip with
        | none => exact safe_panic.mpr trivial
        | some ip => exact h f ip

theorem sysWrite_duty {fd : ℤ} {buf : ℕ} {count : ℤ} :
    Safe (duty strict) (sysWrite sb fd buf count) .rest Done := by
  unfold sysWrite
  exact onFile_duty fun _ _ => writeInode_duty

theorem sysRead_duty {fd : ℤ} {buf : ℕ} {count : ℤ} :
    Safe (duty strict) (sysRead sb fd buf count) .rest Done := by
  unfold sysRead
  exact onFile_duty fun _ _ => readInode_duty

theorem sysClose_duty {fd : ℤ} : Safe (duty strict) (sysClose fd) .rest Done := by
  unfold sysClose
  split_ifs with hfd
  · exact rfl
  · simp only [safe_bind]
    have hlt : fd.toNat < NOFILE := by
      rw [not_or] at hfd
      omega
    refine still_duty hlt (fun _ _ h => h) fun there => ?_
    split_ifs
    · exact rfl
    · exact rfl

theorem exec_duty {path : List ℕ} {argv : List (List ℕ)} :
    Safe (duty strict) (exec sb path argv) .rest Done := by
  unfold exec
  simp only [safe_bind]
  refine (namei_duty rfl fun _ => rfl).mono fun r g' hg' => ?_
  cases r with
  | none =>
    cases hg'
    exact rfl
  | some ip =>
    cases hg'
    simp only [safe_bind]
    refine ilock_duty (fun _ => Set.notMem_empty ip) rfl fun _ => ?_
    refine quiet_duty readi_quiet rfl fun hdr => ?_
    split_ifs
    · exact safe_panic.mpr trivial
    simp only [safe_bind]
    refine quiet_duty (by simp [Op.Quiet]) rfl fun pagetable => ?_
    split_ifs
    · exact safe_panic.mpr trivial
    simp only [safe_bind]
    refine quiet_duty (by simp [Op.Quiet]) rfl fun mmapObj => ?_
    split_ifs
    · exact safe_panic.mpr trivial
    simp only [safe_bind]
    refine quiet_duty loadProgram_quiet rfl fun _ => ?_
    refine release_duty (g := .rest) (Set.notMem_empty ip) ?_
    refine quiet_duty (by simp [Op.Quiet]) rfl fun addr => ?_
    split_ifs
    · exact safe_panic.mpr trivial
    simp only [safe_bind]
    refine quiet_duty pushArgs_quiet rfl fun _ => ?_
    refine still_duty trivial (fun _ _ h => h) fun _ => ?_
    refine still_duty trivial (fun _ _ h => h) fun _ => ?_
    exact still_duty trivial (fun _ _ h => h) fun _ => rfl

theorem sysExec_duty {uargv : ℕ} : Safe (duty strict) (sysExec sb uargv) .rest Done := by
  unfold sysExec
  simp only [safe_bind]
  refine quiet_duty (by simp [Op.Quiet]) rfl fun path => ?_
  cases path with
  | none => exact rfl
  | some path =>
    simp only [safe_bind]
    refine quiet_duty fetchArgs_quiet rfl fun args => ?_
    cases args.2 with
    | none =>
      simp only [safe_bind]
      exact quiet_duty freeArgs_quiet rfl fun _ => rfl
    | some argv =>
      simp only [safe_bind]
      refine exec_duty.mono fun ret g' hg' => ?_
      cases hg'
      exact quiet_duty freeArgs_quiet rfl fun _ => rfl

/-! ### fork, wait and exit -/

/-- A call that has locked task `t` and owns nothing else. -/
def View.keeps (t : ℕ) (T : Task) : View := { View.rest with kid := some (t, T) }

theorem dupSlots_duty {nt n fd : ℕ} {T : Task} (hn : fd + n = NOFILE)
    (hnone : ∀ x < NOFILE, fd ≤ x → T.ofile x = none) :
    Safe (duty strict) (dupSlots nt n fd) (.keeps nt T)
      fun _ g' => ∃ ofile, g' = .keeps nt { T with ofile := ofile } := by
  induction n generalizing fd T with
  | zero => exact ⟨T.ofile, rfl⟩
  | succ n ih =>
    unfold dupSlots
    simp only [safe_bind]
    refine safe_call.mpr ⟨⟨by omega, T, rfl, hnone fd (by omega) le_rfl⟩, fun _ g' hg' => ?_⟩
    obtain ⟨f, rfl⟩ := hg' T rfl
    refine (ih (T := { T with ofile := Function.update T.ofile fd f }) (by omega) ?_).mono ?_
    · intro x hx hle
      have hne : x ≠ fd := by omega
      exact (Function.update_of_ne hne _ _).trans (hnone x hx (by omega))
    · rintro _ g' ⟨ofile, rfl⟩
      exact ⟨ofile, rfl⟩

theorem forkFiles_duty {nt : ℕ} {T : Task} (hs : T.state = .RUNNABLE) (howns : T.owns = true)
    (hnone : ∀ x < NOFILE, T.ofile x = none) :
    Safe (duty strict) (forkFiles nt) (.keeps nt T) Done := by
  unfold forkFiles
  simp only [safe_bind]
  refine (dupSlots_duty (Nat.zero_add _) fun x hx _ => hnone x hx).mono fun _ g' hg' => ?_
  obtain ⟨ofile, rfl⟩ := hg'
  refine safe_call.mpr ⟨⟨_, rfl, howns, fun hd => ?_⟩, fun _ g' hg' => hg'⟩
  exact absurd (hs.symm.trans hd) (by decide)

theorem sysFork_duty : Safe (duty strict) sysFork .rest Done := by
  unfold sysFork
  simp only [safe_bind]
  refine safe_call.mpr ⟨rfl, fun nt g' hg' => ?_⟩
  obtain ⟨T, hused, hcwd, howns, hnone, rfl⟩ := hg'
  refine quiet_duty (by simp [Op.Quiet]) rfl fun _ => ?_
  refine quiet_duty (by simp [Op.Quiet]) rfl fun _ => ?_
  refine still_duty trivial (fun _ _ h => h) fun _ => ?_
  refine safe_call.mpr ⟨⟨T, rfl, howns⟩, fun _ g' hg' => ?_⟩
  cases hg' T rfl
  refine still_duty trivial (fun _ _ h => h) fun cwd => ?_
  cases cwd with
  | none => exact forkFiles_duty rfl howns hnone
  | some e =>
    simp only [safe_bind]
    refine safe_call.mpr ⟨trivial, fun _ g' hg' => ?_⟩
    cases hg'
    refine safe_call.mpr ⟨⟨fun x hx => ?_, _, rfl, Or.inl hcwd, fun _ => howns⟩, fun _ g' hg' => ?_⟩
    · cases hx
      exact View.add_pos
    · have hview : g' = .keeps nt { T with
          state := .RUNNABLE
          cwd := some e
          owns := true } :=
        (hg' _ rfl).trans (congrArg (fun g : View => { g with kid := some (nt, { T with
          state := .RUNNABLE
          cwd := some e
          owns := true }) }) (View.add_sub (g := .keeps nt T)))
      rw [hview]
      exact forkFiles_duty rfl rfl hnone

theorem closeSlots_duty {t n fd : ℕ} {T : Task} (hn : fd + n = NOFILE)
    (hnone : ∀ x < fd, T.ofile x = none) :
    Safe (duty strict) (closeSlots t n fd) (.keeps t T) fun _ g' => ∃ ofile,
      g' = .keeps t { T with ofile := ofile } ∧ ∀ x < NOFILE, ofile x = none := by
  induction n generalizing fd T with
  | zero => exact ⟨T.ofile, rfl, fun x hx => hnone x (by omega)⟩
  | succ n ih =>
    unfold closeSlots
    simp only [safe_bind]
    refine safe_call.mpr ⟨⟨by omega, T, rfl⟩, fun _ g' hg' => ?_⟩
    cases hg' T rfl
    refine (ih (T := { T with ofile := Function.update T.ofile fd none }) (by omega) ?_).mono ?_
    · intro x hx
      by_cases hxfd : x = fd
      · subst hxfd
        exact Function.update_self _ _ _
      · exact (Function.update_of_ne hxfd _ _).trans (hnone x (by omega))
    · rintro _ g' ⟨ofile, rfl, hall⟩
      exact ⟨ofile, rfl, hall⟩

/-- `free_task` leaves a dead task with no descriptor and no directory. -/
theorem freeTask_duty {t : ℕ} {T : Task} (hdead : T.state = .DEAD) (howns : T.owns = true) :
    Safe (duty strict) (freeTask sb t) (.keeps t T) fun _ g' => ∃ T' : Task,
      g' = .keeps t T' ∧ T'.owns = true ∧ T'.cwd = none ∧ ∀ x < NOFILE, T'.ofile x = none := by
  unfold freeTask
  simp only [safe_bind]
  refine (closeSlots_duty (Nat.zero_add _) fun x hx => absurd hx (Nat.not_lt_zero x)).mono ?_
  rintro _ g' ⟨ofile, rfl, hnone⟩
  refine safe_call.mpr ⟨⟨_, rfl, howns, hdead⟩, fun cwd g' hg' => ?_⟩
  cases cwd with
  | none =>
    obtain ⟨hcwd, rfl⟩ := hg' _ rfl
    exact ⟨_, rfl, howns, hcwd, hnone⟩
  | some e =>
    cases hg' _ rfl
    simp only [safe_bind]
    refine iput_duty View.add_pos ?_
    have hview : ({ (View.keeps t { T with ofile := ofile }).add e with
        kid := some (t, { T with
          ofile := ofile
          owns := false }) } : View).sub e = .keeps t { T with
            ofile := ofile
            owns := false } :=
      congrArg (fun g : View => { g with kid := some (t, { T with
        ofile := ofile
        owns := false }) }) (View.add_sub (g := .keeps t T))
    rw [hview]
    refine safe_call.mpr ⟨⟨fun x hx => (by cases hx), _, rfl, Or.inr rfl, fun hr => ?_⟩,
      fun _ g' hg' => ?_⟩
    · exact absurd (hdead.symm.trans hr) (by decide)
    · cases hg' _ rfl
      exact ⟨_, rfl, rfl, rfl, hnone⟩

theorem sysWait_duty : Safe (duty strict) (sysWait sb) .rest Done := by
  unfold sysWait
  simp only [safe_bind]
  refine still_duty (fun _ => rfl) (fun _ _ h => h) fun _ => ?_
  refine safe_call.mpr ⟨rfl, fun p g' hg' => ?_⟩
  obtain ⟨T, hdead, howns, rfl⟩ := hg'
  refine quiet_duty (by simp [Op.Quiet]) rfl fun _ => ?_
  refine still_duty trivial (fun _ _ h => h) fun _ => ?_
  refine (freeTask_duty hdead howns).mono ?_
  rintro _ g' ⟨T', rfl, howns', hcwd, hnone⟩
  exact safe_call.mpr ⟨⟨T', rfl, howns', fun _ => ⟨hcwd, hnone⟩⟩, fun _ g' hg' => hg'⟩

theorem sysExit_duty : Safe (duty strict) sysExit .rest Done := by
  unfold sysExit
  simp only [safe_bind]
  exact still_duty rfl (fun _ _ h => h) fun _ => rfl

/-- Every call takes no more than it gives back. -/
theorem prog_duty (c : Syscall) : Safe (duty strict) (c.prog sb) .rest Done := by
  cases c with
  | «open» omode => exact sysOpen_duty
  | chdir => exact sysChdir_duty
  | write fd buf count => exact sysWrite_duty
  | read fd buf count => exact sysRead_duty
  | exec uargv => exact sysExec_duty
  | close fd => exact sysClose_duty
  | fork => exact sysFork_duty
  | wait => exact sysWait_duty
  | exit => exact sysExit_duty

end Zrhos.Sysfile
