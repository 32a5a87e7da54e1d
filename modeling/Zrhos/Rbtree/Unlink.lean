import Zrhos.Rbtree.Search

/-! Taking a node out of the links: where it has a child at most, the child takes its place;
where it has two, the next node does. -/
namespace Zrhos.Rbtree
open RedBlack RedBlack.Tree Rbtree.Mem

variable {m m₁ : Mem} {head p q v fuel : ℕ} {c : Color} {d : Side} {t s x : RedBlack.Tree ℕ}
  {k : Path ℕ}

/-! ### Another node below the parent -/

theorem relink_agree (hq : q ≠ head ∧ q ≠ m.parent p) : Agree m (relink m head p v) q := by
  obtain ⟨hqh, hqp⟩ := hq
  unfold relink
  refine ⟨?_, fun d => ?_, ?_, ?_⟩ <;> split_ifs <;> simp [hqh, hqp]

theorem relink_color : (relink m head p v).color = m.color := by
  unfold relink
  split_ifs <;> rfl

theorem relink_root (hroot : m.parent head = p) : relink m head p v = m.setParent head v := by
  rw [relink, if_pos hroot]

theorem relink_below (hroot : m.parent head ≠ p) (d : Side) (hp : m.child d (m.parent p) = p)
    (hp' : m.child d.flip (m.parent p) ≠ p) :
    relink m head p v = m.setChild d (m.parent p) v := by
  rw [relink, if_neg hroot]
  cases d with
  | left => exact if_pos hp
  | right => exact if_neg hp'

theorem relink_setParent {u : ℕ} (hqh : q ≠ head) (hqp : q ≠ p) :
    (relink m head p v).setParent q u = relink (m.setParent q u) head p v := by
  have hhq : ¬ head = q := hqh.symm
  have hpq : ¬ p = q := hqp.symm
  have hcomm : (m.setParent head v).setParent q u = (m.setParent q u).setParent head v := by
    simp only [setParent, Function.update_comm hhq]
  unfold relink
  simp only [setParent_parent, hhq, hpq, if_false, Mem.left, setParent_child]
  split_ifs
  · exact hcomm
  · rfl
  · rfl

theorem relink_setColor : (relink m head p v).setColor q c = relink (m.setColor q c) head p v := by
  have hroot : (m.setColor q c).parent head = m.parent head := rfl
  have hleft : (m.setColor q c).left ((m.setColor q c).parent p) = m.left (m.parent p) := rfl
  rw [relink, relink, hroot, hleft]
  split_ifs <;> rfl

/-- A subtree that is linked elsewhere already takes the place of another one. -/
theorem relink_holds (m₁ : Mem) (h : Holds m head (k.plug t)) (ht : t ≠ .nil)
    (ha : ∀ q ∈ head :: k.nodes, Agree m m₁ q) (hpar : m₁.parent (ptr head t) = up head k)
    (hs : Linked m₁ head (up head k) s) (hnd : (head :: (s.inorder ++ k.nodes)).Nodup) :
    Holds (relink m₁ head (ptr head t) (ptr head s)) head (k.plug s) ∧
      ∀ d, (relink m₁ head (ptr head t) (ptr head s)).child d head = m.child d head := by
  have hk := h.place.2
  have hhead := ha head List.mem_cons_self
  simp only [List.nodup_cons, List.mem_append, not_or, List.nodup_append] at hnd
  obtain ⟨⟨hhs, hhk⟩, hsn, hkn, hdisj⟩ := hnd
  have hnd : (head :: (k.plug s).inorder).Nodup := by
    rw [((k.perm_plug s).cons head).nodup_iff, List.nodup_cons, List.mem_append, List.nodup_append]
    exact ⟨not_or.mpr ⟨hhs, hhk⟩, hsn, hkn, hdisj⟩
  cases k with
  | nil =>
    have hroot : m₁.parent head = ptr head t := hhead.parent.trans h.root
    rw [relink_root hroot]
    refine ⟨⟨?_, hnd, by simp [Path.plug], hhead.color.trans h.color, hhead.isnil.trans h.isnil⟩,
      hhead.child⟩
    apply Linked.congr hs
    intro q hq
    have hqh : q ≠ head := fun he => hhs (he ▸ hq)
    exact ⟨by simp [hqh], fun _ => rfl, rfl, rfl⟩
  | cons f k =>
    have hfn : f.label ∈ Path.nodes (f :: k) := by simp [Path.nodes]
    have hfh : f.label ≠ head := fun he => hhk (he ▸ hfn)
    have hf := ha f.label (List.mem_cons_of_mem _ hfn)
    obtain ⟨_, ⟨hsub, _⟩, _⟩ := h.place.2
    have hside := h.side (d := f.side.flip) (.inl ht)
    have hroot : m₁.parent head ≠ ptr head t := by
      rw [hhead.parent]
      exact (h.root_ne (List.cons_ne_nil f k)).symm
    have hrun : relink m₁ head (ptr head t) (ptr head s) =
        m₁.setChild f.side f.label (ptr head s) := by
      have hup : m₁.parent (ptr head t) = f.label := hpar
      rw [relink_below hroot f.side, hup]
      · rw [hup, hf.child, hsub]
      · rw [hup, hf.child]
        exact fun he => Side.ne_flip f.side (hside.mp he.symm)
    rw [hrun]
    refine ⟨⟨linked_plug.mpr ⟨?_, ?_⟩, hnd, ?_, ?_, ?_⟩, fun d => ?_⟩
    · apply hs.congr
      intro q hq
      have hqf : q ≠ f.label := fun he => hdisj q hq _ hfn he
      exact ⟨rfl, fun d => by simp [hqf], rfl, rfl⟩
    · apply hk.redirect hkn
      · intro q hq hqf
        apply (ha q (List.mem_cons_of_mem _ hq)).trans
        exact ⟨rfl, fun d => by simp [show q ≠ f.label from hqf], rfl, rfl⟩
      · intro f' hf'
        obtain rfl : f = f' := by simpa using hf'
        exact ⟨⟨hf.parent, hf.color, hf.isnil⟩, by simp, by simp [hf.child]⟩
    · exact (hhead.parent.trans h.root).trans (ptr_plug (List.cons_ne_nil f k))
    · exact hhead.color.trans h.color
    · exact hhead.isnil.trans h.isnil
    · rw [setChild_child, if_neg (by simp [hfh.symm]), hhead.child]

/-! ### A child at most -/

/-- The child hangs below the parent of the node. -/
theorem hoist_holds (h : Holds m head (k.plug (fork d p c .nil x))) :
    Holds (hoist m head p (ptr head x)) head (k.plug x) ∧
      (∀ d', (hoist m head p (ptr head x)).child d' head = m.child d' head) ∧
      (hoist m head p (ptr head x)).color = m.color ∧
      ∀ q ∉ head :: (k.plug (fork d p c .nil x)).inorder,
        Agree m (hoist m head p (ptr head x)) q := by
  have hnd := h.nodup_plug
  rw [((perm_fork.append_right k.nodes).cons head).nodup_iff] at hnd
  simp only [inorder, List.nil_append, List.cons_append, List.nodup_cons, List.mem_append,
    List.mem_cons, not_or, List.nodup_append] at hnd
  obtain ⟨⟨hhp, hhx, hhk⟩, ⟨hpx, _⟩, hxn, hkn, hdisj⟩ := hnd
  obtain ⟨hpar, _, _, hn⟩ := h.node
  have hlx : Linked m head p x := (linked_fork.mp h.place.1).2.2.2.2
  have hxr : m.isnil (ptr head x) = true ↔ x = .nil := by
    rw [← Path.plug_far] at h
    exact h.isnil_ptr
  have hrel := relink_holds (s := x)
    (if m.isnil (ptr head x) then m else m.setParent (ptr head x) (m.parent p)) h fork_ne_nil
  have hout : ∀ q ∉ head :: (k.plug (fork d p c .nil x)).inorder,
      (q ≠ head ∧ q ≠ up head k) ∧ (x ≠ .nil → q ≠ ptr head x) := by
    intro q hq
    rw [List.mem_cons, not_or, (k.perm_plug _).mem_iff, List.mem_append, not_or,
      mem_inorder_fork] at hq
    obtain ⟨hqh, hqx, hqk⟩ := hq
    refine ⟨⟨hqh, ?_⟩, ?_⟩
    · rcases up_cases head k with ⟨_, he⟩ | hin
      · rwa [he]
      · exact fun he => hqk (he ▸ hin)
    · intro hx he
      have hmem : ptr head x ∈ x.inorder := (ptr_cases head x).resolve_left fun hc => hx hc.1
      exact hqx (.inr (.inr (he ▸ hmem)))
  rw [ptr_fork] at hrel
  by_cases hx : x = .nil
  · have hrun : hoist m head p (ptr head x) = relink m head p (ptr head x) := by
      simp [hoist, hxr.mpr hx]
    rw [if_pos (hxr.mpr hx)] at hrel
    rw [hrun]
    subst hx
    obtain ⟨hholds, hchild⟩ := hrel (fun q _ => .refl m q) hpar trivial
      (by simp [inorder, hhk, hkn])
    refine ⟨hholds, hchild, relink_color, fun q hq => relink_agree ?_⟩
    rw [hpar]
    exact (hout q hq).1
  · have hmem : ptr head x ∈ x.inorder := (ptr_cases head x).resolve_left fun hc => hx hc.1
    have hpne : p ≠ ptr head x := fun he => hpx (he ▸ hmem)
    have hpar₁ : (m.setParent (ptr head x) (m.parent p)).parent p = up head k := by
      simp [hpne, hpar]
    have hrun : hoist m head p (ptr head x) =
        relink (m.setParent (ptr head x) (m.parent p)) head p (ptr head x) := by
      simp [hoist, mt hxr.mp hx]
    rw [if_neg (mt hxr.mp hx)] at hrel
    rw [hrun]
    have hagree : ∀ q, q ≠ ptr head x → Agree m (m.setParent (ptr head x) (m.parent p)) q :=
      fun q hq => ⟨by simp [hq], fun _ => rfl, rfl, rfl⟩
    obtain ⟨hholds, hchild⟩ := hrel
      (by
        intro q hq
        apply hagree
        rintro rfl
        rcases List.mem_cons.mp hq with he | hq
        · exact hhx (he ▸ hmem)
        · exact hdisj _ hmem _ hq rfl)
      hpar₁
      (by
        apply hlx.move hxn
        · simp [hpar]
        · intro q _ hqx
          simp [hqx]
        · exact fun q _ => ⟨fun _ => rfl, rfl, rfl⟩)
      (by
        simp only [List.nodup_cons, List.mem_append, not_or, List.nodup_append]
        exact ⟨⟨hhx, hhk⟩, hxn, hkn, hdisj⟩)
    refine ⟨hholds, hchild, relink_color, fun q hq => ?_⟩
    obtain ⟨hqu, hqx⟩ := hout q hq
    apply (hagree q (hqx hx)).trans
    apply relink_agree
    rwa [hpar₁]

/-- The first or last node of the tree, where that was the node taken out. -/
theorem unlinkEnd_eq (d' : Side) (h : Holds m head (k.plug x)) (hfuel : x.height ≤ fuel)
    (hp : p ∉ head :: (k.plug x).inorder)
    (hold : m.child d' head = (d'.tip (k.plug (fork d p c .nil x)).inorder).getD head) :
    unlinkEnd d' m head fuel p (ptr head x) (up head k) =
      some (m.setChild d' head ((d'.tip (k.plug x).inorder).getD head)) := by
  have hhp : head ≠ p := fun he => hp (by simp [he])
  have hpk : ∀ z, d'.tip (k.toward d') = some z → z ≠ p := by
    rintro z hz rfl
    exact hp (List.mem_cons_of_mem _ ((k.perm_plug x).mem_iff.mpr
      (List.mem_append_right _ (Path.mem_nodes_of_toward (Side.mem_of_tip hz)))))
  rw [Path.tip_plug] at hold
  rw [unlinkEnd, Path.tip_plug]
  cases hz : d'.tip (k.toward d') with
  | some z =>
    -- the end lies ahead of the place
    have hend : m.child d' head = z := by simpa [hz] using hold
    rw [if_neg (hend ▸ hpk z hz), Option.some_or, Option.getD_some, setChild_self hend]
  | none =>
    have hnil : k.toward d' = [] := Side.tip_eq_none.mp hz
    rw [hz, Option.none_or] at hold
    rw [Option.none_or]
    by_cases hx : x = .nil
    · subst hx
      have hend : m.child d' head = p := by
        rw [hold]
        rcases Side.eq_or_flip d d' with rfl | rfl
        · simp [tip_fork, inorder]
        · simp [tip_fork_flip, inorder]
      rw [if_pos hend, if_pos (h.isnil_ptr.mpr rfl), up_of_toward hnil]
      simp [inorder]
    · obtain ⟨z, htip⟩ := d'.exists_tip (mt inorder_eq_nil.mp hx)
      have hzp : z ≠ p := by
        rintro rfl
        exact hp (List.mem_cons_of_mem _ ((k.perm_plug x).mem_iff.mpr
          (List.mem_append_left _ (Side.mem_of_tip htip))))
      rw [htip, Option.some_or, Option.getD_some]
      rcases Side.eq_or_flip d d' with rfl | rfl
      · have hend : m.child d' head = p := by simpa [tip_fork, inorder] using hold
        rw [if_pos hend, if_neg (mt h.isnil_ptr.mp hx), nodeEnd_eq h hx hfuel, htip]
        rfl
      · have hend : m.child d.flip head = z := by simpa [tip_fork_flip, htip] using hold
        rw [if_neg (hend ▸ hzp), setChild_self hend]

theorem unlinkOne_eq (h : Holds m head (k.plug (fork d p c .nil x)))
    (hends : ∀ d', m.child d' head = (d'.tip (k.plug (fork d p c .nil x)).inorder).getD head)
    (hfuel : x.height ≤ fuel) :
    ∃ m', unlinkOne m head fuel p (ptr head x) = some (m', up head k) ∧
      Holds m' head (k.plug x) ∧ (∀ d', m'.child d' head = (d'.tip (k.plug x).inorder).getD head) ∧
      m'.color = m.color ∧ ∀ q ∉ head :: (k.plug (fork d p c .nil x)).inorder, Agree m m' q := by
  obtain ⟨hlinks, hchild, hcolor, hframe⟩ := hoist_holds h
  have hpar : m.parent p = up head k := h.node.1
  have hp : p ∉ head :: (k.plug x).inorder := by
    have hnd := h.nodup_plug
    rw [((perm_fork.append_right k.nodes).cons head).nodup_iff] at hnd
    simp only [inorder, List.nil_append, List.cons_append, List.nodup_cons, List.mem_cons,
      not_or] at hnd
    rw [List.mem_cons, not_or, (k.perm_plug x).mem_iff]
    exact ⟨Ne.symm hnd.1.1, hnd.2.1⟩
  have hleft := unlinkEnd_eq .left hlinks hfuel hp ((hchild .left).trans (hends .left))
  have hmid := hlinks.setEnd .left ((Side.left.tip (k.plug x).inorder).getD head)
  have hright := unlinkEnd_eq .right hmid hfuel hp (by
    rw [setChild_child, if_neg (by simp)]
    exact (hchild .right).trans (hends .right))
  simp only [unlinkOne, hpar, hleft, Option.bind_some, hright, Option.map_some]
  refine ⟨_, rfl, hmid.setEnd _ _, ?_, hcolor, ?_⟩
  · intro d'
    cases d' <;> simp
  · intro q hq
    have hqh : q ≠ head := fun he => hq (by simp [he])
    exact (hframe q hq).trans ⟨rfl, fun d' => by simp [hqh], rfl, rfl⟩

/-! ### Two children -/

section Two
variable {w : ℕ} {cw : Color} {l : RedBlack.Tree ℕ} {kr : Path ℕ}

/-- The fields after `moveNext`, where the next node is the right child. -/
theorem moveNext_near (hpr : m.right p = w) : moveNext m p w q =
    ((m.setParent (m.left p) w).setChild .left w (m.left p), w) := by
  have hright : m.child .right p = w := hpr
  simp [moveNext, Mem.left, Mem.right, hright]

/-- The fields after `moveNext`, where the next node lies deeper. -/
theorem moveNext_far {u r : ℕ} (hpl : m.left p = u) (hpr : m.right p = r) (hrw : r ≠ w)
    (hpw : p ≠ w) (huw : u ≠ w) (z : ℕ) :
    (moveNext m p w q).2 = m.parent w ∧
      (moveNext m p w q).1.parent z =
        (if z = r then w else if m.isnil q = false ∧ z = q then m.parent w
        else if z = u then w else m.parent z) ∧
      (moveNext m p w q).1.left z = (if z = m.parent w then q else if z = w then u else m.left z) ∧
      (moveNext m p w q).1.right z = (if z = w then r else m.right z) ∧
      (moveNext m p w q).1.color z = m.color z ∧ (moveNext m p w q).1.isnil z = m.isnil z := by
  simp only [Mem.left, Mem.right] at *
  cases hn : m.isnil q <;>
    simp [moveNext, Mem.left, Mem.right, hn, hpl, hpr, hpw, hrw.symm, huw.symm]

/-- The links once `fixnode` has the place of the next node below `fixparent`. -/
def unhook (m : Mem) (fixparent fixnode : ℕ) : Mem :=
  (if m.isnil fixnode then m else m.setParent fixnode fixparent).setChild .left fixparent fixnode

theorem unhook_fields (q : ℕ) :
    ((unhook m p v).parent q = if m.isnil v = false ∧ q = v then p else m.parent q) ∧
      (∀ d, (unhook m p v).child d q = if d = .left ∧ q = p then v else m.child d q) ∧
      (unhook m p v).color q = m.color q ∧ (unhook m p v).isnil q = m.isnil q := by
  cases hn : m.isnil v <;> simp [unhook, hn]

theorem unhook_links {f : Frame ℕ} (hk : LinkedPath m head p w (f :: kr)) (hx : Linked m head w x)
    (hf : f.side = .left) (hnil : m.isnil (ptr head x) = true ↔ x = .nil)
    (hnd : (x.inorder ++ Path.nodes (f :: kr)).Nodup) :
    Linked (unhook m f.label (ptr head x)) head p (Path.plug x (f :: kr)) := by
  obtain ⟨hxn, hkn, hxk⟩ := List.nodup_append.mp hnd
  have hfn : f.label ∈ Path.nodes (f :: kr) := by simp [Path.nodes]
  have hxmem : m.isnil (ptr head x) = false → ptr head x ∈ x.inorder := by
    intro hn
    refine (ptr_cases head x).resolve_left fun hc => ?_
    rw [hnil.mpr hc.1] at hn
    cases hn
  have hfields := fun q => unhook_fields (m := m) (p := f.label) (v := ptr head x) q
  refine linked_plug.mpr ⟨?_, ?_⟩
  · apply hx.move hxn
    · intro hne
      have hn : m.isnil (ptr head x) = false := by simpa using mt hnil.mp hne
      exact (hfields _).1.trans (if_pos ⟨hn, rfl⟩)
    · exact fun q _ hqx => (hfields q).1.trans (if_neg fun hc => hqx hc.2)
    · intro q hq
      exact ⟨fun d => ((hfields q).2.1 d).trans (if_neg fun hc => hxk q hq _ hfn hc.2),
        (hfields q).2.2⟩
  · have hparent : ∀ q ∈ Path.nodes (f :: kr),
        (unhook m f.label (ptr head x)).parent q = m.parent q := fun q hq =>
      (hfields q).1.trans (if_neg fun hc => hxk _ (hxmem hc.1) q hq hc.2.symm)
    apply hk.redirect hkn
    · intro q hq hqf
      exact ⟨hparent q hq, fun d => ((hfields q).2.1 d).trans (if_neg fun hc => hqf hc.2),
        (hfields q).2.2.1, (hfields q).2.2.2⟩
    · intro f' hf'
      obtain rfl : f = f' := by simpa using hf'
      refine ⟨⟨hparent _ hfn, (hfields _).2.2⟩, ?_, ?_⟩
      · exact ((hfields _).2.1 _).trans (if_pos ⟨hf, rfl⟩)
      · exact ((hfields _).2.1 _).trans (if_neg fun hc => by simp [hf, Side.flip] at hc)

/-- The next node is taken out of the right subtree and gets both. -/
theorem moveNext_links
    (hl : Linked m head p l) (hr : Linked m head p (kr.plug (.node w cw .nil x)))
    (hleft : ∀ f ∈ kr, f.side = .left) (hpl : m.left p = ptr head l)
    (hpr : m.right p = ptr head (kr.plug (.node w cw .nil x))) (hne : l ≠ .nil)
    (hnil : m.isnil (ptr head x) = true ↔ x = .nil)
    (hnd : (head :: p :: (l.inorder ++ (w :: (x.inorder ++ kr.nodes)))).Nodup) :
    (moveNext m p w (ptr head x)).2 = up w kr ∧
      ((moveNext m p w (ptr head x)).1.left w = ptr head l ∧
        (moveNext m p w (ptr head x)).1.right w = ptr head (kr.plug x)) ∧
      (Linked (moveNext m p w (ptr head x)).1 head w l ∧
        Linked (moveNext m p w (ptr head x)).1 head w (kr.plug x)) ∧
      ((moveNext m p w (ptr head x)).1.color = m.color ∧
        (moveNext m p w (ptr head x)).1.isnil = m.isnil) ∧
      ∀ q ∉ l.inorder ++ (w :: (x.inorder ++ kr.nodes)),
        Agree m (moveNext m p w (ptr head x)).1 q := by
  obtain ⟨hwl, hk⟩ := linked_plug.mp hr
  obtain ⟨hwp, ⟨_, hwx⟩, _, _, hx⟩ := hwl
  have hlmem : ptr head l ∈ l.inorder := (ptr_cases head l).resolve_left fun hc => hne hc.1
  simp only [List.nodup_cons, List.mem_append, List.mem_cons, not_or, List.nodup_append] at hnd
  obtain ⟨hh, ⟨hpln, hpw, hpx, hpk⟩, hln, ⟨⟨hwx', hwk⟩, hxn, hkn, hxk⟩, hlr⟩ := hnd
  have hlw : ptr head l ≠ w := fun he => (hlr _ hlmem _ (.inl rfl)) he
  cases kr with
  | nil =>
    have hrun : moveNext m p w (ptr head x) =
        ((m.setParent (ptr head l) w).setChild .left w (ptr head l), w) := by
      have hright : m.right p = w := hpr
      rw [moveNext_near hright, hpl]
    rw [hrun]
    refine ⟨rfl, ⟨by simp [Mem.left], ?_⟩, ⟨?_, ?_⟩, ⟨rfl, rfl⟩, ?_⟩
    · simpa [Mem.right, Path.plug] using hwx
    · apply hl.move hln
      · simp
      · intro q _ hq
        simp [hq]
      · intro q hq
        have hqw : q ≠ w := fun he => hlr q hq w (.inl rfl) he
        exact ⟨fun d => by simp [hqw], rfl, rfl⟩
    · apply hx.congr
      intro q hq
      have hqw : q ≠ w := fun he => hwx' (he ▸ hq)
      have hql : q ≠ ptr head l := fun he => hlr _ (he ▸ hlmem) q (.inr (.inl hq)) rfl
      exact ⟨by simp [hql], fun d => by simp [hqw], rfl, rfl⟩
    · intro q hq
      simp only [List.mem_append, List.mem_cons, not_or] at hq
      have hql : q ≠ ptr head l := fun he => hq.1 (he ▸ hlmem)
      exact ⟨by simp [hql], fun d => by simp [hq.2.1], rfl, rfl⟩
  | cons f kr =>
    have hf : f.side = .left := hleft f List.mem_cons_self
    have hfn : f.label ∈ Path.nodes (f :: kr) := by simp [Path.nodes]
    set r := ptr head (Path.plug (.node w cw .nil x) (f :: kr)) with hrdef
    have hrn : r ∈ Path.nodes (f :: kr) := ptr_plug_mem head _ (List.cons_ne_nil f kr)
    have hrx : r = ptr head (Path.plug x (f :: kr)) := ptr_plug (List.cons_ne_nil f kr)
    have hrw : r ≠ w := fun he => hwk (he ▸ hrn)
    have hup : m.parent w = f.label := hwp
    have hfields := fun q => moveNext_far (q := ptr head x) hpl hpr hrw hpw hlw q
    simp only [hup] at hfields
    have hxr : ptr head x ∈ x.inorder ∨ x = .nil ∧ ptr head x = head := (ptr_cases head x).symm
    generalize moveNext m p w (ptr head x) = mm at hfields ⊢
    obtain ⟨m₁, fixparent⟩ := mm
    simp only at hfields ⊢
    have hcolor : ∀ q, m₁.color q = m.color q := fun q => (hfields q).2.2.2.2.1
    have hisnil : ∀ q, m₁.isnil q = m.isnil q := fun q => (hfields q).2.2.2.2.2
    have hchild : ∀ q, q ≠ w → q ≠ f.label → ∀ d, m₁.child d q = m.child d q := by
      intro q hqw hqf d
      cases d with
      | left => exact ((hfields q).2.2.1.trans (if_neg hqf)).trans (if_neg hqw)
      | right => exact (hfields q).2.2.2.1.trans (if_neg hqw)
    have hnx :
        ∀ q, (x ≠ .nil → q ≠ ptr head x) → ¬ (m.isnil (ptr head x) = false ∧ q = ptr head x) := by
      rintro q hq ⟨hn, he⟩
      have hx : x ≠ .nil := by
        intro hx
        rw [hnil.mpr hx] at hn
        cases hn
      exact hq hx he
    have hxmem : x ≠ .nil → ptr head x ∈ x.inorder := fun hx =>
      (ptr_cases head x).resolve_left fun hc => hx hc.1
    refine ⟨(hfields w).1, ⟨?_, ?_⟩, ⟨?_, ?_⟩, ⟨funext hcolor, funext hisnil⟩, ?_⟩
    · have hwf : w ≠ f.label := fun he => hwk (he ▸ hfn)
      exact ((hfields w).2.2.1.trans (if_neg hwf)).trans (if_pos rfl)
    · exact (hfields w).2.2.2.1.trans ((if_pos rfl).trans hrx)
    · have hparent : ∀ q ∈ l.inorder, m₁.parent q = if q = ptr head l then w else m.parent q := by
        intro q hq
        have hqr : q ≠ r := hlr q hq r (.inr (.inr hrn))
        have hqx := hnx q fun hx => hlr q hq _ (.inr (.inl (hxmem hx)))
        rw [(hfields q).2.1, if_neg hqr, if_neg hqx]
      apply hl.move hln
      · intro _
        rw [hparent _ hlmem, if_pos rfl]
      · intro q hq hql
        rw [hparent q hq, if_neg hql]
      · intro q hq
        exact ⟨hchild q (hlr q hq w (.inl rfl)) (hlr q hq _ (.inr (.inr hfn))), hcolor q, hisnil q⟩
    · -- the right subtree without the node, below its old parent first
      have hnd : (x.inorder ++ Path.nodes (f :: kr)).Nodup :=
        List.nodup_append.mpr ⟨hxn, hkn, hxk⟩
      have hma := fun q => unhook_fields (m := m) (p := f.label) (v := ptr head x) q
      have hlinked := unhook_links hk hx hf hnil hnd
      have hperm := Path.perm_plug x (f :: kr)
      apply hlinked.move
      · exact hperm.nodup_iff.mpr hnd
      · intro _
        rw [← hrx, (hfields r).2.1, if_pos rfl]
      · intro q hq hqr
        rw [← hrx] at hqr
        have hql : q ≠ ptr head l := by
          intro he
          have hmem := hperm.mem_iff.mp hq
          exact hlr _ (he ▸ hlmem) q (.inr (List.mem_append.mp hmem)) rfl
        rw [(hfields q).2.1, (hma q).1, if_neg hqr]
        by_cases hc : m.isnil (ptr head x) = false ∧ q = ptr head x
        · rw [if_pos hc, if_pos hc]
        · rw [if_neg hc, if_neg hc, if_neg hql]
      · intro q hq
        have hqw : q ≠ w := by
          rintro rfl
          exact (not_or.mpr ⟨hwx', hwk⟩) (List.mem_append.mp (hperm.mem_iff.mp hq))
        refine ⟨fun d => ?_, (hcolor q).trans (hma q).2.2.1.symm,
          (hisnil q).trans (hma q).2.2.2.symm⟩
        rw [(hma q).2.1]
        cases d with
        | left =>
          refine (hfields q).2.2.1.trans ?_
          simp only [true_and, if_neg hqw]
        | right => exact ((hfields q).2.2.2.1.trans (if_neg hqw)).trans (if_neg (by simp)).symm
    · intro q hq
      simp only [List.mem_append, List.mem_cons, not_or] at hq
      obtain ⟨hql, hqw, hqx, hqk⟩ := hq
      have hqr : q ≠ r := fun he => hqk (he ▸ hrn)
      have hqp := hnx q fun hx he => hqx (he ▸ hxmem hx)
      have hqpl : q ≠ ptr head l := fun he => hql (he ▸ hlmem)
      refine ⟨?_, hchild q hqw fun he => hqk (he ▸ hfn), hcolor q, hisnil q⟩
      rw [(hfields q).2.1, if_neg hqr, if_neg hqp, if_neg hqpl]

/-- The next node takes the place of the node taken out, with its color. -/
theorem unlinkTwo_eq (h : Holds m head (k.plug (.node p c l (kr.plug (.node w cw .nil x)))))
    (hleft : ∀ f ∈ kr, f.side = .left) (hne : l ≠ .nil) :
    ∃ m', unlinkTwo m head p w (ptr head x) = (m', up w kr) ∧
      Holds m' head (k.plug (.node w c l (kr.plug x))) ∧ (∀ d, m'.child d head = m.child d head) ∧
      m'.color p = cw ∧
      ∀ q ∉ head :: (k.plug (.node p c l (kr.plug (.node w cw .nil x)))).inorder, Agree m m' q := by
  have hperm : (RedBlack.Tree.node p c l (kr.plug (.node w cw .nil x))).inorder.Perm
      (p :: (l.inorder ++ (w :: (x.inorder ++ kr.nodes)))) :=
    List.perm_middle.trans (((Path.perm_plug _ kr).append_left l.inorder).cons p)
  have hall := ((k.perm_plug _).trans (hperm.append_right k.nodes))
  have hnd := (hall.cons head).nodup_iff.mp h.nodup
  have hnd' := hnd
  simp only [List.nodup_cons, List.mem_append, List.mem_cons, not_or, List.nodup_append,
    List.cons_append] at hnd'
  obtain ⟨⟨hhp, ⟨hhl, hhw, hhx, hhkr⟩, hhk⟩, ⟨⟨hpl, hpw, hpx, hpkr⟩, hpk⟩, hsub, hkn, hdisj⟩ := hnd'
  obtain ⟨hpar, ⟨hml, hmr⟩, hcol, _⟩ := h.node (d := .left)
  obtain ⟨_, _, _, hll, hlr⟩ := h.place.1
  obtain ⟨⟨_, _, ⟨hcw, hnw⟩, _⟩, _⟩ := linked_plug.mp hlr
  have hnilx : m.isnil (ptr head x) = true ↔ x = .nil := by
    have hplace :
        Holds m head (Path.plug x (⟨.right, w, cw, .nil⟩ :: (kr ++ ⟨.right, p, c, l⟩ :: k))) := by
      rw [Path.plug, Path.plug_append]
      exact h
    exact hplace.isnil_ptr
  have hnd₁ : (head :: p :: (l.inorder ++ (w :: (x.inorder ++ kr.nodes)))).Nodup := by
    simp only [List.nodup_cons, List.mem_append, List.mem_cons, not_or, List.nodup_append]
    exact ⟨⟨hhp, hhl, hhw, hhx, hhkr⟩, ⟨hpl, hpw, hpx, hpkr⟩, hsub⟩
  obtain ⟨hfp, ⟨hwl, hwr⟩, ⟨hl₁, hr₁⟩, ⟨hcolor₁, hisnil₁⟩, hagree₁⟩ :=
    moveNext_links hll hlr hleft hml hmr hne
    hnilx hnd₁
  obtain ⟨hln, ⟨⟨hwx, hwkr⟩, hxn, hkrn, hxkr⟩, hlw⟩ := hsub
  set m₁ := (moveNext m p w (ptr head x)).1 with hm₁
  have hup : up head k ≠ p := by
    rcases up_cases head k with ⟨_, he⟩ | hin
    · rw [he]
      exact hhp
    · exact fun he => hpk (he ▸ hin)
  have hout : ∀ q, (q = p ∨ q = head ∨ q ∈ k.nodes) →
      q ∉ l.inorder ++ (w :: (x.inorder ++ kr.nodes)) := by
    intro q hq
    simp only [List.mem_append, List.mem_cons]
    rcases hq with rfl | rfl | hq
    · tauto
    · tauto
    · exact fun hin => hdisj q (by tauto) q hq rfl
  have hp₁ : m₁.parent p = up head k := (hagree₁ p (hout p (.inl rfl))).parent.trans hpar
  -- the last assignments may as well come first
  have hrun : unlinkTwo m head p w (ptr head x) =
      (relink (((m₁.setParent w (up head k)).setColor w c).setColor p cw) head p w, up w kr) := by
    have hmove : moveNext m p w (ptr head x) = (m₁, up w kr) := Prod.ext rfl hfp
    have hpr : (relink m₁ head p w).parent p = up head k := by
      rw [(relink_agree ⟨Ne.symm hhp, ?_⟩).parent, hp₁]
      rw [hp₁]
      exact hup.symm
    simp only [unlinkTwo, hmove, hpr, setParent_color, relink_color, hcolor₁, hcw, hcol]
    rw [relink_setParent (Ne.symm hhw) (Ne.symm hpw), relink_setColor, relink_setColor]
  rw [hrun]
  set m₂ := ((m₁.setParent w (up head k)).setColor w c).setColor p cw with hm₂
  have hagree₂ : ∀ q, q ≠ w → q ≠ p → Agree m₁ m₂ q := fun q hqw hqp =>
    ⟨by simp [hm₂, hqw], fun _ => rfl, by simp [hm₂, hqw, hqp], rfl⟩
  have hne' : RedBlack.Tree.node p c l (kr.plug (.node w cw .nil x)) ≠ .nil := by simp
  have hpermR := Path.perm_plug x kr
  have hlinked : Linked m₂ head (up head k) (.node w c l (kr.plug x)) := by
    refine ⟨by simp [hm₂], ⟨hwl, hwr⟩, ⟨?_, ?_⟩, ?_, ?_⟩
    · simp [hm₂, Ne.symm hpw]
    · exact (congrFun hisnil₁ w).trans hnw
    · exact hl₁.congr fun q hq => hagree₂ q (fun he => hlw q hq w (.inl rfl) he)
        fun he => hpl (he ▸ hq)
    · apply hr₁.congr
      intro q hq
      have hmem := List.mem_append.mp (hpermR.mem_iff.mp hq)
      exact hagree₂ q (by rintro rfl; tauto) (by rintro rfl; tauto)
  obtain ⟨hholds, hchild⟩ := relink_holds m₂ h hne'
    (by
      intro q hq
      have hq' : q ≠ w ∧ q ≠ p := by
        rcases List.mem_cons.mp hq with rfl | hq
        · exact ⟨hhw, hhp⟩
        · exact ⟨fun he => hdisj q (by tauto) q hq rfl, fun he => hpk (he ▸ hq)⟩
      exact (hagree₁ q (hout q (.inr (List.mem_cons.mp hq)))).trans (hagree₂ q hq'.1 hq'.2))
    (by
      have hpw' : ¬ p = w := hpw
      exact (by simp [hm₂, hpw'] : m₂.parent p = m₁.parent p).trans hp₁)
    hlinked
    (by
      have hperm' : (RedBlack.Tree.node w c l (kr.plug x)).inorder.Perm
          (w :: (l.inorder ++ (x.inorder ++ kr.nodes))) :=
        List.perm_middle.trans ((hpermR.append_left l.inorder).cons w)
      rw [((hperm'.append_right k.nodes).cons head).nodup_iff]
      have hsub : (head :: (w :: (l.inorder ++ (x.inorder ++ kr.nodes)) ++ k.nodes)).Sublist
          (head :: (p :: (w :: (l.inorder ++ (x.inorder ++ kr.nodes))) ++ k.nodes)) :=
        (List.sublist_cons_self p _).cons_cons head
      refine hsub.nodup ?_
      have hperm'' : (p :: (l.inorder ++ w :: (x.inorder ++ kr.nodes))).Perm
          (p :: (w :: (l.inorder ++ (x.inorder ++ kr.nodes)))) := List.perm_middle.cons p
      exact ((hperm''.append_right k.nodes).cons head).nodup_iff.mp hnd)
  refine ⟨_, rfl, hholds, hchild, ?_, ?_⟩
  · have hcolor₂ : m₂.color p = cw := by simp [hm₂]
    exact (congrFun relink_color p).trans hcolor₂
  · intro q hq
    rw [List.mem_cons, not_or, hall.mem_iff] at hq
    simp only [List.mem_append, List.mem_cons, not_or] at hq
    obtain ⟨hqh, ⟨hqp, hql, hqw, hqx, hqkr⟩, hqk⟩ := hq
    have hqu : q ≠ up head k := by
      rcases up_cases head k with ⟨_, he⟩ | hin
      · rwa [he]
      · exact fun he => hqk (he ▸ hin)
    have hp₂ : m₂.parent p = up head k := by
      have hpw' : ¬ p = w := hpw
      exact (by simp [hm₂, hpw'] : m₂.parent p = m₁.parent p).trans hp₁
    apply (hagree₁ q (by simp [hql, hqw, hqx, hqkr])).trans
    apply (hagree₂ q hqw hqp).trans
    exact relink_agree ⟨hqh, by rwa [hp₂]⟩

end Two

end Zrhos.Rbtree
