import Zrhos.Rbtree.Search

/-! `impl_node_insert` hangs a red node at an empty place and repairs the colors on the way up:
the tree stays red-black, with the new node at its place in the order. -/
namespace Zrhos.Rbtree
open RedBlack RedBlack.Tree Rbtree.Mem

variable {m m' : Mem} {head p q g n : ℕ} {c cq cg : Color} {d e : Side}
  {t s u a b : RedBlack.Tree ℕ} {k : Path ℕ}

/-- The grandparent turns around its child, which takes its color. -/
theorem insertTurn_becomes (h : Holds m head (k.plug (fork d g cg (fork d q cq a b) u))) :
    Becomes m head (k.plug (fork d g cg (fork d q cq a b) u))
      (rotate d.flip ((m.setColor q .BLACK).setColor g .RED) head g)
      (k.plug (fork d q .BLACK a (fork d g .RED b u))) := by
  have hflip : fork d g cg (fork d q cq a b) u = fork d.flip g cg u (fork d.flip q cq b a) := by
    rw [fork_flip, fork_flip]
  rw [hflip] at h ⊢
  simpa only [fork_flip] using turn_becomes h .BLACK .RED

section Round
variable (h : Holds m head (Path.plug t (⟨e, q, cq, s⟩ :: ⟨d, g, cg, u⟩ :: k)))
  (ht : t ≠ .nil)
include h

theorem parent_parent (ht : t ≠ .nil) :
    m.parent (ptr head t) = q ∧ m.parent q = g ∧ m.child d g = q ∧
      m.child d.flip g = ptr head u := by
  obtain ⟨hq, _, _, _, hg, ⟨hgq, hgu⟩, _⟩ := h.place.2
  exact ⟨h.parent_ptr ht, hq, hgq, hgu⟩

theorem color_uncle : m.color (ptr head u) = u.color := by
  apply Holds.color_ptr (k := ⟨d.flip, g, cg, fork e q cq t s⟩ :: k)
  rw [Path.plug_far]
  exact h

/-- A red uncle: parent and uncle become black, the grandparent red. -/
theorem insertRound_red (ht : t ≠ .nil) (hu : u.color = .RED) :
    (insertRound d m head (ptr head t)).2 = g ∧
      Becomes m head (Path.plug t (⟨e, q, cq, s⟩ :: ⟨d, g, cg, u⟩ :: k))
        (insertRound d m head (ptr head t)).1
        (k.plug (fork d g .RED (fork e q .BLACK t s) u.blacken)) := by
  obtain ⟨hp, hq, _, hgu⟩ := parent_parent h ht
  have hcol : m.color (ptr head u) = .RED := (color_uncle h).trans hu
  have hround : insertRound d m head (ptr head t) =
      (((m.setColor q .BLACK).setColor (ptr head u) .BLACK).setColor g .RED, g) := by
    simp [insertRound, hp, hq, hcol, hgu]
  rw [hround]
  refine ⟨rfl, ?_⟩
  cases u with
  | nil => cases hu
  | node w c l r =>
    have hpar := recolor_becomes (k := ⟨d, g, cg, .node w c l r⟩ :: k) h .BLACK
    have hmid := hpar.holds
    have hflip : Path.plug (fork e q .BLACK t s) (⟨d, g, cg, .node w c l r⟩ :: k) =
        Path.plug (fork .left w c l r) (⟨d.flip, g, cg, fork e q .BLACK t s⟩ :: k) := by
      rw [Path.plug, Path.plug, fork_flip]
      rfl
    rw [hflip] at hmid hpar
    have hunc := recolor_becomes hmid .BLACK
    have hgrand := recolor_becomes (k := k) hunc.holds .RED
    have hend : fork d g .RED (fork e q .BLACK t s) (RedBlack.Tree.node w c l r).blacken =
        fork d.flip g .RED (fork .left w .BLACK l r) (fork e q .BLACK t s) := fork_flip.symm
    rw [hend]
    exact (hpar.trans hunc).trans hgrand

/-- A black uncle, and the node is an outer grandchild. -/
theorem insertRound_outer (ht : t ≠ .nil) (he : e = d) (hu : u.color = .BLACK) :
    (insertRound d m head (ptr head t)).2 = ptr head t ∧
      Becomes m head (Path.plug t (⟨e, q, cq, s⟩ :: ⟨d, g, cg, u⟩ :: k))
        (insertRound d m head (ptr head t)).1
        (k.plug (fork d q .BLACK t (fork d g .RED s u))) := by
  subst he
  obtain ⟨hp, hq, _, hgu⟩ := parent_parent h ht
  have hcol : m.color (ptr head u) = .BLACK := (color_uncle h).trans hu
  have hinner : ¬ ptr head t = m.child e.flip q := by
    rw [h.side (.inl ht)]
    exact Side.ne_flip e
  have hround : insertRound e m head (ptr head t) =
      (rotate e.flip ((m.setColor q .BLACK).setColor g .RED) head g, ptr head t) := by
    simp [insertRound, hp, hq, hgu, hcol, hinner]
  rw [hround]
  exact ⟨rfl, insertTurn_becomes h⟩

end Round

/-- A black uncle, and the node is an inner grandchild: a rotation makes its parent an outer
one. -/
theorem insertRound_inner (h : Holds m head
      (Path.plug (fork d p c a b) (⟨d.flip, q, cq, s⟩ :: ⟨d, g, cg, u⟩ :: k)))
    (hu : u.color = .BLACK) :
    (insertRound d m head p).2 = q ∧
      Becomes m head (Path.plug (fork d p c a b) (⟨d.flip, q, cq, s⟩ :: ⟨d, g, cg, u⟩ :: k))
        (insertRound d m head p).1
        (k.plug (fork d p .BLACK (fork d q cq s a) (fork d g .RED b u))) := by
  have hpp := parent_parent h fork_ne_nil
  rw [ptr_fork] at hpp
  obtain ⟨hp, hq, _, hgu⟩ := hpp
  have hcol : m.color (ptr head u) = .BLACK := (color_uncle h).trans hu
  have hinner : p = m.child d.flip q := by
    have hside := h.side (d := d.flip) (.inl fork_ne_nil)
    rw [ptr_fork] at hside
    exact hside.mpr rfl
  have hplug : Path.plug (fork d p c a b) (⟨d.flip, q, cq, s⟩ :: ⟨d, g, cg, u⟩ :: k) =
      Path.plug (fork d q cq s (fork d p c a b)) (⟨d, g, cg, u⟩ :: k) := by
    rw [Path.plug, fork_flip]
  rw [hplug] at h ⊢
  have hrot := rotate_becomes h
  have hlinks := hrot.holds.place
  have hqp : (rotate d m head q).parent q = p ∧ (rotate d m head q).parent p = g := by
    obtain ⟨hpar, _, _, hlq, _⟩ := linked_fork.mp hlinks.1
    exact ⟨(linked_fork.mp hlq).1, hpar⟩
  have hround : insertRound d m head p =
      (rotate d.flip (((rotate d m head q).setColor p .BLACK).setColor g .RED) head g, q) := by
    simp [insertRound, hp, hq, hgu, hcol, ← hinner, hqp]
  rw [hround]
  exact ⟨rfl, hrot.trans (insertTurn_becomes (k := k) hrot.holds)⟩

/-- A red node with black subtrees that fits a path is repaired. -/
theorem insertFix_becomes {fuel : ℕ} (h : Holds m head (k.plug t)) (ht : Balanced t n)
    (hred : t.color = .RED) (hk : Path.Fits k n) (hfuel : k.length + 2 ≤ fuel) :
    ∃ m' t', insertFix head fuel m (ptr head t) = some m' ∧ Becomes m head (k.plug t) m' t' ∧
      t'.color = .BLACK ∧ ∃ n', Balanced t' n' := by
  induction fuel using Nat.strong_induction_on generalizing m t k n with
  | _ fuel ih =>
    obtain ⟨fuel, rfl⟩ : ∃ f, fuel = f + 1 := ⟨fuel - 1, by omega⟩
    have hne : t ≠ .nil := by
      rintro rfl
      cases hred
    have hpar := h.parent_ptr hne
    by_cases hblack : k.color = .BLACK
    · -- the loop ends here
      refine ⟨_, _, ?_, blacken_becomes h, RedBlack.Tree.blacken_color _, ?_⟩
      · rw [insertFix, hpar, h.color_up, hblack]
        simp
      · obtain ⟨n', hn'⟩ := hk.plug ht fun _ => hblack
        exact hn'.blacken
    · -- the parent is red, so there is a grandparent
      cases hk with
      | nil => exact (hblack rfl).elim
      | black => exact (hblack rfl).elim
      | @red e q s k _ hs hbs hkne hkc hk =>
        cases hk with
        | nil => exact (hkne rfl).elim
        | red => cases hkc
        | @black d g u k _ hbu hk =>
          have hpp := parent_parent h hne
          have hd : (if q = m.left g then Side.left else Side.right) = d := by
            have hside := Holds.side_if (t := fork e q .RED t s) h (.inl fork_ne_nil)
            rwa [ptr_fork] at hside
          have hstep : insertFix head (fuel + 1) m (ptr head t) =
              insertFix head fuel (insertRound d m head (ptr head t)).1
                (insertRound d m head (ptr head t)).2 := by
            have hcol : m.color q = .RED := h.color_up
            rw [insertFix]
            simp only [hpp, hcol, if_true, hd]
          simp only [List.length_cons] at hfuel
          rw [hstep]
          cases hu : u.color with
          | RED =>
            obtain ⟨hg, hround⟩ := insertRound_red h hne hu
            have hbal : Balanced (fork d g .RED (fork e q .BLACK t s) u.blacken) (n + 1) :=
              (ht.fork_black hbs).fork_red (hbu.blacken_red hu) fork_color u.blacken_color
            obtain ⟨m', t', hfix, hbec, hrest⟩ := ih fuel (by omega) hround.holds hbal fork_color hk
              (by omega)
            rw [ptr_fork] at hfix
            rw [hg]
            exact ⟨m', t', hfix, hround.trans hbec, hrest⟩
          | BLACK =>
            rcases Side.eq_or_flip d e with rfl | rfl
            · obtain ⟨hg, hround⟩ := insertRound_outer h hne rfl hu
              have hfits : Path.Fits (⟨e, q, .BLACK, fork e g .RED s u⟩ :: k) n :=
                .black (hbs.fork_red hbu hs hu) hk
              obtain ⟨m', t', hfix, hbec, hrest⟩ := ih fuel (by omega) (t := t)
                (k := ⟨e, q, .BLACK, fork e g .RED s u⟩ :: k) hround.holds ht hred hfits
                (by simp only [List.length_cons]; omega)
              rw [hg]
              exact ⟨m', t', hfix, hround.trans hbec, hrest⟩
            · obtain ⟨p, c, a, b, rfl⟩ := exists_fork d hne
              rw [fork_color] at hred
              subst hred
              obtain ⟨ha, hb, hca, hcb⟩ := ht.of_fork_red
              obtain ⟨hg, hround⟩ := insertRound_inner h hu
              have hfits : Path.Fits (⟨d, p, .BLACK, fork d g .RED b u⟩ :: k) n :=
                .black (hb.fork_red hbu hcb hu) hk
              obtain ⟨m', t', hfix, hbec, hrest⟩ := ih fuel (by omega)
                (k := ⟨d, p, .BLACK, fork d g .RED b u⟩ :: k) hround.holds
                (hbs.fork_red ha hs hca) fork_color hfits (by simp only [List.length_cons]; omega)
              rw [ptr_fork] at hfix ⊢
              rw [hg]
              exact ⟨m', t', hfix, hround.trans hbec, hrest⟩

/-! ### Hanging a node -/

/-- What `node_init` leaves. -/
structure Fresh (m : Mem) (head node : ℕ) : Prop where
  child : ∀ d, m.child d node = head
  color : m.color node = .RED
  isnil : m.isnil node = false

variable {node : ℕ} {addleft : Bool} {f : Frame ℕ}

theorem hangNode_agree (hq : q ≠ node ∧ q ≠ head ∧ q ≠ p) :
    Agree m (hangNode m head node p addleft) q := by
  obtain ⟨hqn, hqh, hqp⟩ := hq
  unfold hangNode
  refine ⟨?_, fun d => ?_, ?_, ?_⟩ <;> dsimp only <;> split_ifs <;> simp [hqn, hqh, hqp]

theorem hangNode_color : (hangNode m head node p addleft).color = m.color := by
  unfold hangNode
  dsimp only
  split_ifs <;> rfl

theorem hangNode_isnil : (hangNode m head node p addleft).isnil = m.isnil := by
  unfold hangNode
  dsimp only
  split_ifs <;> rfl

/-- Below another node the place is on the side of the frame. -/
theorem hangNode_below (node : ℕ) (hp : p ≠ head) (d : Side) :
    (hangNode m head node p (d = .left)).parent q = (if q = node then p else m.parent q) ∧
      (hangNode m head node p (d = .left)).child e q =
        if e = d ∧ (q = p ∨ q = head ∧ p = m.child d head) then node else m.child e q := by
  have hflip : Side.right ≠ .left := by decide
  unfold hangNode
  cases d <;>
    simp only [hflip, decide_true, decide_false, if_true, Mem.left, Mem.right] <;>
      constructor <;> grind

theorem hangNode_root (head node : ℕ) (addleft : Bool) (e : Side) :
    (hangNode m head node head addleft).parent q =
        (if q = head then node else if q = node then head else m.parent q) ∧
      (hangNode m head node head addleft).child e q = if q = head then node else m.child e q := by
  unfold hangNode
  cases e <;> constructor <;> grind

/-- A fresh node hangs at an empty place. -/
theorem hangNode_holds (h : Holds m head (k.plug .nil))
    (hnode : node ∉ head :: (k.plug .nil).inorder)
    (hfresh : Fresh m head node) (hside : ∀ f ∈ k.head?, addleft = decide (f.side = .left)) :
    Holds (hangNode m head node (up head k) addleft) head (k.plug (.node node .RED .nil .nil)) := by
  have hnd := h.nodup_plug
  have hperm := k.perm_plug (.node node .RED .nil .nil)
  simp only [inorder, List.nil_append, List.cons_append] at hnd hperm
  have hnh : node ≠ head := fun he => hnode (by simp [he])
  have hnk : node ∉ k.nodes := fun hin =>
    hnode (List.mem_cons_of_mem _ ((k.perm_plug _).mem_iff.mpr hin))
  obtain ⟨hh, hkn⟩ := List.nodup_cons.mp hnd
  have hnd' : (head :: (k.plug (.node node .RED .nil .nil)).inorder).Nodup := by
    rw [(hperm.cons head).nodup_iff]
    simp [hh, hkn, hnk, hnh.symm]
  obtain ⟨_, hk⟩ := h.place
  cases k with
  | nil =>
    have hfields := fun q => hangNode_root (m := m) (q := q) head node addleft
    refine ⟨⟨?_, ⟨?_, ?_⟩, ⟨?_, ?_⟩, trivial, trivial⟩, hnd', ?_, ?_, ?_⟩
    · exact ((hfields node .left).1.trans (if_neg hnh)).trans (if_pos rfl)
    · exact ((hfields node .left).2.trans (if_neg hnh)).trans (hfresh.child _)
    · exact ((hfields node .right).2.trans (if_neg hnh)).trans (hfresh.child _)
    · exact (congrFun hangNode_color _).trans hfresh.color
    · exact (congrFun hangNode_isnil _).trans hfresh.isnil
    · exact (hfields head .left).1.trans (if_pos rfl)
    · exact (congrFun hangNode_color _).trans h.color
    · exact (congrFun hangNode_isnil _).trans h.isnil
  | cons f k =>
    obtain rfl := hside f rfl
    have hfn : f.label ∈ Path.nodes (f :: k) := by simp [Path.nodes]
    have hfh : f.label ≠ head := fun he => hh (he ▸ hfn)
    have hnf : node ≠ f.label := fun he => hnk (he ▸ hfn)
    have hfields := fun q e => hangNode_below (m := m) (q := q) (e := e) node hfh f.side
    have hchild : ∀ d, (hangNode m head node f.label (f.side = .left)).child d node = head := by
      intro d
      rw [(hfields node d).2, if_neg (by simp [hnf, hnh])]
      exact hfresh.child d
    refine ⟨linked_plug.mpr ⟨⟨?_, ⟨hchild _, hchild _⟩, ⟨?_, ?_⟩,
      trivial, trivial⟩, ?_⟩, hnd', ?_, ?_, ?_⟩
    · exact (hfields node .left).1.trans (if_pos rfl)
    · exact (congrFun hangNode_color _).trans hfresh.color
    · exact (congrFun hangNode_isnil _).trans hfresh.isnil
    · apply hk.redirect hkn
      · intro q hq hqf
        exact hangNode_agree ⟨fun he => hnk (he ▸ hq), fun he => hh (he ▸ hq), hqf⟩
      · intro f' hf'
        obtain rfl : f = f' := by simpa using hf'
        refine ⟨⟨?_, congrFun hangNode_color _, congrFun hangNode_isnil _⟩, ?_, ?_⟩
        · exact (hfields f.label .left).1.trans (if_neg hnf.symm)
        · exact (hfields f.label f.side).2.trans (if_pos ⟨rfl, .inl rfl⟩)
        · exact (hfields f.label f.side.flip).2.trans (if_neg fun he => Side.flip_ne _ he.1)
    · rw [up, (hfields head .left).1, if_neg hnh.symm, h.root]
      exact ptr_plug (List.cons_ne_nil f k)
    · exact (congrFun hangNode_color _).trans h.color
    · exact (congrFun hangNode_isnil _).trans h.isnil

/-- The ends of the tree, with the node. -/
theorem hangNode_ends (node : ℕ) (h : Holds m head (k.plug .nil))
    (hends : ∀ d, m.child d head = (d.tip (k.plug .nil).inorder).getD head)
    (hside : ∀ f ∈ k.head?, addleft = decide (f.side = .left)) (d : Side) :
    (hangNode m head node (up head k) addleft).child d head =
      (d.tip (k.plug (.node node .RED .nil .nil)).inorder).getD head := by
  cases k with
  | nil =>
    rw [up, (hangNode_root head node addleft d).2, if_pos rfl]
    cases d <;> rfl
  | cons f k =>
    obtain rfl := hside f rfl
    have hnd := (List.nodup_cons.mp h.nodup_plug).2
    have hfh : f.label ≠ head := fun he => by
      have hhead := (List.nodup_cons.mp h.nodup_plug).1
      simp [Path.nodes, he] at hhead
    have hold := hends d
    rw [Path.tip_plug] at hold
    rw [up, (hangNode_below node hfh f.side).2, Path.tip_plug, hold]
    rcases Side.eq_or_flip f.side d with rfl | rfl
    · -- the node goes in front of the end exactly when the node above it is the end
      cases htip : f.side.tip (Path.toward f.side k) with
      | none => simp [htip, hold, inorder]
      | some z =>
        have hz : z ∈ Path.nodes k := Path.mem_nodes_of_toward (Side.mem_of_tip htip)
        have hne : f.label ≠ z := fun he => (List.nodup_cons.mp hnd).1
          (List.mem_append_right _ (he ▸ hz))
        simp [htip, hold, hne, hfh.symm]
    · obtain ⟨z, hz⟩ : ∃ z, f.side.flip.tip (Path.toward f.side.flip (f :: k)) = some z := by
        rw [← Option.isSome_iff_exists, Option.isSome_iff_ne_none, ne_eq, Side.tip_eq_none]
        intro hnil
        have htip := Path.tip_toward_flip f k
        simp [hnil] at htip
      simp [hz]

/-- `impl_node_insert` at an empty place: the tree stays as it should be, with the node at that
place in its order. -/
theorem implNodeInsert_sound {rb : Tree} {fuel : ℕ} (h : Sound rb (k.plug .nil))
    (hnode : node ∉ rb.head :: (k.plug .nil).inorder) (hfresh : Fresh rb.mem rb.head node)
    (hside : ∀ f ∈ k.head?, addleft = decide (f.side = .left)) (hfuel : k.length + 2 ≤ fuel) :
    ∃ rb' t', implNodeInsert fuel rb node (up rb.head k) addleft = some rb' ∧ Sound rb' t' ∧
      t'.inorder = k.before ++ node :: k.after ∧ rb'.head = rb.head ∧
      ∀ q ∉ rb.head :: node :: (k.plug .nil).inorder, Agree rb.mem rb'.mem q := by
  have hinorder : (k.plug (.node node .RED .nil .nil)).inorder = k.before ++ node :: k.after := by
    rw [Path.inorder_plug]
    simp [inorder]
  have hold : (k.plug .nil).inorder = k.before ++ k.after := by
    rw [Path.inorder_plug]
    simp [inorder]
  have hhang := hangNode_holds h.holds hnode hfresh hside
  have hends := hangNode_ends node h.holds h.ends hside
  obtain ⟨n, hbal⟩ := h.balanced
  obtain ⟨n', hnil, hfits, _⟩ := Path.exists_fits hbal h.root
  cases hnil
  obtain ⟨m', t', hfix, hbec, hroot, hbal'⟩ := insertFix_becomes hhang (.red rfl rfl .nil .nil) rfl
    hfits hfuel
  refine ⟨⟨m', rb.head, rb.size + 1⟩, t', ?_, ⟨hbec.holds, ?_, ?_, hroot, hbal'⟩,
    hbec.inorder.trans hinorder, rfl, ?_⟩
  · have hfix' : insertFix rb.head fuel (hangNode rb.mem rb.head node (up rb.head k) addleft) node =
      some m' := hfix
    rw [implNodeInsert, hfix']
    rfl
  · intro d
    rw [hbec.ends, hends, hbec.inorder]
  · rw [hbec.inorder, hinorder, h.size, hold]
    simp only [List.length_append, List.length_cons]
    omega
  · intro q hq
    simp only [List.mem_cons, not_or, hold, List.mem_append] at hq
    obtain ⟨hqh, hqn, hqk⟩ := hq
    have hup : q ≠ up rb.head k := by
      rcases up_cases rb.head k with ⟨_, he⟩ | hin
      · rwa [he]
      · rintro rfl
        have hmem := (k.perm_plug .nil).mem_iff.mpr (List.mem_append_right _ hin)
        rw [hold, List.mem_append] at hmem
        exact not_or.mpr hqk hmem
    apply (hangNode_agree ⟨hqn, hqh, hup⟩).trans
    apply hbec.frame
    rw [hinorder]
    simp [hqh, hqn, hqk]

/-! ### `rb_insert` -/

theorem nodeInit_agree (hq : q ≠ node) : Agree m (nodeInit m node head) q := by
  refine ⟨?_, fun d => ?_, ?_, ?_⟩ <;> simp [nodeInit, hq]

theorem nodeInit_fresh : Fresh (nodeInit m node head) head node :=
  ⟨fun d => by cases d <;> simp [nodeInit], by simp [nodeInit], by simp [nodeInit]⟩

/-- The node that `rb_insert_node` compares with: the last one in front of the place. There is
none exactly when the place is in front of all nodes. -/
theorem insert_pos {fuel : ℕ} (h : Holds m head (Path.plug .nil (f :: k)))
    (hends : ∀ d, m.child d head = (d.tip (Path.plug .nil (f :: k)).inorder).getD head)
    (hfuel : (Path.plug .nil (f :: k)).height ≤ fuel) :
    (f.side = .left ∧ f.label = m.left head ↔ Path.before (f :: k) = []) ∧
      ∀ z, (Path.before (f :: k)).getLast? = some z →
        (if f.side = .left then nodePrev m fuel f.label else some f.label) = some z := by
  obtain ⟨d, p, c, s⟩ := f
  cases d with
  | left =>
    have hinorder : (Path.plug .nil (⟨.left, p, c, s⟩ :: k)).inorder =
        k.before ++ p :: (s.inorder ++ k.after) := by
      rw [Path.inorder_plug]
      simp [Path.before, Path.after, inorder]
    have hend : m.left head = (Side.left.tip (k.before ++ p :: (s.inorder ++ k.after))).getD head :=
      hinorder ▸ hends .left
    have hnd := (List.nodup_cons.mp h.nodup).2
    rw [hinorder] at hnd
    simp only [true_and, if_true, Path.before]
    constructor
    · cases hb : k.before with
      | nil => simp [hend, hb, Side.tip]
      | cons z zs =>
        rw [hb] at hnd
        have hne : p ≠ z := fun he => (List.nodup_cons.mp hnd).1 (by simp [he])
        simp [hend, hb, Side.tip, hne]
    · intro z hz
      rw [nodePrev_eq h hinorder hfuel, hz]
      rfl
  | right =>
    constructor
    · simp [Path.before]
    · intro z hz
      simpa [Path.before] using hz

section Order
variable {κ : Type} [LinearOrder κ] {key : ℕ → κ} {comp : Comp} {multi : Bool} {rb : Tree}
  {fuel : ℕ}

/-- Where `rb_insert` comes to, and what it compares there. -/
theorem insertNode_eq (multi : Bool) (node : ℕ) (h : Sound rb t) (ho : Ordered comp key t.inorder)
    (hfuel : t.height + 2 ≤ fuel) :
    ∃ k al, Path.plug .nil k = t ∧ (∀ f ∈ k.head?, al = decide (f.side = .left)) ∧
      k.before = t.inorder.filter (fun q => key q ≤ key node) ∧
      k.after = t.inorder.filter (fun q => key node < key q) ∧
      insertNode comp multi fuel rb node =
        match multi, k.before.getLast? with
        | false, some z =>
          if key z < key node then
            (implNodeInsert fuel rb node (up rb.head k) al).map fun rb => (rb, node, true)
          else some (rb, z, false)
        | _, _ =>
          (implNodeInsert fuel rb node (up rb.head k) al).map fun rb => (rb, node, true) := by
  have hcut : Cut (fun q => !comp node q) t.inorder := ho.cut_upper node
  obtain ⟨k, al, hdesc, hplug, hal, hb, ha⟩ := descend_eq (k := []) true h.holds hcut
    (show t.height < fuel by omega) (by simp)
  have hb' : k.before = t.inorder.filter fun q => key q ≤ key node := by
    simpa [Path.before, ho.comp, ← decide_not] using hb
  have ha' : k.after = t.inorder.filter fun q => key node < key q := by
    have hcomp : comp node = fun q => decide (key node < key q) := funext (ho.comp node)
    simpa [Path.after, hcomp] using ha
  have hdesc' :
      descend (fun res => comp node res) rb.mem fuel rb.head true (rb.mem.parent rb.head) =
      some (up rb.head k, al) := by
    rw [h.holds.root]
    exact hdesc
  have hplug' : Path.plug .nil k = t := hplug
  cases k with
  | nil =>
    -- the tree is empty
    obtain rfl : t = .nil := hplug'.symm
    obtain rfl : al = true := by
      obtain ⟨fuel, rfl⟩ : ∃ n, fuel = n + 1 := ⟨fuel - 1, by omega⟩
      have hnil : ptr rb.head .nil = rb.head := rfl
      rw [h.holds.root, hnil, descend, if_pos h.holds.isnil] at hdesc'
      simpa [up] using hdesc'.symm
    have hend : rb.mem.left rb.head = rb.head := h.ends .left
    refine ⟨[], true, rfl, by simp, hb', ha', ?_⟩
    rw [insertNode, hdesc']
    cases multi <;> simp [up, hend, Path.before]
  | cons f k =>
    refine ⟨f :: k, al, hplug', hal, hb', ha', ?_⟩
    obtain rfl := hal f rfl
    rw [← hplug'] at h hfuel
    have hheight : (Path.plug .nil (f :: k)).height ≤ fuel := (Nat.le_add_right _ 2).trans hfuel
    obtain ⟨hfirst, hpos⟩ := insert_pos h.holds h.ends hheight
    rw [insertNode, hdesc']
    cases multi with
    | true => rfl
    | false =>
      simp only [Option.bind_some, Bool.false_eq_true, if_false, up, decide_eq_true_eq, hfirst]
      cases hlast : (Path.before (f :: k)).getLast? with
      | none => simp [List.getLast?_eq_none_iff.mp hlast]
      | some z =>
        have hne : Path.before (f :: k) ≠ [] := by
          intro hnil
          simp [hnil] at hlast
        simp [hne, hpos z hlast, ho.comp]

theorem nodeInit_sound (h : Sound rb t) (hnode : node ∉ rb.head :: t.inorder) :
    Sound { rb with mem := nodeInit rb.mem node rb.head } t :=
  h.congr fun _ hq => nodeInit_agree fun he => hnode (he ▸ hq)

/-- `rb_insert` of a node with a new key, or of any node where keys may come twice: it comes
behind the nodes with keys up to its own. -/
theorem rbInsert_new (h : Sound rb t) (ho : Ordered comp key t.inorder)
    (hnode : node ∉ rb.head :: t.inorder) (hfuel : t.height + 2 ≤ fuel)
    (hnew : multi = true ∨ ∀ q ∈ t.inorder, key q ≠ key node) :
    ∃ rb' t', rbInsert comp multi fuel rb node = some (rb', node, true) ∧ Sound rb' t' ∧
      t'.inorder = t.inorder.filter (fun q => key q ≤ key node) ++
        node :: t.inorder.filter (fun q => key node < key q) ∧
      rb'.head = rb.head ∧ ∀ q ∉ rb.head :: node :: t.inorder, Agree rb.mem rb'.mem q := by
  have hinit := nodeInit_sound h hnode
  obtain ⟨k, al, hplug, hal, hb, ha, hins⟩ := insertNode_eq multi node hinit ho
    hfuel
  subst hplug
  have hlength : k.length ≤ (Path.plug .nil k).height :=
    (Nat.le_add_right _ _).trans (Path.length_le_height .nil k)
  obtain ⟨rb', t', himpl, hsound, hinorder, hhead, hframe⟩ := implNodeInsert_sound (k := k)
    hinit hnode nodeInit_fresh hal (show k.length + 2 ≤ fuel by omega)
  refine ⟨rb', t', ?_, hsound, by rw [hinorder, hb, ha], hhead, fun q hq => ?_⟩
  · rw [rbInsert, hins]
    split
    case h_1 z hz =>
      have hmem : z ∈ k.before := List.mem_of_getLast? hz
      rw [hb, List.mem_filter, decide_eq_true_iff] at hmem
      have hne : key z ≠ key node := by
        rcases hnew with hm | hne
        · cases hm
        · exact hne z hmem.1
      rw [if_pos (lt_of_le_of_ne hmem.2 hne), himpl]
      rfl
    case h_2 =>
      rw [himpl]
      rfl
  · have hqn : q ≠ node := fun he => hq (by simp [he])
    exact (nodeInit_agree hqn).trans (hframe q hq)

/-- `rb_insert` of a node whose key is there: it gives the node that has it. -/
theorem rbInsert_found (h : Sound rb t) (ho : Ordered comp key t.inorder)
    (hnode : node ∉ rb.head :: t.inorder) (hfuel : t.height + 2 ≤ fuel) (hq : q ∈ t.inorder)
    (hkey : key q = key node) (huniq : ∀ z ∈ t.inorder, key z = key q → z = q) :
    rbInsert comp false fuel rb node =
      some ({ rb with mem := nodeInit rb.mem node rb.head }, q, false) := by
  have hinit := nodeInit_sound h hnode
  obtain ⟨k, al, hplug, hal, hb, ha, hins⟩ := insertNode_eq false node hinit ho
    hfuel
  have hqb : q ∈ k.before := by
    rw [hb, List.mem_filter]
    exact ⟨hq, by simp [hkey]⟩
  obtain ⟨z, hz⟩ : ∃ z, k.before.getLast? = some z := by
    rw [← Option.isSome_iff_exists, Option.isSome_iff_ne_none, ne_eq, List.getLast?_eq_none_iff]
    exact List.ne_nil_of_mem hqb
  have hzmem : z ∈ t.inorder ∧ key z ≤ key node := by
    have hmem : z ∈ k.before := List.mem_of_getLast? hz
    rwa [hb, List.mem_filter, decide_eq_true_iff] at hmem
  -- the last node in front of the place has the key
  have hle : key q ≤ key z := by
    have hsorted : k.before.Pairwise fun a b => key a ≤ key b := hb ▸ ho.sorted.filter _
    obtain ⟨zs, hzs⟩ := List.getLast?_eq_some_iff.mp hz
    rw [hzs] at hsorted hqb
    rcases List.mem_append.mp hqb with hqz | hqz
    · exact (List.pairwise_append.mp hsorted).2.2 q hqz z (by simp)
    · rw [List.mem_singleton.mp hqz]
  have hkz : key z = key node := le_antisymm hzmem.2 (hkey ▸ hle)
  have hzq : z = q := huniq z hzmem.1 (hkz.trans hkey.symm)
  subst hzq
  rw [rbInsert, hins, hz]
  simp [hkey]

end Order

end Zrhos.Rbtree
