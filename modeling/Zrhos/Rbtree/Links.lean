import Zrhos.Rbtree.Model

/-! A red-black tree in memory: its nodes are linked as the tree has them, and the head node
stands for every empty subtree. A rotation and a new color change the tree at one place. -/
namespace Zrhos.Rbtree
open RedBlack

variable {m m' m'' : Mem} {head top par par' p q v x y sub sub' : ℕ} {c c' cx cy : Color}
  {d d' : Side} {t t' t'' a b e : RedBlack.Tree ℕ} {k : Path ℕ} {f : Frame ℕ}

/-! ### The fields after an assignment -/

namespace Mem

@[simp, grind =] theorem setParent_parent :
    (m.setParent p v).parent q = if q = p then v else m.parent q := by
  simp [setParent, Function.update_apply]

@[simp, grind =] theorem setParent_child : (m.setParent p v).child d q = m.child d q := rfl

@[simp, grind =] theorem setParent_color : (m.setParent p v).color q = m.color q := rfl

@[simp, grind =] theorem setParent_isnil : (m.setParent p v).isnil q = m.isnil q := rfl

@[simp, grind =] theorem setChild_child :
    (m.setChild d p v).child d' q = if d' = d ∧ q = p then v else m.child d' q := by
  by_cases hd : d' = d
  · subst hd
    simp [setChild, Function.update_apply]
  · simp [setChild, hd]

theorem setChild_self (h : m.child d p = v) : m.setChild d p v = m := by
  subst h
  simp [setChild]

@[simp, grind =] theorem setChild_parent : (m.setChild d p v).parent q = m.parent q := rfl

@[simp, grind =] theorem setChild_color : (m.setChild d p v).color q = m.color q := rfl

@[simp, grind =] theorem setChild_isnil : (m.setChild d p v).isnil q = m.isnil q := rfl

@[simp, grind =] theorem setColor_color :
    (m.setColor p c).color q = if q = p then c else m.color q := by
  simp [setColor, Function.update_apply]

@[simp, grind =] theorem setColor_parent : (m.setColor p c).parent q = m.parent q := rfl

@[simp, grind =] theorem setColor_child : (m.setColor p c).child d q = m.child d q := rfl

@[simp, grind =] theorem setColor_isnil : (m.setColor p c).isnil q = m.isnil q := rfl

@[simp, grind =] theorem setIsnil_isnil {b : Bool} :
    (m.setIsnil p b).isnil q = if q = p then b else m.isnil q := by
  simp [setIsnil, Function.update_apply]

@[simp, grind =] theorem setIsnil_parent {b : Bool} :
    (m.setIsnil p b).parent q = m.parent q := rfl

@[simp, grind =] theorem setIsnil_child {b : Bool} :
    (m.setIsnil p b).child d q = m.child d q := rfl

@[simp, grind =] theorem setIsnil_color {b : Bool} : (m.setIsnil p b).color q = m.color q := rfl

/-- Nothing differs at an address. -/
structure Agree (m m' : Mem) (q : ℕ) : Prop where
  parent : m'.parent q = m.parent q
  child : ∀ d, m'.child d q = m.child d q
  color : m'.color q = m.color q
  isnil : m'.isnil q = m.isnil q

theorem Agree.refl (m : Mem) (q : ℕ) : Agree m m q := ⟨rfl, fun _ => rfl, rfl, rfl⟩

theorem Agree.trans (h : Agree m m' q) (h' : Agree m' m'' q) : Agree m m'' q :=
  ⟨h'.parent.trans h.parent, fun d => (h'.child d).trans (h.child d),
    h'.color.trans h.color, h'.isnil.trans h.isnil⟩

end Mem

open Rbtree.Mem

/-! ### Linked nodes -/

/-- The pointer to a subtree. -/
def ptr (head : ℕ) : RedBlack.Tree ℕ → ℕ
  | .nil => head
  | .node p _ _ _ => p

/-- The nodes of a subtree are linked with each other and with the node above. -/
def Linked (m : Mem) (head : ℕ) : ℕ → RedBlack.Tree ℕ → Prop
  | _, .nil => True
  | par, .node p c l r =>
    m.parent p = par ∧ (m.left p = ptr head l ∧ m.right p = ptr head r) ∧
      (m.color p = c ∧ m.isnil p = false) ∧ Linked m head p l ∧ Linked m head p r

/-- The node above a place, where `top` is the one above the path. -/
def up (top : ℕ) : Path ℕ → ℕ
  | [] => top
  | f :: _ => f.label

/-- The nodes of a path below `top` are linked, and `sub` is the pointer at its place. -/
def LinkedPath (m : Mem) (head top : ℕ) : ℕ → Path ℕ → Prop
  | _, [] => True
  | sub, f :: k =>
    m.parent f.label = up top k ∧
      (m.child f.side f.label = sub ∧ m.child f.side.flip f.label = ptr head f.sibling) ∧
        (m.color f.label = f.color ∧ m.isnil f.label = false) ∧
          Linked m head f.label f.sibling ∧ LinkedPath m head top f.label k

theorem linked_fork : Linked m head par (.fork d p c a b) ↔
    m.parent p = par ∧ (m.child d p = ptr head a ∧ m.child d.flip p = ptr head b) ∧
      (m.color p = c ∧ m.isnil p = false) ∧ Linked m head p a ∧ Linked m head p b := by
  cases d
  · rfl
  · simp only [RedBlack.Tree.fork, Linked, Mem.left, Mem.right, Side.flip]
    tauto

@[simp] theorem ptr_fork : ptr head (.fork d p c a b) = p := by cases d <;> rfl

theorem ptr_cases (head : ℕ) (t : RedBlack.Tree ℕ) :
    t = .nil ∧ ptr head t = head ∨ ptr head t ∈ t.inorder := by
  cases t with
  | nil => exact .inl ⟨rfl, rfl⟩
  | node p c l r => exact .inr (by simp [ptr, RedBlack.Tree.inorder])

theorem up_cases (head : ℕ) (k : Path ℕ) :
    k = [] ∧ up head k = head ∨ up head k ∈ k.nodes := by
  cases k with
  | nil => exact .inl ⟨rfl, rfl⟩
  | cons f k => exact .inr (by simp [up, Path.nodes])

/-- Where nothing lies ahead on a side, the node above is the next one the other way. -/
theorem up_of_toward (h : k.toward d = []) : up head k = (d.tip (k.toward d.flip)).getD head := by
  cases k with
  | nil => cases d <;> rfl
  | cons f k =>
    have hf : f.side = d := Path.side_of_toward f k h
    subst hf
    rw [Path.tip_toward_flip]
    rfl

theorem ptr_plug_mem (head : ℕ) (t : RedBlack.Tree ℕ) (hk : k ≠ []) :
    ptr head (k.plug t) ∈ k.nodes := by
  induction k generalizing t with
  | nil => exact (hk rfl).elim
  | cons f k ih =>
    by_cases h : k = []
    · subst h
      simp [Path.plug, Path.nodes]
    · simp [Path.plug, Path.nodes, ih _ h]

theorem linked_plug : Linked m head top (k.plug t) ↔
    Linked m head (up top k) t ∧ LinkedPath m head top (ptr head t) k := by
  induction k generalizing t with
  | nil => simp [Path.plug, LinkedPath, up]
  | cons f k ih =>
    rw [Path.plug, ih, linked_fork, ptr_fork]
    simp only [LinkedPath, up]
    tauto

theorem Linked.congr (h : Linked m head par t) (ha : ∀ q ∈ t.inorder, Agree m m' q) :
    Linked m' head par t := by
  induction t generalizing par with
  | nil => trivial
  | node p c l r ihl ihr =>
    obtain ⟨hpar, ⟨hl, hr⟩, ⟨hc, hn⟩, hll, hlr⟩ := h
    have hp : Agree m m' p := ha p (by simp [RedBlack.Tree.inorder])
    refine ⟨hp.parent.trans hpar, ⟨(hp.child _).trans hl, (hp.child _).trans hr⟩,
      ⟨hp.color.trans hc, hp.isnil.trans hn⟩, ihl hll ?_, ihr hlr ?_⟩ <;>
    · intro q hq
      exact ha q (by simp [RedBlack.Tree.inorder, hq])

/-- A subtree that hangs somewhere else now. -/
theorem Linked.move (h : Linked m head par t) (hnd : t.inorder.Nodup)
    (hroot : t ≠ .nil → m'.parent (ptr head t) = par')
    (hp : ∀ q ∈ t.inorder, q ≠ ptr head t → m'.parent q = m.parent q)
    (hrest : ∀ q ∈ t.inorder, (∀ d, m'.child d q = m.child d q) ∧ m'.color q = m.color q ∧
      m'.isnil q = m.isnil q) : Linked m' head par' t := by
  cases t with
  | nil => trivial
  | node p c l r =>
    obtain ⟨_, ⟨hl, hr⟩, ⟨hc, hn⟩, hll, hlr⟩ := h
    have hp' := hrest p (by simp [RedBlack.Tree.inorder])
    have hmid := List.nodup_middle.mp hnd
    have hout : ∀ q ∈ l.inorder ++ r.inorder, Agree m m' q := by
      intro q hq
      have hmem : q ∈ (RedBlack.Tree.node p c l r).inorder :=
        List.perm_middle.mem_iff.mpr (List.mem_cons_of_mem p hq)
      have hne : q ≠ p := fun he => (List.nodup_cons.mp hmid).1 (he ▸ hq)
      exact ⟨hp q hmem hne, (hrest q hmem).1, (hrest q hmem).2.1, (hrest q hmem).2.2⟩
    exact ⟨hroot (by simp), ⟨(hp'.1 _).trans hl, (hp'.1 _).trans hr⟩,
      ⟨hp'.2.1.trans hc, hp'.2.2.trans hn⟩,
      hll.congr fun q hq => hout q (List.mem_append_left _ hq),
      hlr.congr fun q hq => hout q (List.mem_append_right _ hq)⟩

theorem LinkedPath.congr (h : LinkedPath m head top sub k) (ha : ∀ q ∈ k.nodes, Agree m m' q) :
    LinkedPath m' head top sub k := by
  induction k generalizing sub with
  | nil => trivial
  | cons f k ih =>
    obtain ⟨hpar, ⟨hl, hr⟩, ⟨hc, hn⟩, hs, hk⟩ := h
    have hf : Agree m m' f.label := ha _ (by simp [Path.nodes])
    exact ⟨hf.parent.trans hpar, ⟨(hf.child _).trans hl, (hf.child _).trans hr⟩,
      ⟨hf.color.trans hc, hf.isnil.trans hn⟩, hs.congr fun q hq => ha q (by simp [Path.nodes, hq]),
      ih hk fun q hq => ha q (by simp [Path.nodes, hq])⟩

/-- A path that leads to another subtree now: only the pointer above it has changed. -/
theorem LinkedPath.redirect (h : LinkedPath m head top sub k) (hnd : k.nodes.Nodup)
    (hout : ∀ q ∈ k.nodes, q ≠ up top k → Agree m m' q)
    (hup : ∀ f ∈ k.head?,
      (m'.parent f.label = m.parent f.label ∧ m'.color f.label = m.color f.label ∧
      m'.isnil f.label = m.isnil f.label) ∧ m'.child f.side f.label = sub' ∧
        m'.child f.side.flip f.label = m.child f.side.flip f.label) :
    LinkedPath m' head top sub' k := by
  cases k with
  | nil => trivial
  | cons f k =>
    obtain ⟨hpar, ⟨_, hr⟩, ⟨hc, hn⟩, hs, hk⟩ := h
    obtain ⟨⟨hp', hc', hn'⟩, hsub, hsib⟩ := hup f (by simp)
    have hrest : ∀ q ∈ f.sibling.inorder ++ Path.nodes k, Agree m m' q := by
      intro q hq
      apply hout q (List.mem_cons_of_mem _ hq)
      rintro rfl
      exact (List.nodup_cons.mp hnd).1 hq
    exact ⟨hp'.trans hpar, ⟨hsub, hsib.trans hr⟩, ⟨hc'.trans hc, hn'.trans hn⟩,
      hs.congr fun q hq => hrest q (List.mem_append_left _ hq),
      hk.congr fun q hq => hrest q (List.mem_append_right _ hq)⟩

theorem ptr_plug (hk : k ≠ []) : ptr head (k.plug t) = ptr head (k.plug t') := by
  induction k generalizing t t' with
  | nil => exact (hk rfl).elim
  | cons f k ih =>
    by_cases h : k = []
    · subst h
      simp [Path.plug]
    · exact ih h

/-! ### A tree in memory -/

/-- Below the head node lies the tree. -/
structure Holds (m : Mem) (head : ℕ) (t : RedBlack.Tree ℕ) : Prop where
  linked : Linked m head head t
  nodup : (head :: t.inorder).Nodup
  root : m.parent head = ptr head t
  color : m.color head = .BLACK
  isnil : m.isnil head = true

theorem Holds.nodup_plug (h : Holds m head (k.plug t)) :
    (head :: (t.inorder ++ k.nodes)).Nodup :=
  ((k.perm_plug t).cons head).nodup_iff.mp h.nodup

theorem Holds.place (h : Holds m head (k.plug t)) :
    Linked m head (up head k) t ∧ LinkedPath m head head (ptr head t) k :=
  linked_plug.mp h.linked

/-- The fields of a node of the tree. -/
theorem Holds.node (h : Holds m head (k.plug (.fork d p c a b))) :
    m.parent p = up head k ∧ (m.child d p = ptr head a ∧ m.child d.flip p = ptr head b) ∧
      m.color p = c ∧ m.isnil p = false := by
  obtain ⟨hpar, hch, hcol, _⟩ := linked_fork.mp h.place.1
  exact ⟨hpar, hch, hcol⟩

theorem Holds.parent_ptr (h : Holds m head (k.plug t)) (ht : t ≠ .nil) :
    m.parent (ptr head t) = up head k := by
  cases t with
  | nil => exact (ht rfl).elim
  | node p c l r => exact h.place.1.1

theorem Holds.color_ptr (h : Holds m head (k.plug t)) : m.color (ptr head t) = t.color := by
  cases t with
  | nil => exact h.color
  | node p c l r => exact h.place.1.2.2.1.1

theorem Holds.isnil_ptr (h : Holds m head (k.plug t)) :
    m.isnil (ptr head t) = true ↔ t = .nil := by
  cases t with
  | nil => exact iff_of_true h.isnil rfl
  | node p c l r =>
    have hn : m.isnil p = false := h.place.1.2.2.1.2
    simp [ptr, hn]

theorem Holds.color_up (h : Holds m head (k.plug t)) : m.color (up head k) = k.color := by
  cases k with
  | nil => exact h.color
  | cons f k => exact h.place.2.2.2.1.1

theorem Holds.root_ne (h : Holds m head (k.plug t)) (hk : k ≠ []) : ptr head t ≠ m.parent head := by
  have hmem := ptr_plug_mem head t hk
  obtain ⟨hh, hnd⟩ := List.nodup_cons.mp h.nodup_plug
  rw [h.root]
  intro he
  rcases ptr_cases head t with ⟨_, hnil⟩ | hin
  · exact hh (List.mem_append_right _ (hnil ▸ he ▸ hmem))
  · exact (List.nodup_append.mp hnd).2.2 _ (he ▸ hin) _ hmem rfl

theorem Holds.root_eq (h : Holds m head (k.plug t)) : m.parent head = ptr head t ↔ k = [] := by
  constructor
  · intro he
    by_contra hk
    exact h.root_ne hk he.symm
  · rintro rfl
    exact h.root

/-- The side of a frame shows in the fields of its node, unless both its children are empty. -/
theorem Holds.side (h : Holds m head (Path.plug t (f :: k))) (hne : t ≠ .nil ∨ f.sibling ≠ .nil) :
    ptr head t = m.child d f.label ↔ f.side = d := by
  obtain ⟨_, ⟨hsub, hsib⟩, _⟩ := h.place.2
  constructor
  · intro he
    by_contra hd
    have hd' : d = f.side.flip := (Side.eq_or_flip f.side d).resolve_left fun h => hd h.symm
    subst hd'
    have heq : ptr head t = ptr head f.sibling := he.trans hsib
    have hnd := h.nodup_plug
    simp only [Path.nodes, List.nodup_cons, List.nodup_append, List.mem_append, List.mem_cons,
      not_or] at hnd
    rcases ptr_cases head t with ⟨rfl, ht⟩ | ht <;>
      rcases ptr_cases head f.sibling with ⟨hs', hs⟩ | hs <;> grind
  · rintro rfl
    exact hsub.symm

theorem Holds.side_if (h : Holds m head (Path.plug t (f :: k)))
    (hne : t ≠ .nil ∨ f.sibling ≠ .nil) :
    (if ptr head t = m.left f.label then Side.left else Side.right) = f.side := by
  have hside := h.side (d := .left) hne
  simp only [Mem.left, hside]
  cases f.side <;> rfl

theorem Holds.congr (h : Holds m head t) (ha : ∀ q ∈ head :: t.inorder, Agree m m' q) :
    Holds m' head t := by
  have hh := ha head List.mem_cons_self
  exact ⟨h.linked.congr fun q hq => ha q (List.mem_cons_of_mem _ hq), h.nodup,
    hh.parent.trans h.root, hh.color.trans h.color, hh.isnil.trans h.isnil⟩

/-- The first and the last node are no links of the tree. -/
theorem Holds.setEnd (h : Holds m head t) (d : Side) (v : ℕ) :
    Holds (m.setChild d head v) head t := by
  refine ⟨h.linked.congr fun q hq => ?_, h.nodup, h.root, h.color, h.isnil⟩
  have hqh : q ≠ head := fun he => (List.nodup_cons.mp h.nodup).1 (he ▸ hq)
  exact ⟨rfl, fun d' => by simp [hqh], rfl, rfl⟩

/-- One tree has become another one of the same nodes in the same order: the head node keeps its
other fields, and nothing else in memory has changed. -/
structure Becomes (m : Mem) (head : ℕ) (t : RedBlack.Tree ℕ) (m' : Mem) (t' : RedBlack.Tree ℕ) :
    Prop where
  holds : Holds m' head t'
  inorder : t'.inorder = t.inorder
  ends : ∀ d, m'.child d head = m.child d head
  frame : ∀ q ∉ head :: t.inorder, Agree m m' q

theorem Becomes.refl (h : Holds m head t) : Becomes m head t m t :=
  ⟨h, rfl, fun _ => rfl, fun q _ => .refl m q⟩

theorem Becomes.trans (h : Becomes m head t m' t') (h' : Becomes m' head t' m'' t'') :
    Becomes m head t m'' t'' :=
  ⟨h'.holds, h'.inorder.trans h.inorder, fun d => (h'.ends d).trans (h.ends d),
    fun q hq => (h.frame q hq).trans (h'.frame q (h.inorder ▸ hq))⟩

/-! ### Rotations -/

theorem rotate_color : (rotate d m head x).color q = m.color q := by
  unfold rotate
  dsimp only
  split_ifs <;> rfl

theorem rotate_isnil : (rotate d m head x).isnil q = m.isnil q := by
  unfold rotate
  dsimp only
  split_ifs <;> rfl

theorem rotate_parent (hy : m.child d.flip x = y) (hb : m.child d y = v)
    (hxv : x ≠ v) (hyv : y ≠ v) (hyh : y ≠ head) (hh : m.isnil head = true) :
    (rotate d m head x).parent q =
      if q = x then y else if q = y then m.parent x
      else if q = head ∧ m.parent head = x then y
      else if q = v ∧ ¬ m.isnil v then x else m.parent q := by
  have hd := Side.ne_flip d
  unfold rotate
  grind

theorem rotate_child (hy : m.child d.flip x = y) (hb : m.child d y = v) (hxy : x ≠ y)
    (hxv : x ≠ v) (hyh : y ≠ head) (hpx : m.parent x ≠ x)
    (hh : m.isnil head = true) :
    (rotate d m head x).child d q =
      (if q = y then x
      else if m.parent head ≠ x ∧ q = m.parent x ∧ m.child d (m.parent x) = x then y
      else m.child d q) ∧
    (rotate d m head x).child d.flip q =
      if q = x then v
      else if m.parent head ≠ x ∧ q = m.parent x ∧ m.child d (m.parent x) ≠ x then y
      else m.child d.flip q := by
  have hd := Side.ne_flip d
  unfold rotate
  constructor <;> grind

/-- The node above gets the new root of the subtree as the child it had the old one. -/
theorem rotate_above (d' : Side) (hy : m.child d.flip x = y) (hb : m.child d y = v) (hxy : x ≠ y)
    (hxv : x ≠ v) (hyh : y ≠ head) (hpx : m.parent x ≠ x) (hpy : m.parent x ≠ y)
    (hh : m.isnil head = true) (hr : m.parent head ≠ x) (hs : m.child d' (m.parent x) = x)
    (hs' : m.child d'.flip (m.parent x) ≠ x) :
    (rotate d m head x).child d' (m.parent x) = y ∧
      (rotate d m head x).child d'.flip (m.parent x) = m.child d'.flip (m.parent x) := by
  have hchild := rotate_child (q := m.parent x) hy hb hxy hxv hyh hpx hh
  obtain rfl | rfl : d' = d ∨ d' = d.flip := Side.eq_or_flip d d'
  · simp [hchild, hpx, hpy, hr, hs]
  · rw [Side.flip_flip] at hs' ⊢
    simp [hchild, hpx, hpy, hr, hs']

/-- A rotation changes the two nodes, the subtree between them, and the pointer above. -/
theorem rotate_agree (hy : m.child d.flip x = y) (hb : m.child d y = v) (hxy : x ≠ y)
    (hxv : x ≠ v) (hyv : y ≠ v) (hyh : y ≠ head) (hpx : m.parent x ≠ x)
    (hh : m.isnil head = true) (hq : q ≠ x ∧ q ≠ y ∧ q ≠ m.parent x) :
    (∀ d', (rotate d m head x).child d' q = m.child d' q) ∧
      (q ≠ head → q ≠ v → Agree m (rotate d m head x) q) := by
  obtain ⟨hqx, hqy, hqu⟩ := hq
  have hparent := rotate_parent (q := q) hy hb hxv hyv hyh hh
  have hchild := rotate_child (q := q) hy hb hxy hxv hyh hpx hh
  have hboth : ∀ d', (rotate d m head x).child d' q = m.child d' q := by
    intro d'
    obtain rfl | rfl : d' = d ∨ d' = d.flip := Side.eq_or_flip d d'
    · simp [hchild.1, hqy, hqu]
    · simp [hchild.2, hqx, hqu]
  refine ⟨hboth, fun hqh hqv => ⟨?_, hboth, rotate_color, rotate_isnil⟩⟩
  simp [hparent, hqx, hqy, hqh, hqv]

theorem rotate_becomes (h : Holds m head (k.plug (.fork d x cx a (.fork d y cy b e)))) :
    Becomes m head (k.plug (.fork d x cx a (.fork d y cy b e))) (rotate d m head x)
      (k.plug (.fork d y cy (.fork d x cx a b) e)) := by
  obtain ⟨hlx, hk⟩ := h.place
  obtain ⟨hpx, ⟨hxa, hxy⟩, ⟨hcx, hnx⟩, hla, hly⟩ := linked_fork.mp hlx
  obtain ⟨hpy, ⟨hyb, hye⟩, ⟨hcy, hny⟩, hlb, hle⟩ := linked_fork.mp hly
  rw [ptr_fork] at hxy hk
  have hroot := h.root_eq
  rw [ptr_fork] at hroot
  have hnd := h.nodup_plug
  have hperm : (RedBlack.Tree.fork d x cx a (.fork d y cy b e)).inorder.Perm
      (x :: (a.inorder ++ (y :: (b.inorder ++ e.inorder)))) :=
    RedBlack.Tree.perm_fork.trans ((RedBlack.Tree.perm_fork.append_left _).cons x)
  rw [((hperm.append_right k.nodes).cons head).nodup_iff] at hnd
  simp only [List.nodup_cons, List.nodup_append, List.mem_cons, List.mem_append, not_or,
    List.cons_append, ne_eq] at hnd
  have hisnil := h.isnil
  have hb := ptr_cases head b
  have hu := up_cases head k
  obtain ⟨hh, hx, ⟨ha, ⟨hy, hbn, hen, hbe⟩, hay⟩, hkn, hkd⟩ := hnd
  clear hlx hly
  have hne : x ≠ y ∧ x ≠ ptr head b ∧ y ≠ ptr head b ∧ y ≠ head ∧ m.parent x ≠ x := by
    grind
  obtain ⟨hxy', hxv, hyv, hyh, hux⟩ := hne
  have hagree := fun q => rotate_agree (q := q) hxy hyb hxy' hxv hyv hyh hux h.isnil
  have hparent := fun q => rotate_parent (q := q) hxy hyb hxv hyv hyh h.isnil
  have hchild := fun q => rotate_child (q := q) hxy hyb hxy' hxv hyh hux h.isnil
  have hinorder : (k.plug (.fork d y cy (.fork d x cx a b) e)).inorder =
      (k.plug (.fork d x cx a (.fork d y cy b e))).inorder := by
    rw [Path.inorder_plug, Path.inorder_plug, RedBlack.Tree.inorder_rotate]
  refine ⟨⟨linked_plug.mpr ⟨?_, ?_⟩, ?_, ?_, ?_, ?_⟩, hinorder, ?_, ?_⟩
  · rw [linked_fork, linked_fork]
    have ha : Linked (rotate d m head x) head x a :=
      hla.congr fun q hq => (hagree q (by grind)).2 (by grind) (by grind)
    have he : Linked (rotate d m head x) head y e :=
      hle.congr fun q hq => (hagree q (by grind)).2 (by grind) (by grind)
    have hb : Linked (rotate d m head x) head x b := by
      apply hlb.move hbn
      · intro hne
        have hn : m.isnil (ptr head b) = false := by
          cases b with
          | nil => exact (hne rfl).elim
          | node p c l r => exact hlb.2.2.1.2
        rw [hparent, if_neg hxv.symm, if_neg hyv.symm, if_neg (by grind), if_pos (by simp [hn])]
      · intro q hq hqv
        rw [hparent, if_neg (by grind), if_neg (by grind), if_neg (by grind), if_neg (by grind)]
      · intro q hq
        exact ⟨(hagree q (by grind)).1, rotate_color, rotate_isnil⟩
    refine ⟨?_, ⟨?_, ?_⟩, ⟨rotate_color.trans hcy, rotate_isnil.trans hny⟩,
      ⟨?_, ⟨?_, ?_⟩, ⟨rotate_color.trans hcx, rotate_isnil.trans hnx⟩, ha, hb⟩, he⟩
    · rw [hparent, if_neg hxy'.symm, if_pos rfl, hpx]
    · rw [(hchild y).1, if_pos rfl, ptr_fork]
    · rw [(hchild y).2, if_neg hxy'.symm, if_neg (by grind), hye]
    · rw [hparent, if_pos rfl]
    · rw [(hchild x).1, if_neg hxy', if_neg (by grind), hxa]
    · rw [(hchild x).2, if_pos rfl]
  · rw [ptr_fork]
    apply hk.redirect hkn
    · intro q hq hqu
      exact (hagree q (by grind)).2 (by grind) (by grind)
    · intro f hf
      obtain ⟨k', rfl⟩ := List.head?_eq_some_iff.mp hf
      have hside : ptr head (.fork d x cx a (.fork d y cy b e)) = m.child d f.label ↔ f.side = d :=
        h.side (.inl RedBlack.Tree.fork_ne_nil)
      rw [ptr_fork] at hside
      have hf : f.label ∈ Path.nodes (f :: k') := by simp [Path.nodes]
      have huf : f.label = m.parent x := hpx.symm
      have hf' : f.label ≠ x ∧ f.label ≠ y ∧ f.label ≠ head ∧ f.label ≠ ptr head b := by
        grind
      obtain ⟨hfx, hfy, hfh, hfv⟩ := hf'
      have hsides : m.child f.side f.label = x ∧ m.child f.side.flip f.label ≠ x := by
        have h1 := h.side (d := f.side) (.inl RedBlack.Tree.fork_ne_nil)
        have h2 := h.side (d := f.side.flip) (.inl RedBlack.Tree.fork_ne_nil)
        simp only [ptr_fork, iff_true, Side.ne_flip, iff_false] at h1 h2
        exact ⟨h1.symm, fun he => h2 he.symm⟩
      have habove := rotate_above f.side hxy hyb hxy' hxv hyh hux (by grind)
        h.isnil (by simp [hroot]) (by grind) (by grind)
      rw [← huf] at habove
      refine ⟨⟨?_, rotate_color, rotate_isnil⟩, habove⟩
      simp [hparent, hfx, hfy, hfh, hfv]
  · rw [hinorder]
    exact h.nodup
  · rw [hparent, if_neg (by grind), if_neg (by grind)]
    by_cases hk : k = []
    · subst hk
      simp [Path.plug, hroot]
    · rw [if_neg (by simp [hroot, hk]), if_neg (by simp; grind), h.root]
      exact ptr_plug hk
  · exact rotate_color.trans h.color
  · exact rotate_isnil.trans h.isnil
  · intro d'
    by_cases hk : k = []
    · obtain rfl | rfl : d' = d ∨ d' = d.flip := Side.eq_or_flip d d'
      · rw [(hchild head).1, if_neg hyh.symm, if_neg (by simp [hroot, hk])]
      · rw [(hchild head).2, if_neg hh.1, if_neg (by simp [hroot, hk])]
    · exact (hagree head (by grind)).1 d'
  · intro q hq
    rw [List.mem_cons, not_or, (Path.perm_plug _ _).mem_iff, List.mem_append, (hperm).mem_iff] at hq
    have hq' : (q ≠ x ∧ q ≠ y ∧ q ≠ m.parent x) ∧ q ≠ ptr head b := by grind
    exact (hagree q hq'.1).2 hq.1 hq'.2
/-! ### Colors -/

theorem setColor_self (h : m.color p = c) : m.setColor p c = m := by
  subst h
  simp [setColor]

theorem recolor_becomes (h : Holds m head (k.plug (.fork d p c a b))) (c' : Color) :
    Becomes m head (k.plug (.fork d p c a b)) (m.setColor p c') (k.plug (.fork d p c' a b)) := by
  obtain ⟨hl, hk⟩ := h.place
  obtain ⟨hpar, hch, ⟨_, hn⟩, hla, hlb⟩ := linked_fork.mp hl
  have hnd := h.nodup_plug
  rw [((RedBlack.Tree.perm_fork.append_right k.nodes).cons head).nodup_iff] at hnd
  simp only [List.nodup_cons, List.mem_cons, List.mem_append, not_or, List.cons_append] at hnd
  obtain ⟨⟨hh, _⟩, ⟨⟨ha, hb⟩, hkn⟩, _⟩ := hnd
  have hagree : ∀ q, q ≠ p → Agree m (m.setColor p c') q :=
    fun q hq => ⟨rfl, fun _ => rfl, by simp [hq], rfl⟩
  have hinorder : (k.plug (.fork d p c' a b)).inorder = (k.plug (.fork d p c a b)).inorder := by
    rw [Path.inorder_plug, Path.inorder_plug, RedBlack.Tree.inorder_recolor]
  refine ⟨⟨linked_plug.mpr ⟨?_, ?_⟩, ?_, ?_, ?_, h.isnil⟩, hinorder, fun _ => rfl, ?_⟩
  · exact linked_fork.mpr ⟨hpar, hch, ⟨by simp, hn⟩,
      hla.congr fun q hq => hagree q fun he => ha (he ▸ hq),
      hlb.congr fun q hq => hagree q fun he => hb (he ▸ hq)⟩
  · rw [ptr_fork] at hk ⊢
    exact hk.congr fun q hq => hagree q fun he => hkn (he ▸ hq)
  · rw [hinorder]
    exact h.nodup
  · by_cases hk : k = []
    · subst hk
      simpa [Path.plug] using h.root
    · exact h.root.trans (ptr_plug hk)
  · simpa [hh] using h.color
  · intro q hq
    apply hagree
    rintro rfl
    exact hq (List.mem_cons_of_mem _ ((k.perm_plug _).mem_iff.mpr
      (List.mem_append_left _ (RedBlack.Tree.mem_inorder_fork.mpr (.inl rfl)))))

theorem blacken_becomes (h : Holds m head t) :
    Becomes m head t (m.setColor (m.parent head) .BLACK) t.blacken := by
  rw [h.root]
  cases t with
  | nil =>
    rw [setColor_self (p := ptr head .nil) h.color]
    exact .refl h
  | node p c l r => exact recolor_becomes (k := []) (d := .left) h .BLACK

/-- The lower one of two nodes gets another color. -/
theorem recolor_below (h : Holds m head (k.plug (.fork d x cx a (.fork d' y cy b e))))
    (c' : Color) :
    Becomes m head (k.plug (.fork d x cx a (.fork d' y cy b e))) (m.setColor y c')
      (k.plug (.fork d x cx a (.fork d' y c' b e))) := by
  have hplug : ∀ c, k.plug (.fork d x cx a (.fork d' y c b e)) =
      Path.plug (.fork d' y c b e) (⟨d.flip, x, cx, a⟩ :: k) :=
    fun c => (Path.plug_far _ _).symm
  rw [hplug] at h ⊢
  rw [hplug]
  exact recolor_becomes h c'

/-- Two nodes get their colors and turn around. -/
theorem turn_becomes (h : Holds m head (k.plug (.fork d x cx a (.fork d y cy b e))))
    (c c' : Color) :
    Becomes m head (k.plug (.fork d x cx a (.fork d y cy b e)))
      (rotate d ((m.setColor y c).setColor x c') head x)
      (k.plug (.fork d y c (.fork d x c' a b) e)) := by
  have hy := recolor_below h c
  have hx := recolor_becomes (d := d) hy.holds c'
  exact (hy.trans hx).trans (rotate_becomes hx.holds)

/-! ### Sound trees -/

/-- A tree of `rbtree.c` as it should be: a red-black tree in memory, with its ends and its
number of nodes. -/
structure Sound (rb : Tree) (t : RedBlack.Tree ℕ) : Prop where
  holds : Holds rb.mem rb.head t
  ends : ∀ d, rb.mem.child d rb.head = (d.tip t.inorder).getD rb.head
  size : rb.size = t.inorder.length
  root : t.color = .BLACK
  balanced : ∃ n, t.Balanced n

theorem Sound.congr {rb : Tree} (h : Sound rb t)
    (ha : ∀ q ∈ rb.head :: t.inorder, Agree rb.mem m' q) : Sound { rb with mem := m' } t :=
  ⟨h.holds.congr ha, fun d => ((ha _ List.mem_cons_self).child d).trans (h.ends d), h.size, h.root,
    h.balanced⟩

end Zrhos.Rbtree
