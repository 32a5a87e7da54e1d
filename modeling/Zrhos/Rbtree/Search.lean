import Zrhos.Rbtree.Links
import Zrhos.Lib.OrderedBag

/-! The ways through a tree: `node_next` and `node_prev` go to the neighbours in its order, the
bounds and `rb_find` find what a search of the ordered nodes finds. -/
namespace Zrhos.Rbtree
open RedBlack RedBlack.Tree

variable {m : Mem} {head p q fuel : ℕ} {c : Color} {d : Side} {t l r : RedBlack.Tree ℕ}
  {k : Path ℕ}

/-! ### Neighbours -/

/-- `node_min` and `node_max` find the end of a subtree. -/
theorem nodeEnd_eq (h : Holds m head (k.plug t)) (ht : t ≠ .nil) (hfuel : t.height ≤ fuel) :
    nodeEnd d m fuel (ptr head t) = some ((d.tip t.inorder).getD head) := by
  induction fuel generalizing t k with
  | zero =>
    cases t with
    | nil => exact (ht rfl).elim
    | node p c l r => simp [height] at hfuel
  | succ fuel ih =>
    obtain ⟨p, c, a, b, rfl⟩ := exists_fork d ht
    obtain ⟨_, ⟨hch, _⟩, _⟩ := h.node
    have ha : Holds m head (Path.plug a (⟨d, p, c, b⟩ :: k)) := h
    rw [ptr_fork, nodeEnd, hch, tip_fork]
    by_cases hnil : a = .nil
    · subst hnil
      rw [if_pos (ha.isnil_ptr.mpr rfl)]
      simp [inorder]
    · rw [height_fork] at hfuel
      rw [if_neg (mt ha.isnil_ptr.mp hnil), ih ha hnil (by omega)]
      obtain ⟨z, hz⟩ : ∃ z, d.tip a.inorder = some z := by
        rw [← Option.isSome_iff_exists, Option.isSome_iff_ne_none]
        simpa using hnil
      simp [hz]

/-- The loop of `node_next` and `node_prev` stops below the nearest node on the other side. -/
theorem climb_eq (h : Holds m head (k.plug t)) (ht : t ≠ .nil) (hfuel : k.length < fuel) :
    ∃ node, m.isnil node = false ∧
      climb d m fuel (ptr head t) = some (node, (d.flip.tip (k.toward d)).getD head) := by
  induction fuel generalizing t k with
  | zero => cases hfuel
  | succ fuel ih =>
    have hpar := h.parent_ptr ht
    have hn : m.isnil (ptr head t) = false := by
      simpa using mt h.isnil_ptr.mp ht
    cases k with
    | nil =>
      refine ⟨ptr head t, hn, ?_⟩
      have hhead : m.isnil (m.parent (ptr head t)) = true := by
        rw [hpar]
        exact h.isnil
      rw [climb, if_neg (by simp [hhead]), hpar]
      cases d <;> rfl
    | cons f k =>
      have hf : m.isnil f.label = false := h.place.2.2.2.1.2
      have hside := h.side (d := d) (.inl ht)
      rw [up] at hpar
      rw [climb, hpar]
      by_cases hd : f.side = d
      · obtain ⟨node, hnode, hcl⟩ := ih (t := Tree.fork f.side f.label f.color t f.sibling) (k := k)
          h fork_ne_nil (by simpa using hfuel)
        refine ⟨node, hnode, ?_⟩
        rw [if_pos ⟨by simp [hf], hside.mpr hd⟩]
        rw [ptr_fork] at hcl
        subst hd
        rw [hcl, Path.toward_side]
      · refine ⟨ptr head t, hn, ?_⟩
        have hd' : f.side = d.flip := (Side.eq_or_flip d f.side).resolve_left hd
        have htip := Path.tip_toward_flip f k
        rw [hd', Side.flip_flip] at htip
        rw [if_neg fun hc => hd (hside.mp hc.2), htip]
        rfl

variable {xs ys : List ℕ}

theorem nodeNext_eq (h : Holds m head t) (ht : t.inorder = xs ++ p :: ys)
    (hfuel : t.height ≤ fuel) : nodeNext m fuel p = some (ys.head?.getD head) := by
  obtain ⟨c, l, r, k, rfl, -, rfl⟩ := Path.exists_split ht (List.nodup_cons.mp h.nodup).2
  have hheight := (Path.length_le_height (.node p c l r) k).trans hfuel
  simp only [height] at hheight
  obtain ⟨_, ⟨_, hr⟩, _⟩ := h.node (d := .left)
  have hplace : Holds m head (Path.plug r (⟨.right, p, c, l⟩ :: k)) := h
  have hright : m.right p = ptr head r := hr
  have hlt : k.length < fuel := by omega
  rw [nodeNext, hright]
  by_cases hnil : r = .nil
  · subst hnil
    obtain ⟨node, _, hcl⟩ := climb_eq (d := .right) h (by simp) hlt
    rw [if_pos (hplace.isnil_ptr.mpr rfl)]
    have hcl' : climb .right m fuel p = some (node, (k.after.head?).getD head) := hcl
    simp [hcl', inorder]
  · rw [if_neg (mt hplace.isnil_ptr.mp hnil), nodeMin, nodeEnd_eq hplace hnil (by omega)]
    cases hrl : r.inorder with
    | nil => simp [hnil] at hrl
    | cons z zs => rfl

theorem nodePrev_eq (h : Holds m head t) (ht : t.inorder = xs ++ p :: ys)
    (hfuel : t.height ≤ fuel) : nodePrev m fuel p = some (xs.getLast?.getD head) := by
  obtain ⟨c, l, r, k, rfl, rfl, -⟩ := Path.exists_split ht (List.nodup_cons.mp h.nodup).2
  have hheight := (Path.length_le_height (.node p c l r) k).trans hfuel
  simp only [height] at hheight
  obtain ⟨_, ⟨hl, _⟩, _, hn⟩ := h.node (d := .left)
  have hplace : Holds m head (Path.plug l (⟨.left, p, c, r⟩ :: k)) := h
  have hlt : k.length < fuel := by omega
  rw [nodePrev, if_neg (by simp [hn]), Mem.left, hl]
  by_cases hnil : l = .nil
  · subst hnil
    obtain ⟨node, hnode, hcl⟩ := climb_eq (d := .left) h (by simp) hlt
    rw [if_pos (hplace.isnil_ptr.mpr rfl)]
    have hcl' : climb .left m fuel p = some (node, (k.before.getLast?).getD head) := hcl
    simp [hcl', hnode, inorder]
  · rw [if_neg (mt hplace.isnil_ptr.mp hnil), nodeMax, nodeEnd_eq hplace hnil (by omega)]
    obtain ⟨z, hz⟩ : ∃ z, Side.right.tip l.inorder = some z := by
      rw [← Option.isSome_iff_exists, Option.isSome_iff_ne_none]
      simpa using hnil
    rw [hz, List.getLast?_append, show l.inorder.getLast? = some z from hz]
    rfl

/-- In front of the head node stands the last node. -/
theorem nodePrev_head (h : Holds m head t) : nodePrev m fuel head = some (m.right head) := by
  rw [nodePrev, if_pos h.isnil]

/-! ### Bounds -/

/-- The nodes in front of a bound stand together at the start. -/
def Cut (after : ℕ → Bool) (xs : List ℕ) : Prop := xs.Pairwise fun a b => after b → after a

variable {after : ℕ → Bool} {comp : Comp} {val parent : ℕ}

theorem Cut.find?_after (h : Cut after (xs ++ p :: ys)) (hp : after p = true) :
    (xs ++ p :: ys).find? (fun q => !after q) = ys.find? fun q => !after q := by
  have hxs : ∀ q ∈ xs, after q = true := fun q hq =>
    (List.pairwise_append.mp h).2.2 q hq p List.mem_cons_self hp
  rw [List.find?_append, List.find?_eq_none.mpr (by simpa using hxs)]
  simp [hp]

theorem Cut.find?_before (hp : after p = false) :
    (xs ++ p :: ys).find? (fun q => !after q) = (xs.find? fun q => !after q).or (some p) := by
  simp [List.find?_append, hp]

theorem Cut.parts (h : Cut after (xs ++ p :: ys)) : Cut after xs ∧ Cut after ys :=
  ⟨(List.pairwise_append.mp h).1, (List.pairwise_cons.mp (List.pairwise_append.mp h).2.1).2⟩

/-- The loop of `impl_lbnd` and `impl_ubnd` finds the first node that does not lie in front of
the bound. -/
theorem bound_eq (parent : ℕ) (h : Holds m head (k.plug t)) (hcut : Cut after t.inorder)
    (hfuel : t.height < fuel) : bound after m fuel parent (ptr head t) =
      some ((t.inorder.find? fun q => !after q).getD parent) := by
  induction fuel generalizing t k parent with
  | zero => cases hfuel
  | succ fuel ih =>
    rw [bound]
    cases t with
    | nil =>
      rw [if_pos (h.isnil_ptr.mpr rfl)]
      rfl
    | node p c l r =>
      obtain ⟨_, ⟨hl, hr⟩, _⟩ := h.node (d := .left)
      have hleft : Holds m head (Path.plug l (⟨.left, p, c, r⟩ :: k)) := h
      have hright : Holds m head (Path.plug r (⟨.right, p, c, l⟩ :: k)) := h
      simp only [height] at hfuel
      rw [if_neg (mt h.isnil_ptr.mp (by simp)), inorder, ptr]
      cases hp : after p with
      | true =>
        have hr' : m.right p = ptr head r := hr
        rw [if_pos rfl, hr', ih _ hright hcut.parts.2 (by omega), hcut.find?_after hp]
      | false =>
        have hl' : m.left p = ptr head l := hl
        rw [if_neg (by simp), hl', ih _ hleft hcut.parts.1 (by omega), Cut.find?_before hp]
        simp

theorem Cut.filter_after (h : Cut after (xs ++ p :: ys)) (hp : after p = true) :
    (xs ++ p :: ys).filter after = xs ++ p :: ys.filter after ∧
      (xs ++ p :: ys).filter (fun q => !after q) = ys.filter fun q => !after q := by
  have hxs : ∀ q ∈ xs, after q = true := fun q hq =>
    (List.pairwise_append.mp h).2.2 q hq p List.mem_cons_self hp
  have hout : xs.filter (fun q => !after q) = [] := by simpa using hxs
  rw [List.filter_append, List.filter_append, List.filter_eq_self.mpr hxs, hout]
  simp [hp]

theorem Cut.filter_before (h : Cut after (xs ++ p :: ys)) (hp : after p = false) :
    (xs ++ p :: ys).filter after = xs.filter after ∧
      (xs ++ p :: ys).filter (fun q => !after q) = (xs.filter fun q => !after q) ++ p :: ys := by
  have hys : ∀ q ∈ ys, after q = false := by
    intro q hq
    by_contra hne
    rw [(List.pairwise_cons.mp (List.pairwise_append.mp h).2.1).1 q hq (by simpa using hne)] at hp
    cases hp
  have hout : ys.filter after = [] := by simpa using hys
  have hin : ys.filter (fun q => !after q) = ys := by
    rw [List.filter_eq_self]
    simpa using hys
  simp [List.filter_append, hp, hout, hin]

/-- The loop of `rb_insert_node` comes to the empty place between the nodes in front of the
bound and those behind it. -/
theorem descend_eq {goleft : ℕ → Bool} (addleft : Bool) (h : Holds m head (k.plug t))
    (hcut : Cut (fun q => !goleft q) t.inorder) (hfuel : t.height < fuel)
    (hside : ∀ f ∈ k.head?, addleft = decide (f.side = .left)) :
    ∃ k' al, descend goleft m fuel (up head k) addleft (ptr head t) = some (up head k', al) ∧
      Path.plug .nil k' = k.plug t ∧ (∀ f ∈ k'.head?, al = decide (f.side = .left)) ∧
      Path.before k' = k.before ++ t.inorder.filter (fun q => !goleft q) ∧
      Path.after k' = t.inorder.filter goleft ++ k.after := by
  induction fuel generalizing t k addleft with
  | zero => cases hfuel
  | succ fuel ih =>
    rw [descend]
    cases t with
    | nil =>
      rw [if_pos (h.isnil_ptr.mpr rfl)]
      exact ⟨k, addleft, rfl, rfl, hside, by simp [inorder], by simp [inorder]⟩
    | node p c l r =>
      obtain ⟨_, ⟨hl, hr⟩, _⟩ := h.node (d := .left)
      have hleft : Holds m head (Path.plug l (⟨.left, p, c, r⟩ :: k)) := h
      have hright : Holds m head (Path.plug r (⟨.right, p, c, l⟩ :: k)) := h
      simp only [height] at hfuel
      rw [if_neg (mt h.isnil_ptr.mp (by simp)), ptr]
      simp only [inorder] at hcut ⊢
      cases hp : goleft p with
      | true =>
        have hl' : m.left p = ptr head l := hl
        obtain ⟨hfront, hback⟩ := hcut.filter_before (by simp [hp])
        obtain ⟨k', al, hdesc, hplug, hal, hb, ha⟩ := ih true hleft hcut.parts.1
          (by omega) (by simp)
        simp only [Bool.not_not] at hback
        refine ⟨k', al, ?_, hplug, hal, ?_, ?_⟩
        · rw [← hdesc]
          simp [hl', up]
        · rw [hb, hfront]
          rfl
        · rw [ha, hback]
          simp [Path.after]
      | false =>
        have hr' : m.right p = ptr head r := hr
        obtain ⟨hfront, hback⟩ := hcut.filter_after (by simp [hp])
        obtain ⟨k', al, hdesc, hplug, hal, hb, ha⟩ := ih false hright hcut.parts.2
          (by omega) (by simp)
        simp only [Bool.not_not] at hback
        refine ⟨k', al, ?_, hplug, hal, ?_, ?_⟩
        · rw [← hdesc]
          simp [hr', up]
        · rw [hb, hfront]
          simp [Path.before]
        · rw [ha, hback]
          rfl

/-- The nodes of the tree are in the order of the compare function. -/
structure Ordered {κ : Type} [LinearOrder κ] (comp : Comp) (key : ℕ → κ) (xs : List ℕ) : Prop where
  comp : ∀ a b, comp a b = decide (key a < key b)
  sorted : xs.Pairwise fun a b => key a ≤ key b

section Order
variable {κ : Type} [LinearOrder κ] {key : ℕ → κ}

theorem Ordered.cut_lower (h : Ordered comp key xs) (val : ℕ) :
    Cut (fun q => comp q val) xs := by
  apply h.sorted.imp
  intro a b hab hb
  simp only [h.comp, decide_eq_true_iff] at hb ⊢
  exact hab.trans_lt hb

theorem Ordered.cut_upper (h : Ordered comp key xs) (val : ℕ) :
    Cut (fun q => !comp val q) xs := by
  apply h.sorted.imp
  intro a b hab hb
  simp only [h.comp, Bool.not_eq_true', decide_eq_false_iff_not, not_lt] at hb ⊢
  exact hab.trans hb

/-- `rb_lbnd` finds the first node that is not less. -/
theorem lbnd_eq (val : ℕ) (h : Holds m head t) (ho : Ordered comp key t.inorder)
    (hfuel : t.height < fuel) :
    lbnd comp m head fuel val = some ((t.inorder.find? fun q => key val ≤ key q).getD head) := by
  have hcut := ho.cut_lower val
  rw [lbnd, h.root, bound_eq (k := []) head h hcut hfuel]
  simp [ho.comp, ← decide_not]

/-- `rb_ubnd` finds the first node that is greater. -/
theorem ubnd_eq (val : ℕ) (h : Holds m head t) (ho : Ordered comp key t.inorder)
    (hfuel : t.height < fuel) :
    ubnd comp m head fuel val = some ((t.inorder.find? fun q => key val < key q).getD head) := by
  have hcut := ho.cut_upper val
  rw [ubnd, h.root, bound_eq (k := []) head h hcut hfuel]
  simp [ho.comp]

/-- `rb_find` finds the first node with the key; the head node stands for none. -/
theorem rbFind_eq {rb : Tree} (val : ℕ) (h : Holds rb.mem rb.head t)
    (ho : Ordered comp key t.inorder)
    (hfuel : t.height < fuel) :
    rbFind comp rb fuel val = some ((t.inorder.find? fun q => key q = key val).getD rb.head) := by
  have hsorted : OrderedBag.Sorted key t.inorder := ho.sorted
  rw [rbFind, lbnd_eq val h ho hfuel, hsorted.find?_key]
  cases hz : t.inorder.find? fun q => key val ≤ key q with
  | none => simp
  | some z =>
    have hmem : z ∈ t.inorder := List.mem_of_find?_eq_some hz
    have hle : key val ≤ key z := by simpa using List.find?_some hz
    have hne : z ≠ rb.head := fun he => (List.nodup_cons.mp h.nodup).1 (he ▸ hmem)
    rcases hle.lt_or_eq with hlt | heq
    · simp [Option.filter, ho.comp, hlt, hlt.ne']
    · simp [Option.filter, ho.comp, heq, hne]

/-- The upper bound lies in the left subtree of a node that `impl_eqrange` has come by, or is
the node. -/
structure Upper (m : Mem) (head : ℕ) (key : ℕ → κ) (val : ℕ) (t whole : RedBlack.Tree ℕ)
    (last : ℕ) : Prop where
  mem : last ∈ t.inorder
  greater : key val < key last
  left : ∃ l k, Path.plug l k = whole ∧ m.left last = ptr head l ∧ l.height < t.height ∧
    l.inorder.Sublist t.inorder ∧
      t.inorder.find? (fun q => key val < key q) =
        some ((l.inorder.find? fun q => key val < key q).getD last)

theorem Upper.widen {whole : RedBlack.Tree ℕ} {last : ℕ} {t s : RedBlack.Tree ℕ}
    (h : Upper m head key val s whole last)
    (hheight : s.height ≤ t.height) (hsub : s.inorder.Sublist t.inorder)
    (hfind :
      t.inorder.find? (fun q => key val < key q) = s.inorder.find? fun q => key val < key q) :
    Upper m head key val t whole last := by
  obtain ⟨l, k, hplug, hl, hh, hs, hf⟩ := h.left
  exact ⟨hsub.subset h.mem, h.greater, l, k, hplug, hl, hh.trans_le hheight, hs.trans hsub,
    hfind.trans hf⟩

theorem Ordered.parts (h : Ordered comp key (xs ++ p :: ys)) :
    Ordered comp key xs ∧ Ordered comp key ys ∧
      (∀ q ∈ xs, key q ≤ key p) ∧ ∀ q ∈ ys, key p ≤ key q := by
  obtain ⟨hxs, hpys, hcross⟩ := List.pairwise_append.mp h.sorted
  obtain ⟨hp, hys⟩ := List.pairwise_cons.mp hpys
  exact ⟨⟨h.comp, hxs⟩, ⟨h.comp, hys⟩, fun q hq => hcross q hq p List.mem_cons_self, hp⟩

/-- The first loop of `impl_eqrange`: the lower bound, and where to look for the upper one. -/
theorem eqrangeLoop_eq (val first last : ℕ) (h : Holds m head (k.plug t))
    (ho : Ordered comp key t.inorder) (hfuel : t.height < fuel) :
    ∃ last', eqrangeLoop comp m val fuel first last (ptr head t) =
        some ((t.inorder.find? fun q => key val ≤ key q).getD first, last') ∧
      (m.isnil last = false → last' = last) ∧
      (m.isnil last = true → last' = last ∨ Upper m head key val t (k.plug t) last') := by
  induction fuel generalizing t k first last with
  | zero => cases hfuel
  | succ fuel ih =>
    rw [eqrangeLoop]
    cases t with
    | nil =>
      rw [if_pos (h.isnil_ptr.mpr rfl)]
      exact ⟨last, rfl, fun _ => rfl, fun _ => .inl rfl⟩
    | node p c l r =>
      obtain ⟨_, ⟨hl, hr⟩, _, hn⟩ := h.node (d := .left)
      have hleft : Holds m head (Path.plug l (⟨.left, p, c, r⟩ :: k)) := h
      have hright : Holds m head (Path.plug r (⟨.right, p, c, l⟩ :: k)) := h
      have hl' : m.left p = ptr head l := hl
      have hr' : m.right p = ptr head r := hr
      simp only [height] at hfuel
      simp only [inorder] at ho ⊢
      obtain ⟨hol, hor, hlow, hhigh⟩ := ho.parts
      rw [if_neg (mt h.isnil_ptr.mp (by simp)), ptr, ho.comp, ho.comp, hl', hr']
      by_cases hlt : key p < key val
      · -- the node lies in front of both bounds
        have hfront : ∀ q ∈ l.inorder ++ [p], key q < key val := by
          intro q hq
          rcases List.mem_append.mp hq with hq | hq
          · exact (hlow q hq).trans_lt hlt
          · rwa [List.mem_singleton.mp hq]
        have hfind : ∀ f : ℕ → Bool, (∀ q, key q < key val → f q = false) →
            (l.inorder ++ p :: r.inorder).find? f = r.inorder.find? f := by
          intro f hf
          rw [List.append_cons, List.find?_append, List.find?_eq_none.mpr]
          · rfl
          · intro q hq
            simp [hf q (hfront q hq)]
        obtain ⟨last', hloop, hkeep, hfresh⟩ := ih first last hright hor (by omega)
        refine ⟨last', ?_, hkeep, fun hnil => (hfresh hnil).imp_right fun hup => ?_⟩
        · rw [if_pos (by simpa using hlt), hloop, hfind _ (by simp)]
        · apply hup.widen
          · simp only [height]
            omega
          · exact (List.sublist_cons_self p _).trans (List.sublist_append_right _ _)
          · exact hfind _ fun q hq => by simpa using hq.le
      · -- the lower bound is not behind the node
        have hge : key val ≤ key p := not_lt.mp hlt
        have hlower : ((l.inorder ++ p :: r.inorder).find? fun q => key val ≤ key q).getD first =
            (l.inorder.find? fun q => key val ≤ key q).getD p := by
          simp [List.find?_append, hge]
        rw [if_neg (by simpa using hlt), hlower]
        by_cases hgt : key val < key p
        · have hupper : (l.inorder ++ p :: r.inorder).find? (fun q => key val < key q) =
              some ((l.inorder.find? fun q => key val < key q).getD p) := by
            simp [List.find?_append, hgt]
          obtain ⟨last', hloop, hkeep, -⟩ := ih p (if m.isnil last then p else last)
            hleft hol (by omega)
          cases hnil : m.isnil last with
          | true =>
            simp only [hnil, if_true] at hloop hkeep
            refine ⟨last', by simpa [hgt] using hloop, by simp, fun _ => .inr ?_⟩
            rw [hkeep hn]
            refine ⟨by simp [inorder], hgt, l, ⟨.left, p, c, r⟩ :: k, rfl, hl', ?_, ?_, hupper⟩
            · simp only [height]
              omega
            · exact List.sublist_append_left _ _
          | false =>
            simp only [hnil, Bool.false_eq_true, if_false] at hloop hkeep
            exact ⟨last', by simpa using hloop, fun _ => hkeep trivial, by simp⟩
        · -- the upper bound is behind it, and not in the left subtree
          obtain ⟨last', hloop, hkeep, hfresh⟩ := ih p last hleft hol (by omega)
          refine ⟨last', by simpa [hgt] using hloop, hkeep, fun hnil => (hfresh hnil).imp_right ?_⟩
          intro hup
          exact (hgt (hup.greater.trans_le (hlow _ hup.mem))).elim

/-- `rb_eqrange` gives both bounds: that its second search starts in the middle of the tree
makes no difference. -/
theorem eqrange_eq (h : Holds m head t) (ho : Ordered comp key t.inorder)
    (hfuel : t.height < fuel) : eqrange comp m head fuel val =
      some ((t.inorder.find? fun q => key val ≤ key q).getD head,
        (t.inorder.find? fun q => key val < key q).getD head) := by
  have hisnil := h.isnil
  obtain ⟨last, hloop, -, hlast⟩ := eqrangeLoop_eq (k := []) val head head h ho hfuel
  rw [eqrange, h.root, hloop]
  rcases hlast hisnil with rfl | hup
  · have hupper := ubnd_eq val h ho hfuel
    rw [ubnd, h.root] at hupper
    simp [hisnil, hupper]
  · obtain ⟨l, k, hplug, hl, hheight, hsub, hfind⟩ := hup.left
    have hmem := hup.mem
    obtain ⟨c, l', r', k', hpl⟩ := Path.exists_plug hmem
    have hn : m.isnil last = false := by
      rw [hpl] at h
      exact h.place.1.2.2.1.2
    have hcut : Cut (fun q => !comp val q) l.inorder := (ho.cut_upper val).sublist hsub
    have hbound := bound_eq last (show Holds m head (k.plug l) by rw [hplug]; exact h)
      hcut (hheight.trans hfuel)
    simp only [Option.bind_some, hn, Bool.false_eq_true, if_false,
      hl, hbound, Option.map_some, hfind]
    simp [ho.comp]

end Order

end Zrhos.Rbtree
