import Mathlib.Tactic

/-! Red-black trees and the paths into them. A tree with a place in it is taken apart into
the subtree at that place and the path from there up to the root; a frame of the path is a
node with the child on the other side. -/
namespace RedBlack

inductive Side where
  | left
  | right
  deriving DecidableEq, Repr

def Side.flip : Side → Side
  | .left => .right
  | .right => .left

@[simp] theorem Side.flip_flip (d : Side) : d.flip.flip = d := by cases d <;> rfl

@[simp] theorem Side.flip_ne (d : Side) : d.flip ≠ d := by cases d <;> decide

theorem Side.eq_or_flip (d e : Side) : e = d ∨ e = d.flip := by
  cases d <;> cases e <;> decide

@[simp] theorem Side.ne_flip (d : Side) : d ≠ d.flip := by cases d <;> decide

/-- The element of a list at one of its ends. -/
def Side.tip {α : Type} (d : Side) (l : List α) : Option α :=
  match d with
  | .left => l.head?
  | .right => l.getLast?

@[simp] theorem Side.tip_nil {α : Type} (d : Side) : d.tip ([] : List α) = none := by
  cases d <;> rfl

@[simp] theorem Side.tip_singleton {α : Type} (d : Side) (p : α) : d.tip [p] = some p := by
  cases d <;> rfl

@[simp] theorem Side.tip_eq_none {α : Type} {d : Side} {l : List α} : d.tip l = none ↔ l = [] := by
  cases d <;> simp [tip]

theorem Side.exists_tip {α : Type} {l : List α} (d : Side) (h : l ≠ []) :
    ∃ p, d.tip l = some p := by
  rw [← Option.isSome_iff_exists, Option.isSome_iff_ne_none]
  exact mt tip_eq_none.mp h

theorem Side.mem_of_tip {α : Type} {d : Side} {l : List α} {p : α} (h : d.tip l = some p) :
    p ∈ l := by
  cases d with
  | left => exact List.mem_of_mem_head? h
  | right => exact List.mem_of_mem_getLast? h

/-- An element between others is at no end. -/
theorem Side.tip_middle {α : Type} {xs ys : List α} (d : Side) (p : α)
    (hx : xs ≠ []) (hy : ys ≠ []) :
    d.tip (xs ++ p :: ys) = d.tip (xs ++ ys) := by
  cases d with
  | left =>
    obtain ⟨x, xs, rfl⟩ := List.exists_cons_of_ne_nil hx
    rfl
  | right =>
    obtain ⟨y, ys, rfl⟩ := List.exists_cons_of_ne_nil hy
    simp [tip, List.getLast?_append, List.getLast?_cons]

inductive Color where
  | RED
  | BLACK
  deriving DecidableEq, Repr

theorem Color.ne_red {c : Color} : c ≠ .RED ↔ c = .BLACK := by cases c <;> decide

theorem Color.ne_black {c : Color} : c ≠ .BLACK ↔ c = .RED := by cases c <;> decide

inductive Tree (α : Type) where
  | nil
  | node (p : α) (c : Color) (l r : Tree α)

structure Frame (α : Type) where
  side : Side
  label : α
  color : Color
  sibling : Tree α

abbrev Path (α : Type) := List (Frame α)

variable {α : Type} {t l r s : Tree α} {f : Frame α} {k : Path α} {p q : α} {c : Color}
  {d : Side} {n m : ℕ}

namespace Tree

/-- A node with `a` on side `d` and `b` on the other one. -/
def fork (d : Side) (p : α) (c : Color) (a b : Tree α) : Tree α :=
  match d with
  | .left => node p c a b
  | .right => node p c b a

def inorder : Tree α → List α
  | nil => []
  | node p _ l r => l.inorder ++ p :: r.inorder

def color : Tree α → Color
  | nil => .BLACK
  | node _ c _ _ => c

def height : Tree α → ℕ
  | nil => 0
  | node _ _ l r => max l.height r.height + 1

theorem height_fork {a b : Tree α} : (fork d p c a b).height = max a.height b.height + 1 := by
  cases d <;> simp [fork, height, max_comm]

/-- The same tree with a black root. -/
def blacken : Tree α → Tree α
  | nil => nil
  | node p _ l r => node p .BLACK l r

/-- No red node has a red child, and all ways down come by `n` black nodes. -/
inductive Balanced : Tree α → ℕ → Prop where
  | nil : Balanced nil 0
  | red {p : α} {l r : Tree α} {n : ℕ} : l.color = .BLACK → r.color = .BLACK →
      Balanced l n → Balanced r n → Balanced (node p .RED l r) n
  | black {p : α} {l r : Tree α} {n : ℕ} : Balanced l n → Balanced r n →
      Balanced (node p .BLACK l r) (n + 1)

@[simp] theorem fork_color {a b : Tree α} : (fork d p c a b).color = c := by
  cases d <;> rfl

theorem fork_ne_nil {a b : Tree α} : fork d p c a b ≠ nil := by
  cases d <;> exact fun h => by cases h

/-- A tree that is not empty, seen from one side. -/
theorem exists_fork (d : Side) (h : t ≠ nil) : ∃ p c a b, t = fork d p c a b := by
  cases t with
  | nil => exact (h rfl).elim
  | node p c l r =>
    cases d with
    | left => exact ⟨p, c, l, r, rfl⟩
    | right => exact ⟨p, c, r, l, rfl⟩

theorem fork_flip {a b : Tree α} : fork d.flip p c a b = fork d p c b a := by cases d <;> rfl

theorem perm_fork {a b : Tree α} :
    (fork d p c a b).inorder.Perm (p :: (a.inorder ++ b.inorder)) := by
  cases d with
  | left => exact List.perm_middle
  | right => exact List.perm_middle.trans (List.perm_append_comm.cons p)

theorem mem_inorder_fork {a b : Tree α} :
    q ∈ (fork d p c a b).inorder ↔ q = p ∨ q ∈ a.inorder ∨ q ∈ b.inorder := by
  simp [perm_fork.mem_iff]

/-- The inorder of a node says on which side a child is, and of a rotation nothing. -/
theorem inorder_rotate {a b e : Tree α} {c' : Color} :
    (fork d q c' (fork d p c a b) e).inorder = (fork d p c a (fork d q c' b e)).inorder := by
  cases d <;> simp [fork, inorder]

theorem inorder_recolor {a b : Tree α} {c' : Color} :
    (fork d p c a b).inorder = (fork d p c' a b).inorder := by
  cases d <;> rfl

/-- The end of a tree is the end of its child there, or its root. -/
theorem tip_fork {a b : Tree α} :
    d.tip (fork d p c a b).inorder = (d.tip a.inorder).or (some p) := by
  cases d <;> simp [Side.tip, fork, inorder, List.head?_append, List.getLast?_cons]

theorem tip_fork_flip {a b : Tree α} :
    d.flip.tip (fork d p c a b).inorder = (d.flip.tip b.inorder).or (some p) := by
  rw [← fork_flip]
  exact tip_fork

@[simp] theorem inorder_eq_nil : t.inorder = [] ↔ t = nil := by
  cases t <;> simp [inorder]

@[simp] theorem inorder_blacken : t.blacken.inorder = t.inorder := by cases t <;> rfl

theorem Balanced.fork_red {a b : Tree α} (ha : Balanced a n) (hb : Balanced b n)
    (hca : a.color = .BLACK) (hcb : b.color = .BLACK) : Balanced (fork d p .RED a b) n := by
  cases d with
  | left => exact .red hca hcb ha hb
  | right => exact .red hcb hca hb ha

theorem Balanced.fork_black {a b : Tree α} (ha : Balanced a n) (hb : Balanced b n) :
    Balanced (fork d p .BLACK a b) (n + 1) := by
  cases d with
  | left => exact .black ha hb
  | right => exact .black hb ha

theorem Balanced.of_fork_red {a b : Tree α} (h : Balanced (fork d p .RED a b) n) :
    Balanced a n ∧ Balanced b n ∧ a.color = .BLACK ∧ b.color = .BLACK := by
  cases d with
  | left =>
    cases h with
    | red hca hcb ha hb => exact ⟨ha, hb, hca, hcb⟩
  | right =>
    cases h with
    | red hcb hca hb ha => exact ⟨ha, hb, hca, hcb⟩

theorem Balanced.of_fork_black {a b : Tree α} (h : Balanced (fork d p .BLACK a b) n) :
    ∃ m, n = m + 1 ∧ Balanced a m ∧ Balanced b m := by
  cases d with
  | left =>
    cases h with
    | black ha hb => exact ⟨_, rfl, ha, hb⟩
  | right =>
    cases h with
    | black hb ha => exact ⟨_, rfl, ha, hb⟩

/-- A tree is balanced in one way only. -/
theorem Balanced.unique (h : Balanced t n) (h' : Balanced t m) : n = m := by
  induction h generalizing m with
  | nil =>
    cases h'
    rfl
  | red _ _ _ _ ih _ =>
    cases h' with
    | red _ _ h₁ _ => exact ih h₁
  | black _ _ ih _ =>
    cases h' with
    | black h₁ _ => rw [ih h₁]

/-- A black node may take the place of the root, whatever it was. -/
theorem Balanced.blacken (h : Balanced t n) : ∃ m, Balanced t.blacken m := by
  cases h with
  | nil => exact ⟨0, .nil⟩
  | red _ _ hl hr => exact ⟨_, .black hl hr⟩
  | black hl hr => exact ⟨_, .black hl hr⟩

theorem Balanced.blacken_red (h : Balanced t n) (hc : t.color = .RED) :
    Balanced t.blacken (n + 1) := by
  cases h with
  | nil => cases hc
  | red _ _ hl hr => exact .black hl hr
  | black => cases hc

theorem blacken_color (t : Tree α) : t.blacken.color = .BLACK := by cases t <;> rfl

theorem blacken_of_black (h : t.color = .BLACK) : t.blacken = t := by
  cases t with
  | nil => rfl
  | node p c l r =>
    cases h
    rfl

/-! ### Height -/

theorem Balanced.height_le (h : Balanced t n) :
    t.height ≤ 2 * n + 1 ∧ (t.color = .BLACK → t.height ≤ 2 * n) := by
  induction h with
  | nil => exact ⟨Nat.zero_le _, fun _ => le_refl _⟩
  | red hcl hcr _ _ ihl ihr =>
    refine ⟨?_, fun hc => by cases hc⟩
    have hl := ihl.2 hcl
    have hr := ihr.2 hcr
    simp only [height]
    omega
  | black _ _ ihl ihr =>
    have hl := ihl.1
    have hr := ihr.1
    simp only [height]
    exact ⟨by omega, fun _ => by omega⟩

theorem Balanced.size_ge (h : Balanced t n) : 2 ^ n ≤ t.inorder.length + 1 := by
  induction h with
  | nil => exact le_refl _
  | red _ _ _ _ ihl ihr =>
    simp only [inorder, List.length_append, List.length_cons]
    omega
  | black _ _ ihl ihr =>
    simp only [inorder, List.length_append, List.length_cons, pow_succ]
    omega

/-- A red-black tree is no higher than twice the logarithm of its size. -/
theorem Balanced.height_log (h : Balanced t n) (hc : t.color = .BLACK) :
    t.height ≤ 2 * Nat.log 2 (t.inorder.length + 1) := by
  have hheight := h.height_le.2 hc
  have hlog : n ≤ Nat.log 2 (t.inorder.length + 1) := by
    apply Nat.le_log_of_pow_le Nat.one_lt_two
    exact h.size_ge
  omega

end Tree

open RedBlack.Tree

/-! ### Paths -/

namespace Path

def plug : Tree α → Path α → Tree α
  | t, [] => t
  | t, f :: k => plug (fork f.side f.label f.color t f.sibling) k

/-- What stands in front of the place in the order of the tree. -/
def before : Path α → List α
  | [] => []
  | f :: k =>
    match f.side with
    | .left => before k
    | .right => before k ++ (f.sibling.inorder ++ [f.label])

/-- What stands behind it. -/
def after : Path α → List α
  | [] => []
  | f :: k =>
    match f.side with
    | .left => f.label :: f.sibling.inorder ++ after k
    | .right => after k

theorem before_of_left (h : ∀ f ∈ k, f.side = .left) : before k = [] := by
  induction k with
  | nil => rfl
  | cons f k ih =>
    rw [before, h f List.mem_cons_self]
    exact ih fun f hf => h f (List.mem_cons_of_mem _ hf)

/-- The two, by the side. -/
def toward (d : Side) (k : Path α) : List α :=
  match d with
  | .left => before k
  | .right => after k

/-- The labels of a path and of what hangs on it. -/
def nodes : Path α → List α
  | [] => []
  | f :: k => f.label :: (f.sibling.inorder ++ nodes k)

/-- The color of the node above, if there is one. -/
def color : Path α → Color
  | [] => .BLACK
  | f :: _ => f.color

theorem plug_far (a s : Tree α) : plug s (⟨d.flip, p, c, a⟩ :: k) = plug (fork d p c a s) k := by
  rw [plug, fork_flip]

theorem plug_append (t : Tree α) (k k' : Path α) : plug t (k ++ k') = plug (plug t k) k' := by
  induction k generalizing t with
  | nil => rfl
  | cons f k ih => exact ih _

theorem inorder_plug (t : Tree α) (k : Path α) :
    (plug t k).inorder = before k ++ t.inorder ++ after k := by
  induction k generalizing t with
  | nil => simp [plug, before, after]
  | cons f k ih =>
    obtain ⟨d, p, c, s⟩ := f
    rw [plug, ih]
    cases d <;> simp [before, after, fork, inorder]

theorem tip_plug (d : Side) (t : Tree α) (k : Path α) : d.tip (plug t k).inorder =
    (d.tip (toward d k)).or ((d.tip t.inorder).or (d.tip (toward d.flip k))) := by
  rw [inorder_plug]
  cases d <;> simp [Side.tip, toward, Side.flip, List.head?_append, List.getLast?_append,
    Option.or_assoc]

@[simp] theorem toward_side (f : Frame α) (k : Path α) :
    toward f.side (f :: k) = toward f.side k := by
  cases h : f.side <;> simp [toward, before, after, h]

/-- On the other side the label of the frame stands first. -/
@[simp] theorem tip_toward_flip (f : Frame α) (k : Path α) :
    f.side.tip (toward f.side.flip (f :: k)) = some f.label := by
  cases h : f.side <;> simp [toward, before, after, Side.tip, Side.flip, h]

/-- Where nothing lies ahead, all frames are on that side. -/
theorem side_of_toward (f : Frame α) (k : Path α) (h : toward d (f :: k) = []) : f.side = d := by
  rcases Side.eq_or_flip d f.side with he | he
  · exact he
  · have htip := tip_toward_flip f k
    rw [he, Side.flip_flip, h] at htip
    simp at htip

theorem perm_plug (t : Tree α) (k : Path α) :
    (plug t k).inorder.Perm (t.inorder ++ nodes k) := by
  induction k generalizing t with
  | nil => simp [plug, nodes]
  | cons f k ih =>
    calc (plug t (f :: k)).inorder
      _ = (plug (fork f.side f.label f.color t f.sibling) k).inorder := rfl
      List.Perm _ ((fork f.side f.label f.color t f.sibling).inorder ++ nodes k) := ih _
      List.Perm _ (f.label :: (t.inorder ++ f.sibling.inorder) ++ nodes k) :=
        perm_fork.append_right _
      List.Perm _ (t.inorder ++ nodes (f :: k)) := by
        simpa [nodes] using List.perm_middle.symm

theorem mem_nodes_of_toward (h : p ∈ toward d k) : p ∈ nodes k := by
  have hmem : p ∈ (plug nil k).inorder := by
    rw [inorder_plug]
    cases d with
    | left => exact List.mem_append_left _ (List.mem_append_left _ h)
    | right => exact List.mem_append_right _ h
  simpa [inorder] using (perm_plug nil k).mem_iff.mp hmem

/-- What is in a tree is somewhere in it. -/
theorem exists_plug (h : p ∈ t.inorder) : ∃ c l r k, t = plug (node p c l r) k := by
  induction t with
  | nil => cases h
  | node q c l r ihl ihr =>
    rcases List.mem_append.mp h with h | h
    · obtain ⟨c', l', r', k, rfl⟩ := ihl h
      exact ⟨c', l', r', k ++ [⟨.left, q, c, r⟩], by rw [plug_append]; rfl⟩
    · rcases List.mem_cons.mp h with rfl | h
      · exact ⟨c, l, r, [], rfl⟩
      · obtain ⟨c', l', r', k, rfl⟩ := ihr h
        exact ⟨c', l', r', k ++ [⟨.right, q, c, l⟩], by rw [plug_append]; rfl⟩

/-- Down to the first node of a tree all frames are to the left. -/
theorem exists_first (h : t ≠ nil) : ∃ p c r k, t = plug (node p c nil r) k ∧
    ∀ f ∈ k, f.side = .left := by
  induction t with
  | nil => exact (h rfl).elim
  | node p c l r ihl _ =>
    by_cases hl : l = nil
    · subst hl
      exact ⟨p, c, r, [], rfl, by simp⟩
    · obtain ⟨p', c', r', k, rfl, hk⟩ := ihl hl
      refine ⟨p', c', r', k ++ [⟨.left, p, c, r⟩], by rw [plug_append]; rfl, ?_⟩
      intro f hf
      rcases List.mem_append.mp hf with hf | hf
      · exact hk f hf
      · rw [List.mem_singleton.mp hf]

/-- An element splits the order of a tree where it splits the tree. -/
theorem exists_split {xs ys : List α} (h : t.inorder = xs ++ p :: ys) (hnd : t.inorder.Nodup) :
    ∃ c l r k, t = plug (node p c l r) k ∧ xs = before k ++ l.inorder ∧
      ys = r.inorder ++ after k := by
  obtain ⟨c, l, r, k, rfl⟩ := exists_plug (t := t) (p := p) (by simp [h])
  refine ⟨c, l, r, k, rfl, ?_⟩
  have hsplit : (plug (node p c l r) k).inorder =
      (before k ++ l.inorder) ++ p :: (r.inorder ++ after k) := by
    rw [inorder_plug]
    simp [inorder]
  rw [hsplit] at h hnd
  have hnot := (List.nodup_cons.mp (List.nodup_middle.mp hnd)).1
  rw [List.mem_append, not_or] at hnot
  obtain ⟨hl, _, hr⟩ := (List.append_cons_inj_of_notMem hnot.1 hnot.2).mp h
  exact ⟨hl.symm, hr.symm⟩

/-- Where the child of a node takes its place, the order loses the node. -/
theorem inorder_plug_child {b : Tree α} {xs ys : List α}
    (h : (plug (fork d p c nil b) k).inorder = xs ++ p :: ys)
    (hnd : (plug (fork d p c nil b) k).inorder.Nodup) : (plug b k).inorder = xs ++ ys := by
  have hnot := (List.nodup_cons.mp (List.nodup_middle.mp (h ▸ hnd))).1
  rw [List.mem_append, not_or] at hnot
  rw [inorder_plug] at h ⊢
  cases d with
  | left =>
    have hsplit : xs ++ p :: ys = before k ++ p :: (b.inorder ++ after k) := by
      rw [← h]
      simp [fork, inorder]
    obtain ⟨rfl, _, rfl⟩ := (List.append_cons_inj_of_notMem hnot.1 hnot.2).mp hsplit
    simp
  | right =>
    have hsplit : xs ++ p :: ys = (before k ++ b.inorder) ++ p :: after k := by
      rw [← h]
      simp [fork, inorder]
    obtain ⟨rfl, _, rfl⟩ := (List.append_cons_inj_of_notMem hnot.1 hnot.2).mp hsplit
    rfl

/-- The path takes a subtree with `n` black nodes on its ways down: with it the tree is
balanced, unless the subtree and the node above it are red. -/
inductive Fits : Path α → ℕ → Prop where
  | nil {n : ℕ} : Fits [] n
  | red {d : Side} {p : α} {s : Tree α} {k : Path α} {n : ℕ} : s.color = .BLACK →
      Balanced s n → k ≠ [] → Path.color k = .BLACK → Fits k n → Fits (⟨d, p, .RED, s⟩ :: k) n
  | black {d : Side} {p : α} {s : Tree α} {k : Path α} {n : ℕ} : Balanced s n → Fits k (n + 1) →
      Fits (⟨d, p, .BLACK, s⟩ :: k) n

/-- Another label of a frame makes no difference. -/
theorem Fits.relabel {k' : Path α} {s : Tree α} (h : Fits (k' ++ ⟨d, p, c, s⟩ :: k) n) :
    Fits (k' ++ ⟨d, q, c, s⟩ :: k) n := by
  induction k' generalizing n with
  | nil =>
    cases h with
    | red hs hbal hne hc hk => exact .red hs hbal hne hc hk
    | black hbal hk => exact .black hbal hk
  | cons f k' ih =>
    have hcolor : color (k' ++ ⟨d, q, c, s⟩ :: k) = color (k' ++ ⟨d, p, c, s⟩ :: k) := by
      cases k' <;> rfl
    cases h with
    | red hs hbal _ hc hk => exact .red hs hbal (by simp) (hcolor.trans hc) (ih hk)
    | black hbal hk => exact .black hbal (ih hk)

/-- What the path takes above its first frame. -/
theorem Fits.above (h : Fits (f :: k) n) : Balanced f.sibling n ∧ ∃ m, Fits k m ∧
    (f.color = .RED → m = n ∧ f.sibling.color = .BLACK ∧ k ≠ [] ∧ color k = .BLACK) ∧
      (f.color = .BLACK → m = n + 1) := by
  cases h with
  | red hs hbal hne hc hk => exact ⟨hbal, n, hk, fun _ => ⟨rfl, hs, hne, hc⟩, by simp⟩
  | black hbal hk => exact ⟨hbal, n + 1, hk, by simp, fun _ => rfl⟩

/-- A subtree that fits makes a balanced tree. -/
theorem Fits.plug (h : Fits k n) (ht : Balanced t n) (hc : t.color = .RED → color k = .BLACK) :
    ∃ m, Balanced (Path.plug t k) m := by
  induction h generalizing t with
  | nil => exact ⟨_, ht⟩
  | red hs hbal _ hk _ ih =>
    have hblack : t.color = .BLACK := by
      by_contra hne
      cases hc (Color.ne_black.mp hne)
    exact ih (ht.fork_red hbal hblack hs) fun _ => hk
  | black hbal _ ih => exact ih (ht.fork_black hbal) fun h => by simp at h

/-- The root of a tree is not the subtree, and is black. -/
theorem Fits.root_black (h : Fits k n) (hk : k ≠ []) : (Path.plug t k).color = .BLACK := by
  induction h generalizing t with
  | nil => exact (hk rfl).elim
  | red _ _ hne _ _ ih => exact ih hne
  | @black d p s k _ _ _ ih =>
    by_cases hk' : k = []
    · subst hk'
      exact fork_color
    · exact ih hk'

/-- A balanced tree with a black root is taken apart. -/
theorem exists_fits (h : Balanced (plug t k) m) (hroot : (plug t k).color = .BLACK) :
    ∃ n, Balanced t n ∧ Fits k n ∧ (t.color = .RED → k ≠ [] ∧ color k = .BLACK) := by
  induction k generalizing t with
  | nil =>
    refine ⟨m, h, .nil, fun hred => ?_⟩
    rw [plug] at hroot
    rw [hroot] at hred
    cases hred
  | cons f k ih =>
    obtain ⟨d, p, c, s⟩ := f
    obtain ⟨n, hbal, hfits, hred⟩ := ih h hroot
    cases c with
    | RED =>
      obtain ⟨ht, hs, hct, hcs⟩ := hbal.of_fork_red
      obtain ⟨hne, hk⟩ := hred fork_color
      refine ⟨n, ht, .red hcs hs hne hk hfits, fun h => ?_⟩
      rw [hct] at h
      cases h
    | BLACK =>
      obtain ⟨n', rfl, ht, hs⟩ := hbal.of_fork_black
      exact ⟨n', ht, .black hs hfits, fun _ => ⟨List.cons_ne_nil _ _, rfl⟩⟩

/-- A path is no longer than the tree is high. -/
theorem length_le_height (t : Tree α) (k : Path α) : k.length + t.height ≤ (plug t k).height := by
  induction k generalizing t with
  | nil => simp [plug]
  | cons f k ih =>
    obtain ⟨d, p, c, s⟩ := f
    have hup : t.height + 1 ≤ (fork d p c t s).height := by
      rw [height_fork]
      omega
    have hk := ih (fork d p c t s)
    simp only [List.length_cons, plug] at hk ⊢
    omega

end Path

end RedBlack
