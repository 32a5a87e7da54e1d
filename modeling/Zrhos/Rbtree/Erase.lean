import Zrhos.Rbtree.Unlink

/-! `rb_erase_node` takes a node out and repairs the black heights on the way up: the tree stays
red-black, without the node and in the same order. -/
namespace Zrhos.Rbtree
open RedBlack RedBlack.Tree Rbtree.Mem

variable {m m' : Mem} {head p q w fp n N : ℕ} {c cf cw cv : Color} {d : Side}
  {t s a b e : RedBlack.Tree ℕ} {k : Path ℕ}

/-! ### The repair -/

/-- One black node is missing on the ways through the subtree, unless its root is red and can
become black. -/
structure Short (t : RedBlack.Tree ℕ) (n : ℕ) : Prop where
  black : t.color = .BLACK → ∃ n', n = n' + 1 ∧ Balanced t n'
  red : t.color = .RED → Balanced t.blacken n

theorem color_sub (h : Holds m head (k.plug (fork d p c a b))) :
    m.color (m.child d p) = a.color ∧ m.color (m.child d.flip p) = b.color := by
  obtain ⟨_, ⟨ha, hb⟩, _⟩ := h.node
  constructor
  · rw [ha]
    exact Holds.color_ptr (k := ⟨d, p, c, b⟩ :: k) h
  · rw [hb]
    apply Holds.color_ptr (k := ⟨d.flip, p, c, a⟩ :: k)
    rw [Path.plug_far]
    exact h

/-- The end of the repair: the sibling with its red child comes up. -/
theorem eraseTurn_becomes (h : Holds m head (k.plug (fork d fp cf t (fork d w cw b e))))
    (he : e ≠ .nil) :
    Becomes m head (k.plug (fork d fp cf t (fork d w cw b e))) (eraseTurn d m head fp w)
      (k.plug (fork d w cf (fork d fp .BLACK t b) e.blacken)) := by
  obtain ⟨_, ⟨_, hw⟩, hcf, _⟩ := h.node
  rw [ptr_fork] at hw
  have hwe : m.child d.flip w = ptr head e := by
    have hplace := h.place.1
    obtain ⟨_, _, _, _, hplace⟩ := linked_fork.mp hplace
    exact (linked_fork.mp hplace).2.1.2
  have h1 := recolor_below h cf
  have h2 := recolor_becomes (d := d) h1.holds .BLACK
  -- the far child of the sibling
  have hfar : ∀ e', k.plug (fork d fp .BLACK t (fork d w cf b e')) =
      Path.plug e' (⟨d.flip, w, cf, b⟩ :: ⟨d.flip, fp, .BLACK, t⟩ :: k) := by
    intro e'
    rw [Path.plug_far, Path.plug_far]
  have h3 : Becomes ((m.setColor w cf).setColor fp .BLACK) head
      (k.plug (fork d fp .BLACK t (fork d w cf b e)))
      (((m.setColor w cf).setColor fp .BLACK).setColor (ptr head e) .BLACK)
      (k.plug (fork d fp .BLACK t (fork d w cf b e.blacken))) := by
    have h2' := h2.holds
    rw [hfar] at h2'
    rw [hfar, hfar]
    obtain ⟨v, c, x, y, rfl⟩ := exists_fork .left he
    exact recolor_becomes h2' .BLACK
  have hrun : eraseTurn d m head fp w =
      rotate d (((m.setColor w cf).setColor fp .BLACK).setColor (ptr head e) .BLACK) head fp := by
    simp [eraseTurn, hcf, hwe]
  rw [hrun]
  exact ((h1.trans h2).trans h3).trans (rotate_becomes h3.holds)

section Black
variable (h : Holds m head (k.plug (fork d fp cf t (fork d w .BLACK b e))))
include h

theorem sibling_fields : m.isnil w = false ∧ m.color (m.child d w) = b.color ∧
    m.color (m.child d.flip w) = e.color := by
  rw [← Path.plug_far] at h
  exact ⟨h.node.2.2.2, color_sub h⟩

/-- Where both children of the sibling are black, it becomes red and the repair goes on above. -/
theorem eraseBlack_up (hb : b.color = .BLACK) (he : e.color = .BLACK) :
    eraseBlack d m head q fp w = (m.setColor w .RED, fp, true) ∧
      Becomes m head (k.plug (fork d fp cf t (fork d w .BLACK b e))) (m.setColor w .RED)
        (k.plug (fork d fp cf t (fork d w .RED b e))) := by
  obtain ⟨hn, hcb, hce⟩ := sibling_fields h
  exact ⟨by simp [eraseBlack, hn, hcb, hce, hb, he], recolor_below h .RED⟩

/-- Where the far child is red, the sibling comes up. -/
theorem eraseBlack_far (he : e.color = .RED) :
    eraseBlack d m head q fp w = (eraseTurn d m head fp w, q, false) ∧
      Becomes m head (k.plug (fork d fp cf t (fork d w .BLACK b e))) (eraseTurn d m head fp w)
        (k.plug (fork d w cf (fork d fp .BLACK t b) e.blacken)) := by
  obtain ⟨hn, hcb, hce⟩ := sibling_fields h
  refine ⟨by simp [eraseBlack, hn, hcb, hce, he], eraseTurn_becomes h ?_⟩
  rintro rfl
  cases he

/-- Where only the near child is red, it comes up in place of the sibling first. -/
theorem eraseBlack_near {v : ℕ} {x y : RedBlack.Tree ℕ} (hb : b = fork d v .RED x y)
    (he : e.color = .BLACK) :
    ∃ m', eraseBlack d m head q fp w = (m', q, false) ∧
      Becomes m head (k.plug (fork d fp cf t (fork d w .BLACK b e))) m'
        (k.plug (fork d v cf (fork d fp .BLACK t x) (fork d w .BLACK y e))) := by
  subst hb
  obtain ⟨hn, hcb, hce⟩ := sibling_fields h
  have hv : m.child d w = v := by
    rw [← Path.plug_far] at h
    simpa using h.node.2.1.1
  rw [hv, fork_color] at hcb
  have hflip : ∀ s, k.plug (fork d fp cf t s) = Path.plug s (⟨d.flip, fp, cf, t⟩ :: k) :=
    fun s => (Path.plug_far t s).symm
  have hturn : Becomes m head (k.plug (fork d fp cf t (fork d w .BLACK (fork d v .RED x y) e)))
      (rotate d.flip ((m.setColor v .BLACK).setColor w .RED) head w)
      (k.plug (fork d fp cf t (fork d v .BLACK x (fork d w .RED y e)))) := by
    have hswap : fork d w .BLACK (fork d v .RED x y) e =
        fork d.flip w .BLACK e (fork d.flip v .RED y x) := by
      rw [fork_flip, fork_flip]
    rw [hflip, hswap] at h ⊢
    rw [hflip]
    simpa only [fork_flip] using turn_becomes h .BLACK .RED
  have hlast := eraseTurn_becomes hturn.holds fork_ne_nil
  have hv' :
      (rotate d.flip ((m.setColor v .BLACK).setColor w .RED) head w).child d.flip fp = v := by
    simpa using hturn.holds.node.2.1.2
  have hblack : (fork d w .RED y e).blacken = fork d w .BLACK y e := by
    cases d <;> rfl
  rw [hblack] at hlast
  refine ⟨_, ?_, hturn.trans hlast⟩
  simp [eraseBlack, hn, hcb, hce, he, hv, hv']

end Black

/-- The red sibling comes up, and the sibling is black then. -/
theorem eraseRound_red (h : Holds m head (k.plug (fork d fp cf t (fork d w .RED b e)))) :
    ∃ m', eraseRound d m head q fp = eraseBlack d m' head q fp (ptr head b) ∧
      Becomes m head (k.plug (fork d fp cf t (fork d w .RED b e))) m'
        (k.plug (fork d w .BLACK (fork d fp .RED t b) e)) := by
  have hw : m.child d.flip fp = w := by
    simpa using h.node.2.1.2
  have hcw : m.color w = .RED := by
    rw [← Path.plug_far] at h
    exact h.node.2.2.1
  have hturn := turn_becomes h .BLACK .RED
  refine ⟨_, ?_, hturn⟩
  have hb : (rotate d ((m.setColor w .BLACK).setColor fp .RED) head fp).child d.flip fp =
      ptr head b :=
    (Holds.node (k := ⟨d, w, .BLACK, e⟩ :: k) hturn.holds).2.1.2
  simp [eraseRound, hw, hcw, hb]

theorem eraseRound_black (h : Holds m head (k.plug (fork d fp cf t s))) (hs : s.color = .BLACK) :
    eraseRound d m head q fp = eraseBlack d m head q fp (ptr head s) := by
  have hfields := color_sub h
  have hw := h.node.2.1.2
  have hcw : m.color (ptr head s) = .BLACK := by
    rw [← hw, hfields.2, hs]
  simp [eraseRound, hw, hcw]

/-- A round with a black sibling: either the repair is over, or the node above is the one with a
missing black node. -/
theorem eraseBlack_spec (h : Holds m head (k.plug (fork d fp cf t s))) (ht : Balanced t n)
    (htc : t.color = .BLACK) (hs : Balanced s (n + 1)) (hsc : s.color = .BLACK) :
    ∃ m' t', Becomes m head (k.plug (fork d fp cf t s)) m' (k.plug t') ∧ t'.color = cf ∧
      (eraseBlack d m head q fp (ptr head s) = (m', fp, true) ∧ ptr head t' = fp ∧ t' ≠ .nil ∧
          (cf = .RED → Balanced t'.blacken (n + 1)) ∧ (cf = .BLACK → Balanced t' (n + 1)) ∨
        eraseBlack d m head q fp (ptr head s) = (m', q, false) ∧
          m'.color (ptr head t) = .BLACK ∧
          (cf = .RED → Balanced t' (n + 1)) ∧ (cf = .BLACK → Balanced t' (n + 2))) := by
  have hne : s ≠ .nil := by
    rintro rfl
    cases hs
  obtain ⟨w, c, b, e, rfl⟩ := exists_fork d hne
  obtain rfl : c = .BLACK := by simpa using hsc
  obtain ⟨n', hn, hb, he⟩ := hs.of_fork_black
  obtain rfl : n = n' := by omega
  rw [ptr_fork]
  -- what the last turn makes of the colors
  have hends : ∀ {v : ℕ} {x y : RedBlack.Tree ℕ}, Balanced x n → Balanced y (n + 1) →
      y.color = .BLACK → (cf = .RED → Balanced (fork d v cf (fork d fp .BLACK t x) y) (n + 1)) ∧
        (cf = .BLACK → Balanced (fork d v cf (fork d fp .BLACK t x) y) (n + 2)) := by
    intro v x y hx hy hyc
    constructor
    · rintro rfl
      exact (ht.fork_black hx).fork_red hy fork_color hyc
    · rintro rfl
      exact (ht.fork_black hx).fork_black hy
  have hcolor : ∀ {m' : Mem} {v : ℕ} {x y : RedBlack.Tree ℕ},
      Holds m' head (k.plug (fork d v cf (fork d fp .BLACK t x) y)) →
        m'.color (ptr head t) = .BLACK := by
    intro m' v x y h'
    exact (Holds.color_ptr (k := ⟨d, fp, .BLACK, x⟩ :: ⟨d, v, cf, y⟩ :: k) h').trans htc
  cases hec : e.color with
  | RED =>
    obtain ⟨hrun, hbec⟩ := eraseBlack_far (q := q) h hec
    exact ⟨_, _, hbec, fork_color, .inr ⟨hrun, hcolor hbec.holds,
      hends hb (he.blacken_red hec) e.blacken_color⟩⟩
  | BLACK =>
    cases hbc : b.color with
    | RED =>
      obtain ⟨v, c, x, y, rfl⟩ := exists_fork (t := b) d (by rintro rfl; cases hbc)
      obtain rfl : c = .RED := by simpa using hbc
      obtain ⟨hx, hy, _, hyc⟩ := hb.of_fork_red
      obtain ⟨m', hrun, hbec⟩ := eraseBlack_near (q := q) h rfl hec
      exact ⟨m', _, hbec, fork_color, .inr ⟨hrun, hcolor hbec.holds,
        hends hx (hy.fork_black he) fork_color⟩⟩
    | BLACK =>
      obtain ⟨hrun, hbec⟩ := eraseBlack_up (q := q) h hbc hec
      refine ⟨_, _, hbec, fork_color, .inl ⟨hrun, ptr_fork, fork_ne_nil, ?_, ?_⟩⟩
      · rintro rfl
        have hblack : (fork d fp .RED t (fork d w .RED b e)).blacken =
            fork d fp .BLACK t (fork d w .RED b e) := by
          cases d <;> rfl
        rw [hblack]
        exact ht.fork_black (hb.fork_red he hbc hec)
      · rintro rfl
        exact ht.fork_black (hb.fork_red he hbc hec)

/-- The loop ends at the root and at a red node. -/
theorem eraseFix_ends {fuel : ℕ} (h : Holds m head (k.plug t)) (hshort : Short t N)
    (hfits : Path.Fits k N) (hend : k = [] ∨ t.color = .RED) :
    ∃ m' t', eraseFix head (fuel + 1) m (ptr head t) p = some m' ∧ Becomes m head (k.plug t) m' t' ∧
      t'.color = .BLACK ∧ ∃ n', Balanced t' n' := by
  have hrun : eraseFix head (fuel + 1) m (ptr head t) p =
      some (m.setColor (ptr head t) .BLACK) := by
    rw [eraseFix, if_neg]
    rintro ⟨hroot, hcol⟩
    rcases hend with rfl | hred
    · exact hroot h.root.symm
    · rw [h.color_ptr, hred] at hcol
      cases hcol
  have hbec : Becomes m head (k.plug t) (m.setColor (ptr head t) .BLACK) (k.plug t.blacken) := by
    cases t with
    | nil =>
      have hself : m.setColor (ptr head .nil) .BLACK = m := setColor_self h.color
      rw [hself]
      exact .refl h
    | node q c l r => exact recolor_becomes (d := .left) h .BLACK
  have hbal : ∃ n', Balanced t.blacken n' ∧ (k = [] ∨ n' = N) := by
    cases hc : t.color with
    | RED => exact ⟨N, hshort.red hc, .inr rfl⟩
    | BLACK =>
      obtain ⟨n', _, hn'⟩ := hshort.black hc
      rw [blacken_of_black hc]
      refine ⟨n', hn', .inl (hend.resolve_right ?_)⟩
      rw [hc]
      decide
  obtain ⟨n', hn', hwhere⟩ := hbal
  refine ⟨_, _, hrun, hbec, ?_, ?_⟩
  · by_cases hk : k = []
    · subst hk
      exact t.blacken_color
    · exact hfits.root_black hk
  · rcases hwhere with rfl | rfl
    · exact ⟨n', hn'⟩
    · exact hfits.plug hn' fun hred => by rw [blacken_color] at hred; cases hred

/-- At the end of the first part of a round the sibling is black: either it was, or the node
above is red. -/
theorem eraseRound_sibling (h : Holds m head (Path.plug t (⟨d, fp, cf, s⟩ :: k)))
    (hfits : Path.Fits (⟨d, fp, cf, s⟩ :: k) (n + 1)) :
    ∃ m' cf' s', ∃ k' : Path ℕ, eraseRound d m head q fp = eraseBlack d m' head q fp (ptr head s') ∧
      Becomes m head (Path.plug t (⟨d, fp, cf, s⟩ :: k)) m' (k'.plug (fork d fp cf' t s')) ∧
      s'.color = .BLACK ∧ Path.Fits (⟨d, fp, cf', s'⟩ :: k') (n + 1) ∧ (cf' = .RED ∨ k' = k) := by
  cases hsc : s.color with
  | BLACK =>
    exact ⟨m, cf, s, k, eraseRound_black h hsc, .refl h, hsc, hfits, .inr rfl⟩
  | RED =>
    obtain ⟨hs, N, hk, hred, hblack⟩ := hfits.above
    obtain rfl : cf = .BLACK := by
      rw [← Color.ne_red]
      rintro rfl
      rw [(hred rfl).2.1] at hsc
      cases hsc
    obtain ⟨w, c, b, e, rfl⟩ := exists_fork (t := s) d (by rintro rfl; cases hsc)
    obtain rfl : c = .RED := by simpa using hsc
    obtain ⟨hb, he, hbc, _⟩ := hs.of_fork_red
    obtain ⟨m', hrun, hbec⟩ := eraseRound_red (q := q) h
    refine ⟨m', .RED, b, ⟨d, w, .BLACK, e⟩ :: k, hrun, hbec, hbc, ?_, .inl rfl⟩
    exact .red hbc hb (List.cons_ne_nil _ _) rfl (.black he (hblack rfl ▸ hk))

/-- The loop repairs the tree, whatever the subtree and the path to it. -/
theorem eraseFix_becomes {fuel : ℕ} (h : Holds m head (k.plug t)) (hshort : Short t N)
    (hfits : Path.Fits k N) (hfuel : k.length + 2 ≤ fuel) :
    ∃ m' t', eraseFix head fuel m (ptr head t) (up head k) = some m' ∧
      Becomes m head (k.plug t) m' t' ∧ t'.color = .BLACK ∧ ∃ n', Balanced t' n' := by
  induction fuel generalizing m t k N with
  | zero => omega
  | succ fuel ih =>
    by_cases hend : k = [] ∨ t.color = .RED
    · exact eraseFix_ends h hshort hfits hend
    rw [not_or, ← ne_eq, ← ne_eq, Color.ne_red] at hend
    obtain ⟨hk, htc⟩ := hend
    obtain ⟨n, rfl, ht⟩ := hshort.black htc
    cases k with
    | nil => exact (hk rfl).elim
    | cons f k =>
      obtain ⟨d, fp, cf, s⟩ := f
      have hs : s ≠ .nil := by
        rintro rfl
        cases hfits.above.1
      have hstep : ∀ m₁ fixnode again, eraseRound d m head (ptr head t) fp = (m₁, fixnode, again) →
          eraseFix head (fuel + 1) m (ptr head t) fp =
            if again then eraseFix head fuel m₁ fixnode (m₁.parent fixnode)
            else some (m₁.setColor fixnode .BLACK) := by
        intro m₁ fixnode again hround
        have hd := h.side_if (.inr hs)
        have hcol : m.color (ptr head t) = .BLACK := h.color_ptr.trans htc
        rw [eraseFix, if_pos ⟨h.root_ne hk, hcol⟩]
        cases again <;> simp [hd, hround]
      obtain ⟨m₁, cf₁, s₁, k₁, hrun₁, hbec₁, hsc₁, hfits₁, hwhere⟩ := eraseRound_sibling
        (q := ptr head t) h hfits
      obtain ⟨hs₁, N₁, hk₁, hred, hblack⟩ := hfits₁.above
      obtain ⟨m', t', hbec, hcol, hround⟩ := eraseBlack_spec (q := ptr head t) hbec₁.holds ht htc
        hs₁ hsc₁
      have hall := hbec₁.trans hbec
      rcases hround with ⟨hrun, hfp, hne, hredt, hblackt⟩ | ⟨hrun, htop, hredt, hblackt⟩
      · -- the node above is the one with a missing black node
        have hshort' : Short t' N₁ := by
          constructor
          · intro hc
            rw [hcol] at hc
            exact ⟨n + 1, hblack hc, hblackt hc⟩
          · intro hc
            rw [hcol] at hc
            rw [(hred hc).1]
            exact hredt hc
        have hpar : m'.parent fp = up head k₁ := by
          rw [← hfp]
          exact hbec.holds.parent_ptr hne
        simp only [List.length_cons] at hfuel
        rw [up, hstep _ _ _ (hrun₁.trans hrun), if_pos rfl, hpar]
        have hrest : ∃ m'' t'', eraseFix head fuel m' (ptr head t') (up head k₁) = some m'' ∧
            Becomes m' head (k₁.plug t') m'' t'' ∧ t''.color = .BLACK ∧ ∃ n', Balanced t'' n' := by
          rcases hwhere with hc | rfl
          · obtain ⟨fuel, rfl⟩ : ∃ f, fuel = f + 1 := ⟨fuel - 1, by omega⟩
            exact eraseFix_ends hbec.holds hshort' hk₁ (.inr (hcol.trans hc))
          · exact ih hbec.holds hshort' hk₁ (by omega)
        obtain ⟨m'', t'', hfix, hbec'', hdone⟩ := hrest
        rw [hfp] at hfix
        exact ⟨m'', t'', hfix, hall.trans hbec'', hdone⟩
      · -- the repair is over
        rw [up, hstep _ _ _ (hrun₁.trans hrun), if_neg Bool.false_ne_true, setColor_self htop]
        refine ⟨m', _, rfl, hall, ?_, ?_⟩
        · by_cases hk' : k₁ = []
          · subst hk'
            rw [Path.plug, hcol, ← Color.ne_red]
            exact fun hc => (hred hc).2.2.1 rfl
          · exact hk₁.root_black hk'
        · apply hk₁.plug (t := t')
          · cases cf₁ with
            | RED => exact (hred rfl).1 ▸ hredt rfl
            | BLACK => exact (hblack rfl) ▸ hblackt rfl
          · intro hc
            exact (hred (hcol.symm.trans hc)).2.2.2

/-! ### `rb_erase_node` -/

/-- Without a node that has one child at most, its subtree lacks a black node if it was one. -/
theorem short_of_fork (h : Balanced (fork d p c .nil t) N) :
    (c = .BLACK → Short t N) ∧ (c = .RED → Balanced t N ∧ t.color = .BLACK) := by
  constructor
  · rintro rfl
    obtain ⟨n, rfl, _, ht⟩ := h.of_fork_black
    exact ⟨fun _ => ⟨n, rfl, ht⟩, fun hc => ht.blacken_red hc⟩
  · rintro rfl
    obtain ⟨_, ht, _, hc⟩ := h.of_fork_red
    exact ⟨ht, hc⟩

/-- What follows once the node is out of the links. -/
theorem fix_becomes {fuel : ℕ} (h : Holds m head (k.plug t)) (hfits : Path.Fits k N)
    (hbal : Balanced (fork d q c .nil t) N) (hred : c = .RED → k ≠ []) (hcol : m.color p = c)
    (hfuel : k.length + 2 ≤ fuel) :
    ∃ m' t',
      (if m.color p = .BLACK then eraseFix head fuel m (ptr head t) (up head k) else some m) =
        some m' ∧ Becomes m head (k.plug t) m' t' ∧ t'.color = .BLACK ∧ ∃ n', Balanced t' n' := by
  obtain ⟨hshort, hrest⟩ := short_of_fork hbal
  rw [hcol]
  cases c with
  | BLACK => exact eraseFix_becomes h (hshort rfl) hfits hfuel
  | RED =>
    obtain ⟨ht, htc⟩ := hrest rfl
    exact ⟨m, _, if_neg (by decide), .refl h, hfits.root_black (hred rfl),
      hfits.plug ht fun hc => by rw [htc] at hc; cases hc⟩

theorem up_append {kr : Path ℕ} {f : Frame ℕ} : up head (kr ++ f :: k) = up f.label kr := by
  cases kr <;> rfl

variable {xs ys : List ℕ} {rb : Tree} {fuel : ℕ}

/-- The tree is as it should be after the repair. -/
theorem eraseFinish_sound (h : Sound rb t) (ht : t.inorder = xs ++ p :: ys)
    {x : RedBlack.Tree ℕ} (hx : Holds m rb.head (k.plug x))
    (hends : ∀ d, m.child d rb.head = (d.tip (k.plug x).inorder).getD rb.head)
    (hinorder : (k.plug x).inorder = xs ++ ys) (hcol : m.color p = c)
    (hbal : Balanced (fork d q c .nil x) N) (hfits : Path.Fits k N) (hred : c = .RED → k ≠ [])
    (hframe : ∀ q ∉ rb.head :: t.inorder, Agree rb.mem m q) (hfuel : k.length + 2 ≤ fuel) :
    ∃ rb' t', eraseFinish fuel rb p m (ptr rb.head x) (up rb.head k) = some rb' ∧
      Sound rb' t' ∧ t'.inorder = xs ++ ys ∧ rb'.head = rb.head ∧
      ∀ q ∉ rb.head :: t.inorder, Agree rb.mem rb'.mem q := by
  obtain ⟨m', t', hfix, hbec, hroot, hbal'⟩ := fix_becomes hx hfits hbal hred hcol hfuel
  refine ⟨⟨m', rb.head, rb.size - 1⟩, t', by rw [eraseFinish, hfix]; rfl,
    ⟨hbec.holds, ?_, ?_, hroot, hbal'⟩, hbec.inorder.trans hinorder, rfl, ?_⟩
  · intro d
    rw [hbec.ends, hends, hbec.inorder]
  · rw [hbec.inorder, hinorder, h.size, ht]
    simp only [List.length_append, List.length_cons]
    omega
  · intro q hq
    apply (hframe q hq).trans (hbec.frame q _)
    rw [hinorder]
    rw [ht] at hq
    simp only [List.mem_cons, List.mem_append, not_or] at hq ⊢
    exact ⟨hq.1, hq.2.1, hq.2.2.2⟩

/-- A node that has one child at most is erased. -/
theorem eraseOne_sound (h : Sound rb (k.plug (fork d p c .nil t)))
    (ht : (k.plug (fork d p c .nil t)).inorder = xs ++ p :: ys)
    (hfuel : (k.plug (fork d p c .nil t)).height + 2 ≤ fuel) :
    ∃ rb' t', ((unlinkOne rb.mem rb.head fuel p (ptr rb.head t)).bind fun (m, fixparent) =>
        eraseFinish fuel rb p m (ptr rb.head t) fixparent) = some rb' ∧
      Sound rb' t' ∧ t'.inorder = xs ++ ys ∧ rb'.head = rb.head ∧
      ∀ q ∉ rb.head :: (k.plug (fork d p c .nil t)).inorder, Agree rb.mem rb'.mem q := by
  have hnd := (List.nodup_cons.mp h.holds.nodup).2
  obtain ⟨n, hbal⟩ := h.balanced
  obtain ⟨N, hnode, hfits, hred⟩ := Path.exists_fits hbal h.root
  have hheight := Path.length_le_height (fork d p c .nil t) k
  rw [height_fork] at hheight
  have hinorder := Path.inorder_plug_child ht hnd
  obtain ⟨m, hrun, hholds, hends, hcol, hframe⟩ := unlinkOne_eq h.holds h.ends
    (show t.height ≤ fuel by omega)
  have hcp : m.color p = c := by
    rw [hcol]
    exact h.holds.node.2.2.1
  rw [hrun]
  exact eraseFinish_sound h ht hholds hends hinorder hcp hnode hfits
    (fun hc => (hred (fork_color.trans hc)).1) hframe (show k.length + 2 ≤ fuel by omega)

/-- `rb_erase` of a node of the tree: the tree stays as it should be, without the node, and the
result is the next node. -/
theorem eraseNode_sound (h : Sound rb t) (ht : t.inorder = xs ++ p :: ys)
    (hfuel : t.height + 2 ≤ fuel) :
    ∃ rb' t', eraseNode fuel rb p = some (rb', ys.head?.getD rb.head) ∧ Sound rb' t' ∧
      t'.inorder = xs ++ ys ∧ rb'.head = rb.head ∧
      ∀ q ∉ rb.head :: t.inorder, Agree rb.mem rb'.mem q := by
  have hnext := nodeNext_eq h.holds ht (show t.height ≤ fuel by omega)
  obtain ⟨c, l, r, k, rfl, hxs, hys⟩ := Path.exists_split ht (List.nodup_cons.mp h.holds.nodup).2
  have hplace := h.holds
  obtain ⟨_, ⟨hl, hr⟩, _, _⟩ := hplace.node (d := .left)
  have hleft : rb.mem.left p = ptr rb.head l := hl
  have hright : rb.mem.right p = ptr rb.head r := hr
  have hlnil : rb.mem.isnil (ptr rb.head l) = true ↔ l = .nil :=
    Holds.isnil_ptr (k := ⟨.left, p, c, r⟩ :: k) hplace
  have hrnil : rb.mem.isnil (ptr rb.head r) = true ↔ r = .nil :=
    Holds.isnil_ptr (k := ⟨.right, p, c, l⟩ :: k) hplace
  rw [eraseNode, hnext, Option.bind_some]
  simp only [hleft, hright]
  by_cases hln : l = .nil
  · subst hln
    obtain ⟨rb', t', hrun, hrest⟩ := eraseOne_sound (d := .left) (t := r) h ht hfuel
    rw [if_pos (hlnil.mpr rfl), hrun]
    exact ⟨rb', t', rfl, hrest⟩
  rw [if_neg (mt hlnil.mp hln)]
  by_cases hrn : r = .nil
  · subst hrn
    obtain ⟨rb', t', hrun, hrest⟩ := eraseOne_sound (d := .right) (t := l) h ht hfuel
    rw [if_pos (hrnil.mpr rfl), hrun]
    exact ⟨rb', t', rfl, hrest⟩
  rw [if_neg (mt hrnil.mp hrn)]
  -- the next node takes the place
  obtain ⟨w, cw, x, kr, rfl, hside⟩ := Path.exists_first hrn
  have hplug : k.plug (.node p c l (kr.plug (.node w cw .nil x))) =
      Path.plug (.node w cw .nil x) (kr ++ ⟨.right, p, c, l⟩ :: k) := by
    rw [Path.plug_append]
    rfl
  have hfirst : ∀ t, (kr.plug t).inorder = t.inorder ++ kr.after := by
    intro t
    rw [Path.inorder_plug, Path.before_of_left hside, List.nil_append]
  have hnode : ys.head?.getD rb.head = w := by
    rw [hys, hfirst]
    rfl
  have hw : rb.mem.right w = ptr rb.head x := by
    rw [hplug] at hplace
    exact (hplace.node (d := .left)).2.1.2
  obtain ⟨m, hrun, hholds, hchild, hcol, hframe⟩ := unlinkTwo_eq hplace hside hln
  have hplug' : k.plug (.node w c l (kr.plug x)) = Path.plug x (kr ++ ⟨.right, w, c, l⟩ :: k) := by
    rw [Path.plug_append]
    rfl
  have hinorder : (Path.plug x (kr ++ ⟨.right, w, c, l⟩ :: k)).inorder = xs ++ ys := by
    rw [← hplug', hxs, hys, Path.inorder_plug, inorder, hfirst, hfirst]
    simp [inorder]
  have hends : ∀ d, m.child d rb.head =
      (d.tip (Path.plug x (kr ++ ⟨.right, w, c, l⟩ :: k)).inorder).getD rb.head := by
    intro d
    rw [hchild, h.ends, ht, hinorder, Side.tip_middle]
    · rw [hxs]
      simp [hln]
    · rw [hys, hfirst]
      simp [inorder]
  obtain ⟨n, hbal⟩ := h.balanced
  have hroot := h.root
  rw [hplug] at hbal hroot
  obtain ⟨N, hbalw, hfits, hred⟩ := Path.exists_fits hbal hroot
  have hheight := Path.length_le_height (.node w cw .nil x) (kr ++ ⟨.right, p, c, l⟩ :: k)
  rw [← hplug] at hheight
  simp only [height, List.length_append, List.length_cons] at hheight
  have hlength : (kr ++ ⟨.right, w, c, l⟩ :: k).length + 2 ≤ fuel := by
    simp only [List.length_append, List.length_cons]
    omega
  obtain ⟨rb', t', hrun', hrest⟩ := eraseFinish_sound h ht (hplug' ▸ hholds) hends hinorder
    hcol (d := .left) (q := w) hbalw hfits.relabel (fun _ => by simp) hframe hlength
  rw [hnode, hw, hrun]
  rw [up_append] at hrun'
  refine ⟨rb', t', ?_, hrest⟩
  simp only [hrun', Option.map_some]

end Zrhos.Rbtree
