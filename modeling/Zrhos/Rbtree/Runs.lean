import Zrhos.Rbtree.Forest
import Zrhos.Rbtree.Free

/-! Runs of the calls of `rbtree.c` on any number of trees in one memory. Whatever the calls
and their order, the answers are those of the ordered lists, and no loop takes more rounds than
it is given here: those along a path twice the logarithm of the number of nodes. -/
namespace Zrhos.Rbtree
open RedBlack Rbtree.Mem

/-- Rounds for a loop that goes up or down a tree of `n` nodes. -/
def pathRounds (n : ℕ) : ℕ := 2 * Nat.log 2 (n + 1) + 2

/-- Rounds for a loop that comes by every node. -/
def nodeRounds (n : ℕ) : ℕ := n + 1

variable {rb : Tree} {t : RedBlack.Tree ℕ} {xs ys zs : List ℕ} {head p start stop : ℕ}

/-! ### The calls that only look -/

def Query.run (comp : Comp) (rb : Tree) : Query → Option Answer
  | lmst => some (.node (rb.mem.left rb.head))
  | rmst => some (.node (rb.mem.right rb.head))
  | next node => (nodeNext rb.mem (pathRounds rb.size) node).map .node
  | prev node => (nodePrev rb.mem (pathRounds rb.size) node).map .node
  | lbnd val => (Rbtree.lbnd comp rb.mem rb.head (pathRounds rb.size) val).map .node
  | ubnd val => (Rbtree.ubnd comp rb.mem rb.head (pathRounds rb.size) val).map .node
  | eqrange val =>
    (Rbtree.eqrange comp rb.mem rb.head (pathRounds rb.size) val).map fun (first, last) =>
      .nodes [first, last]
  | find val => (rbFind comp rb (pathRounds rb.size) val).map .node
  | vcnt val => (rbVcnt comp (pathRounds rb.size) (nodeRounds rb.size) rb val).map .count
  | dist start stop =>
    (rbDist (pathRounds rb.size) (nodeRounds rb.size) rb start stop).map .count

theorem Sound.pathRounds (h : Sound rb t) : t.height + 2 ≤ pathRounds rb.size := by
  rw [h.size, Rbtree.pathRounds]
  exact Nat.add_le_add_right h.height_le 2

theorem Sound.nodeRounds (h : Sound rb t) :
    2 * Nat.log 2 (t.inorder.length + 1) + 2 ≤ Rbtree.pathRounds rb.size ∧
      t.inorder.length < nodeRounds rb.size := by
  rw [h.size]
  exact ⟨le_rfl, Nat.lt_succ_self _⟩

theorem takeWhile_ne (hp : p ∉ xs) : (xs ++ p :: ys).takeWhile (· ≠ p) = xs ∧
    (xs ++ p :: ys).dropWhile (· ≠ p) = p :: ys := by
  have hall : ∀ q ∈ xs, decide (q ≠ p) = true := fun q hq => by
    simpa using fun he : q = p => hp (he ▸ hq)
  rw [List.takeWhile_append_of_pos hall, List.dropWhile_append_of_pos hall]
  simp

theorem head_drop_idxOf (hp : p ∈ xs ∨ p = head) (hhead : head ∉ xs) :
    (xs.drop (xs.idxOf p)).head?.getD head = p := by
  rw [List.head?_drop]
  rcases hp with hp | rfl
  · rw [List.getElem?_idxOf hp, Option.getD_some]
  · rw [List.idxOf_eq_length hhead, List.getElem?_eq_none le_rfl, Option.getD_none]

/-- The nodes in front of a range, those in it and those behind it. -/
theorem IsRange.parts (h : IsRange head xs start stop) (hhead : head ∉ xs) :
    ∃ ys, xs = xs.take (xs.idxOf start) ++ ys ++ xs.drop (xs.idxOf stop) ∧
      start = (ys ++ xs.drop (xs.idxOf stop)).head?.getD head ∧
      stop = (xs.drop (xs.idxOf stop)).head?.getD head ∧
      ys.length = xs.idxOf stop - xs.idxOf start := by
  obtain ⟨hstart, hstop, hle⟩ := h
  have hdrop : xs.drop (xs.idxOf stop) =
      (xs.drop (xs.idxOf start)).drop (xs.idxOf stop - xs.idxOf start) := by
    rw [List.drop_drop, Nat.add_sub_cancel' hle]
  refine ⟨(xs.drop (xs.idxOf start)).take (xs.idxOf stop - xs.idxOf start), ?_, ?_,
    (head_drop_idxOf hstop hhead).symm, ?_⟩
  · rw [List.append_assoc, hdrop, List.take_append_drop, List.take_append_drop]
  · rw [hdrop, List.take_append_drop, head_drop_idxOf hstart hhead]
  · have hlen : xs.idxOf stop ≤ xs.length := List.idxOf_le_length
    rw [List.length_take, List.length_drop]
    omega

/-- The calls that only look give what the ordered nodes say. -/
theorem Query.run_eq {κ : Type} [LinearOrder κ] {key : ℕ → κ} {comp : Comp} {q : Query}
    (h : Sound rb t) (ho : Ordered comp key t.inorder) (hq : q.Valid rb.head t.inorder) :
    q.run comp rb = some (q.answer key rb.head t.inorder) := by
  have hlt : t.height < pathRounds rb.size := (Nat.le_succ _).trans h.pathRounds
  have hnd := (List.nodup_cons.mp h.holds.nodup).2
  cases q with
  | lmst => exact congrArg (fun p => some (Answer.node p)) h.lmst
  | rmst => exact congrArg (fun p => some (Answer.node p)) (h.ends .right)
  | next node =>
    obtain ⟨xs, ys, ht⟩ := List.append_of_mem hq
    rw [ht, List.nodup_middle, List.nodup_cons, List.mem_append, not_or] at hnd
    rw [Query.run, nodeNext_eq h.holds ht hlt.le, Query.answer, ht, (takeWhile_ne hnd.1.1).2]
    rfl
  | prev node =>
    rcases hq with hq | rfl
    · obtain ⟨xs, ys, ht⟩ := List.append_of_mem hq
      rw [ht, List.nodup_middle, List.nodup_cons, List.mem_append, not_or] at hnd
      rw [Query.run, nodePrev_eq h.holds ht hlt.le, Query.answer, ht, (takeWhile_ne hnd.1.1).1]
      rfl
    · have hall : t.inorder.takeWhile (· ≠ rb.head) = t.inorder := by
        rw [List.takeWhile_eq_self_iff]
        intro q hq
        simpa using fun he : q = rb.head => h.head_notin (he ▸ hq)
      rw [Query.run, nodePrev_head h.holds, Query.answer, hall]
      exact congrArg (fun p => some (Answer.node p)) (h.ends .right)
  | lbnd val => rw [Query.run, lbnd_eq val h.holds ho hlt, Option.map_some, Query.answer]
  | ubnd val => rw [Query.run, ubnd_eq val h.holds ho hlt, Option.map_some, Query.answer]
  | eqrange val => rw [Query.run, eqrange_eq h.holds ho hlt, Option.map_some, Query.answer]
  | find val => rw [Query.run, rbFind_eq val h.holds ho hlt, Option.map_some, Query.answer]
  | vcnt val =>
    rw [Query.run, rbVcnt_eq h ho h.nodeRounds.1 h.nodeRounds.2, Option.map_some, Query.answer]
  | dist start stop =>
    obtain ⟨ys, ht, hstart, hstop, hlength⟩ := hq.parts h.head_notin
    have hle : ys.length ≤ t.inorder.length :=
      hlength ▸ (Nat.sub_le _ _).trans List.idxOf_le_length
    have hdist := rbDist_eq h ht hlt.le (hle.trans_lt h.nodeRounds.2)
    rw [← hstart, ← hstop, hlength] at hdist
    rw [Query.run, hdist, Option.map_some, Query.answer]

/-! ### The machine -/

/-- The memory with the trees: `size`, `_multi` and the keys that the compare function looks
at. -/
structure State (κ : Type) where
  mem : Mem
  size : ℕ → ℕ
  multi : ℕ → Bool
  key : ℕ → κ

variable {κ σ : Type}

def Mem.store (m : Mem) (p : ℕ) (cell : Cell) : Mem :=
  let m := m.setParent p cell.parent
  let m := m.setChild .left p cell.left
  let m := m.setChild .right p cell.right
  let m := m.setColor p cell.color
  m.setIsnil p cell.isnil

namespace State

def tree (s : State κ) (head : ℕ) : Tree := ⟨s.mem, head, s.size head⟩

def put (s : State κ) (rb : Tree) : State κ :=
  { s with mem := rb.mem, size := Function.update s.size rb.head rb.size }

def store (s : State κ) (p : ℕ) (cell : Cell) (k : κ) : State κ :=
  { s with mem := s.mem.store p cell, key := Function.update s.key p k }

def init (s : State κ) (head : ℕ) (multi : Bool) : State κ :=
  let s := { s with multi := Function.update s.multi head multi }
  s.put (rbInit s.mem head)

def clearFree (freef : FreeF σ) (s : State κ) (head : ℕ) (e : σ) :
    Option (σ × State κ × List ℕ) :=
  (rbClearFree freef.run (pathRounds (s.size head)) (nodeRounds (s.size head)) e
    (s.tree head)).map fun (e, rb, freed) => (e, s.put rb, freed)

def erase (s : State κ) (head node : ℕ) : Option (State κ × ℕ) :=
  (rbErase (pathRounds (s.size head)) (s.tree head) node).map fun (rb, next) => (s.put rb, next)

variable [LinearOrder κ]

def comp (s : State κ) : Comp := fun a b => decide (s.key a < s.key b)

def insert (s : State κ) (head node : ℕ) : Option (State κ × ℕ × Bool) :=
  (rbInsert s.comp (s.multi head) (pathRounds (s.size head)) (s.tree head) node).map
    fun (rb, p, out) => (s.put rb, p, out)

def step (freef : FreeF σ) (s : State κ) : Op κ σ → Option (State κ × Answer)
  | .store p cell k => some (s.store p cell k, .nothing)
  | .init head multi => some (s.init head multi, .nothing)
  | .clear head => some (s.put (rbClear (s.tree head)), .nothing)
  | .clearFree head e =>
    (s.clearFree freef head e).map fun (_, s, freed) => (s, .nodes freed)
  | .insert head node => (s.insert head node).map fun (s, p, out) => (s, .inserted p out)
  | .erase head node => (s.erase head node).map fun (s, next) => (s, .node next)
  | .eraseRange head start stop =>
    (rbEraseRange (pathRounds (s.size head)) (nodeRounds (s.size head)) (s.tree head) start
      stop).map fun (rb, next) => (s.put rb, .node next)
  | .eraseVal head val =>
    (rbEraseVal s.comp (pathRounds (s.size head)) (nodeRounds (s.size head)) (s.tree head)
      val).map fun (rb, n) => (s.put rb, .count n)
  | .query head q => (q.run s.comp (s.tree head)).map fun a => (s, a)

def run (freef : FreeF σ) (s : State κ) : List (Op κ σ) → Option (State κ × List Answer)
  | [] => some (s, [])
  | op :: ops => (s.step freef op).bind fun (s, a) =>
    (run freef s ops).map fun (s, as) => (s, a :: as)

end State

/-! ### Refinement -/

/-- The tree in memory has the nodes. -/
def Carries (rb : Tree) (nodes : List ℕ) : Prop := ∃ t, t.inorder = nodes ∧ Sound rb t

structure Refines (s : State κ) (F : Forest κ) : Prop where
  key : s.key = F.key
  multi : ∀ {head b}, F.trees head = some b → s.multi head = b.multi
  carries : ∀ {head b}, F.trees head = some b → Carries (s.tree head) b.nodes

variable {s : State κ} {F : Forest κ} {freef : FreeF σ} {e : σ} {b : Contents}
  {touched nodes : List ℕ} {node : ℕ}

theorem Carries.congr {m' : Mem} (h : Carries rb nodes)
    (ha : ∀ q ∈ rb.head :: nodes, Agree rb.mem m' q) : Carries { rb with mem := m' } nodes := by
  obtain ⟨t, rfl, ht⟩ := h
  exact ⟨t, rfl, ht.congr ha⟩

theorem store_agree {m : Mem} {q : ℕ} {cell : Cell} (hq : q ≠ p) : Agree m (m.store p cell) q := by
  refine ⟨?_, fun d => ?_, ?_, ?_⟩ <;> simp [Mem.store, hq]

theorem clear_carries : Carries (rbClear rb) [] := ⟨.nil, rfl, headInit_sound⟩

theorem Refines.store {cell : Cell} {k : κ} (h : Refines s F) (hfree : F.Free p) :
    Refines (s.store p cell k) (F.setKey p k) := by
  refine ⟨by rw [State.store, h.key, Forest.setKey], fun hb => h.multi hb, fun hb => ?_⟩
  apply (h.carries hb).congr
  intro q hq
  apply store_agree
  rintro rfl
  exact hfree _ _ hb hq

/-- What lies in no tree may change. -/
theorem Refines.write {mem : Mem} (h : Refines s F)
    (hframe : ∀ q, ¬ F.Free q → Agree s.mem mem q) : Refines { s with mem } F where
  key := h.key
  multi := h.multi
  carries {head b} hb := (h.carries hb).congr fun q hq => hframe q fun hfree => hfree head b hb hq

theorem start_refines : Refines s (Forest.start s.key) where
  key := rfl
  multi hb := by cases hb
  carries hb := by cases hb

/-- The memory is changed at no node of another tree. -/
def Spares (F : Forest κ) (head : ℕ) (m m' : Mem) : Prop :=
  ∀ h b, h ≠ head → F.trees h = some b → ∀ q ∈ h :: b.nodes, Agree m m' q

theorem Spares.of_within {m m' : Mem} (hwithin : F.Within head touched)
    (hframe : ∀ q ∉ head :: touched, Agree m m' q) : Spares F head m m' :=
  fun h b hne hb q hq => hframe q fun hqt => hwithin q hqt h b hne hb hq

theorem Refines.put (h : Refines s F) (hcarries : Carries rb b.nodes) (hhead : rb.head = head)
    (hspares : Spares F head s.mem rb.mem) :
    Refines ({ s with multi := Function.update s.multi head b.multi }.put rb) (F.put head b) := by
  subst hhead
  refine ⟨h.key, fun hb => ?_, fun {h'} b' hb => ?_⟩
  · rcases Forest.trees_put hb with ⟨rfl, rfl⟩ | ⟨hne, hb⟩
    · exact Function.update_self ..
    · exact (Function.update_of_ne hne ..).trans (h.multi hb)
  · rcases Forest.trees_put hb with ⟨rfl, rfl⟩ | ⟨hne, hb⟩
    · simpa [State.tree, State.put] using hcarries
    · simpa [State.tree, State.put, Function.update_of_ne hne] using
        (h.carries hb).congr (hspares h' b' hne hb)

/-- Calls that change the nodes of one tree. -/
theorem Refines.setNodes (h : Refines s F) (hb : F.trees head = some b)
    (hcarries : Carries rb nodes) (hhead : rb.head = head)
    (hspares : Spares F head s.mem rb.mem) :
    Refines (s.put rb) (F.setNodes head nodes) := by
  have hput := h.put (b := { b with nodes }) hcarries hhead hspares
  have hmulti : Function.update s.multi head b.multi = s.multi := by
    rw [← h.multi hb, Function.update_eq_self]
  rw [Forest.setNodes, Forest.get_eq hb]
  simpa only [hmulti] using hput

variable [LinearOrder κ]

theorem Refines.ordered (h : Refines s F) (hok : F.Ok) (hb : F.trees head = some b) :
    Ordered s.comp F.key b.nodes :=
  ⟨fun _ _ => by rw [← h.key]; rfl, hok.sorted hb⟩

/-- `rb_insert` puts the node behind those that do not exceed it, unless its key is there. -/
theorem Refines.insert (h : Refines s F) (hok : F.Ok) (hb : F.trees head = some b)
    (hfree : F.Free node) :
    ∃ s' q out, s.insert head node = some (s', q, out) ∧
      (F.step (.insert head node : Op κ σ)).2 = .inserted q out ∧
        Refines s' (F.step (.insert head node : Op κ σ)).1 := by
  obtain ⟨t, ht, hsound⟩ := h.carries hb
  have hwithin := hok.within_free hb hfree
  have hnode : node ∉ head :: t.inorder := ht ▸ hfree head b hb
  have hordered : Ordered s.comp F.key t.inorder := ht ▸ h.ordered hok hb
  simp only [State.insert, Forest.step]
  cases hr : F.rival head node with
  | some q =>
    obtain ⟨hm, hq, hkey⟩ := Forest.rival_eq_some hb hr
    have huniq : ∀ z ∈ t.inorder, F.key z = F.key q → z = q := fun z hz hzq =>
      (hok.unique hb hm).eq_of_key (ht ▸ hz) hq hzq
    have hfound := rbInsert_found hsound hordered hnode hsound.pathRounds (ht ▸ hq) hkey huniq
    rw [h.multi hb, hm]
    refine ⟨_, _, _, by rw [show s.size head = (s.tree head).size from rfl, hfound]; rfl, rfl, ?_⟩
    have hsame := h.setNodes hb ⟨t, ht, nodeInit_sound hsound hnode⟩ rfl
      (.of_within hwithin fun q hq => nodeInit_agree fun he => hq (by simp [he]))
    rwa [Forest.setNodes, Forest.get_eq hb, Forest.put_self hb] at hsame
  | none =>
    have hnew : s.multi head = true ∨ ∀ q ∈ t.inorder, F.key q ≠ F.key node := by
      rw [h.multi hb, ht]
      exact Forest.rival_eq_none hb hr
    obtain ⟨rb', t', hrun, hsound', hinorder, hhead, hframe⟩ := rbInsert_new hsound hordered hnode
      hsound.pathRounds hnew
    refine ⟨s.put rb', node, true, ?_, rfl, ?_⟩
    · rw [show s.size head = (s.tree head).size from rfl, hrun]
      rfl
    · apply h.setNodes hb ⟨t', ?_, hsound'⟩ hhead
      · exact .of_within hwithin fun q hq => hframe q (ht ▸ hq)
      · rw [hinorder, ht, Forest.get_eq hb, OrderedBag.insert]

/-- `rb_erase` takes the node out of the tree and gives the one behind it. -/
theorem Refines.erase (h : Refines s F) (hok : F.Ok) (hb : F.trees head = some b)
    (hnode : node ∈ b.nodes) :
    ∃ s' next, s.erase head node = some (s', next) ∧
      (F.step (.erase head node : Op κ σ)).2 = .node next ∧
        Refines s' (F.step (.erase head node : Op κ σ)).1 := by
  obtain ⟨t, ht, hsound⟩ := h.carries hb
  rw [← ht] at hnode
  obtain ⟨xs, ys, hsplit⟩ := List.append_of_mem hnode
  have hnd := (List.nodup_cons.mp hsound.holds.nodup).2
  rw [hsplit, List.nodup_middle, List.nodup_cons, List.mem_append, not_or] at hnd
  obtain ⟨rb', t', hrun, hsound', hinorder, hhead, hframe⟩ := eraseNode_sound hsound hsplit
    hsound.pathRounds
  rw [hsplit] at ht
  refine ⟨s.put rb', ys.head?.getD head, ?_, ?_,
    h.setNodes hb ⟨t', ?_, hsound'⟩ hhead ?_⟩
  · rw [State.erase, show s.size head = (s.tree head).size from rfl, rbErase, hrun]
    rfl
  · rw [Forest.step, Query.answer, Forest.get_eq hb, ← ht, (takeWhile_ne hnd.1.1).2]
    rfl
  · rw [hinorder, Forest.get_eq hb, ← ht, List.erase_append_right _ hnd.1.1, List.erase_cons_head]
  · exact .of_within (hok.within hb) fun q hq => hframe q (hsplit ▸ ht ▸ hq)

/-- `rb_clear_free` empties the tree and frees its nodes in order, each once. -/
theorem Refines.clearFree (freef : FreeF σ) (h : Refines s F) (hok : F.Ok)
    (hb : F.trees head = some b) (huses : ∀ q ∈ freef.uses e, F.Free q) :
    ∃ e' s', s.clearFree freef head e = some (e', s', b.nodes) ∧
      (∀ q ∈ freef.uses e', q ∈ freef.uses e ∨ q ∈ b.nodes) ∧ Refines s' (F.setNodes head []) := by
  obtain ⟨t, ht, hsound⟩ := h.carries hb
  have hown : ∀ q ∈ (s.tree head).head :: t.inorder, q ∉ freef.uses e :=
    fun q hq hu => huses q hu head b hb (ht ▸ hq)
  obtain ⟨e', rb', hrun, hsound', hhead, htakes, hframe⟩ := rbClearFree_sound hsound hown
    hsound.nodeRounds.1 hsound.nodeRounds.2
  rw [ht] at htakes
  refine ⟨e', s.put rb', ?_, htakes,
    h.setNodes hb ⟨.nil, rfl, hsound'⟩ hhead fun h' b' hne hb' q hq => ?_⟩
  · rw [State.clearFree, show s.size head = (s.tree head).size from rfl, hrun, ht]
    rfl
  · apply hframe q fun hu => huses q hu h' b' hb' hq
    rw [ht]
    exact fun hqt => hok.apart hb hb' hne.symm hqt hq

/-- Every call gives the answer of the ordered lists, and they describe the trees behind it. -/
theorem step_refines {op : Op κ σ} (hok : F.Ok) (h : Refines s F) (hop : F.Valid freef.uses op) :
    ∃ s', s.step freef op = some (s', (F.step op).2) ∧ Refines s' (F.step op).1 := by
  cases op with
  | store p cell k => exact ⟨_, rfl, h.store hop⟩
  | init head multi =>
    refine ⟨_, rfl, h.put (b := ⟨multi, []⟩) ⟨.nil, rfl, headInit_sound⟩ rfl ?_⟩
    intro h' b' hne hb q hq
    apply headInit_agree
    rintro rfl
    exact hop h' b' hne hb hq
  | clear head =>
    obtain ⟨b, hb⟩ := Option.isSome_iff_exists.mp hop
    refine ⟨_, rfl, h.setNodes hb clear_carries rfl (.of_within (hok.within hb) fun q hq => ?_)⟩
    exact headInit_agree fun he => hq (by simp [he, State.tree])
  | clearFree head e =>
    obtain ⟨b, hb⟩ := Option.isSome_iff_exists.mp hop.1
    obtain ⟨e', s', hrun, -, href⟩ := h.clearFree freef hok hb hop.2
    exact ⟨s', by rw [State.step, hrun, Forest.step, Forest.get_eq hb]; rfl, href⟩
  | insert head node =>
    obtain ⟨b, hb⟩ := Option.isSome_iff_exists.mp hop.1
    obtain ⟨s', q, out, hrun, hanswer, href⟩ := h.insert (σ := σ) hok hb hop.2
    exact ⟨s', by rw [State.step, hrun, hanswer]; rfl, href⟩
  | erase head node =>
    obtain ⟨b, hb⟩ := Option.isSome_iff_exists.mp hop.1
    obtain ⟨s', q, hrun, hanswer, href⟩ := h.erase (σ := σ) hok hb (Forest.get_eq hb ▸ hop.2)
    exact ⟨s', by rw [State.step, hrun, hanswer]; rfl, href⟩
  | eraseRange head start stop =>
    obtain ⟨b, hb⟩ := Option.isSome_iff_exists.mp hop.1
    obtain ⟨t, ht, hsound⟩ := h.carries hb
    have hrange := hop.2
    rw [Forest.get_eq hb, ← ht] at hrange
    obtain ⟨ys, hsplit, hstart, hstop, hlength⟩ := hrange.parts hsound.head_notin
    have hle : ys.length ≤ t.inorder.length :=
      hlength ▸ (Nat.sub_le _ _).trans List.idxOf_le_length
    obtain ⟨rb', t', hrun, hsound', hinorder, hhead, hframe⟩ := rbEraseRange_sound hsound hsplit
      hsound.nodeRounds.1 (hle.trans_lt hsound.nodeRounds.2)
    rw [show (s.tree head).head = head from rfl, ← hstart, ← hstop] at hrun
    refine ⟨s.put rb', ?_, h.setNodes hb ⟨t', ?_, hsound'⟩ hhead ?_⟩
    · rw [State.step, show s.size head = (s.tree head).size from rfl, hrun]
      rfl
    · rw [hinorder, Forest.get_eq hb, ← ht]
    · exact .of_within (hok.within hb) fun q hq => hframe q (ht ▸ hq)
  | eraseVal head val =>
    obtain ⟨b, hb⟩ := Option.isSome_iff_exists.mp hop
    obtain ⟨t, ht, hsound⟩ := h.carries hb
    obtain ⟨rb', t', hrun, hsound', hinorder, hhead, hframe⟩ := rbEraseVal_sound hsound
      (ht ▸ h.ordered hok hb) hsound.nodeRounds.1 hsound.nodeRounds.2
    refine ⟨s.put rb', ?_, h.setNodes hb ⟨t', ?_, hsound'⟩ hhead ?_⟩
    · rw [State.step, show s.size head = (s.tree head).size from rfl, hrun, Forest.step,
        Query.answer, Forest.get_eq hb, ht]
      rfl
    · rw [hinorder, Forest.get_eq hb, ht]
    · exact .of_within (hok.within hb) fun q hq => hframe q (ht ▸ hq)
  | query head q =>
    obtain ⟨b, hb⟩ := Option.isSome_iff_exists.mp hop.1
    obtain ⟨t, ht, hsound⟩ := h.carries hb
    have hq := hop.2
    rw [Forest.get_eq hb, ← ht] at hq
    refine ⟨s, ?_, h⟩
    rw [State.step, Query.run_eq hsound (ht ▸ h.ordered hok hb) hq,
      Forest.step, Forest.get_eq hb, ht]
    rfl

theorem run_refines {ops : List (Op κ σ)} (hok : F.Ok) (h : Refines s F)
    (hops : F.ValidRun freef.uses ops) :
    ∃ s', s.run freef ops = some (s', (F.run ops).2) ∧ (F.run ops).1.Ok ∧
      Refines s' (F.run ops).1 := by
  induction ops generalizing s F with
  | nil => exact ⟨s, rfl, hok, h⟩
  | cons op ops ih =>
    obtain ⟨s₁, hstep, href⟩ := step_refines hok h hops.1
    obtain ⟨s₂, hrun, hok₂, href₂⟩ := ih (hok.step hops.1) href hops.2
    refine ⟨s₂, ?_, hok₂, href₂⟩
    simp only [State.run, hstep, Option.bind_some, hrun, Option.map_some]
    rfl

/-- Whatever calls are made, in whatever order, on whatever trees: the answers are those of the
ordered lists, all trees are red-black trees that hold them, and every loop ends within its
rounds. -/
theorem run_answers {ops : List (Op κ σ)} (freef : FreeF σ) (s : State κ)
    (hops : (Forest.start s.key).ValidRun freef.uses ops) :
    ∃ s', s.run freef ops = some (s', ((Forest.start s.key).run ops).2) ∧
      ((Forest.start s.key).run ops).1.Ok ∧ Refines s' ((Forest.start s.key).run ops).1 :=
  run_refines Forest.start_ok start_refines hops

/-- Memory in which nothing was stored yet, where the address of a node is its key. -/
def blank : State ℕ :=
  ⟨⟨fun _ => 0, fun _ _ => 0, fun _ => .RED, fun _ => false⟩, fun _ => 0, fun _ => false, id⟩

/-- Two trees: the nodes of one are freed, and one of them comes into the other. -/
def someCalls : List (Op ℕ (List ℕ)) :=
  [.init 10 false, .init 20 true, .insert 10 5, .insert 10 3, .insert 20 7,
    .store 6 ⟨0, 0, 0, .RED, false⟩ 5, .insert 10 6, .clearFree 10 [2], .insert 20 3,
    .query 20 .lmst]

theorem someCalls_valid : (Forest.start id).ValidRun memFreeF.uses someCalls := by
  have hone := (Forest.among_start (id : ℕ → ℕ)).put 10 ⟨false, []⟩
  have htwo := hone.put 20 ⟨true, []⟩
  have hfive := htwo.put 10 ⟨false, [5]⟩
  have hthree := hfive.put 10 ⟨false, [3, 5]⟩
  have hseven := hthree.put 20 ⟨true, [7]⟩
  have hfreed := hseven.put 10 ⟨false, []⟩
  refine ⟨fun h b _ hb => ?_, fun h b _ hb => ?_, ⟨rfl, htwo.free (by decide)⟩,
    ⟨rfl, hfive.free (by decide)⟩, ⟨rfl, hthree.free (by decide)⟩, hseven.free (by decide),
    ⟨rfl, hseven.free (by decide)⟩, ⟨rfl, fun q hq => ?_⟩, ⟨rfl, hfreed.free (by decide)⟩,
    ⟨rfl, trivial⟩, trivial⟩
  · exact (Forest.among_start id).free (by decide) h b hb
  · exact hone.free (by decide) h b hb
  · have hq' : q = 0 ∨ q = 2 := by simpa [memFreeF] using hq
    rcases hq' with rfl | rfl <;> exact hseven.free (by decide)

theorem run_answers_freed : ∃ s, blank.run memFreeF someCalls = some (s,
    [.nothing, .nothing, .inserted 5 true, .inserted 3 true, .inserted 7 true, .nothing,
      .inserted 5 false, .nodes [3, 5], .inserted 3 true, .node 3]) := by
  obtain ⟨s, hrun, -⟩ := run_answers memFreeF blank someCalls_valid
  exact ⟨s, hrun⟩

end Zrhos.Rbtree
