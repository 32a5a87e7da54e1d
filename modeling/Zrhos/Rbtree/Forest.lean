import Zrhos.Lib.OrderedBag
import Zrhos.Lib.RedBlack

/-! What the trees of `rbtree.c` are for: ordered lists of nodes, one below each head node. The
nodes are named by their addresses; a node lies in one tree at most, and its key is what the
compare function looks at. -/
namespace Zrhos.Rbtree

/-- The calls that only look. Those that take nodes of the tree take `rb_head` for its end. -/
inductive Query
  | lmst
  | rmst
  | next (node : ℕ)
  | prev (node : ℕ)
  | lbnd (val : ℕ)
  | ubnd (val : ℕ)
  | eqrange (val : ℕ)
  | find (val : ℕ)
  | vcnt (val : ℕ)
  | dist (start stop : ℕ)
  deriving DecidableEq

inductive Answer
  | nothing
  | node (p : ℕ)
  | nodes (ps : List ℕ)
  | count (n : ℕ)
  | inserted (p : ℕ) (out : Bool)
  deriving DecidableEq

variable {κ : Type}

/-- The answers of the tree with the head node `head` and the nodes `xs` in order. -/
def Query.answer [LinearOrder κ] (key : ℕ → κ) (head : ℕ) (xs : List ℕ) : Query → Answer
  | lmst => .node (xs.head?.getD head)
  | rmst => .node (xs.getLast?.getD head)
  | next node => .node ((xs.dropWhile (· ≠ node)).tail.head?.getD head)
  | prev node => .node ((xs.takeWhile (· ≠ node)).getLast?.getD head)
  | lbnd val => .node ((xs.find? (key val ≤ key ·)).getD head)
  | ubnd val => .node ((xs.find? (key val < key ·)).getD head)
  | eqrange val =>
    .nodes [(xs.find? (key val ≤ key ·)).getD head, (xs.find? (key val < key ·)).getD head]
  | find val => .node ((xs.find? (key · = key val)).getD head)
  | vcnt val => .count (xs.countP (key · = key val))
  | dist start stop => .count (xs.idxOf stop - xs.idxOf start)

/-- The ends of a range stand in the tree, and not the wrong way around. -/
def IsRange (head : ℕ) (xs : List ℕ) (start stop : ℕ) : Prop :=
  (start ∈ xs ∨ start = head) ∧ (stop ∈ xs ∨ stop = head) ∧ xs.idxOf start ≤ xs.idxOf stop

def Query.Valid (head : ℕ) (xs : List ℕ) : Query → Prop
  | next node => node ∈ xs
  | prev node => node ∈ xs ∨ node = head
  | dist start stop => IsRange head xs start stop
  | _ => True

/-- What may lie in a block of memory where the fields of a node are. -/
structure Cell where
  parent : ℕ
  left : ℕ
  right : ℕ
  color : RedBlack.Color
  isnil : Bool

inductive Op (κ σ : Type)
  | store (p : ℕ) (cell : Cell) (k : κ)
  | init (head : ℕ) (multi : Bool)
  | clear (head : ℕ)
  | clearFree (head : ℕ) (s : σ)
  | insert (head node : ℕ)
  | erase (head node : ℕ)
  | eraseRange (head start stop : ℕ)
  | eraseVal (head val : ℕ)
  | query (head : ℕ) (q : Query)

structure Contents where
  multi : Bool
  nodes : List ℕ

structure Forest (κ : Type) where
  trees : ℕ → Option Contents
  key : ℕ → κ

namespace Forest

def get (F : Forest κ) (head : ℕ) : Contents := (F.trees head).getD ⟨false, []⟩

/-- Before the first `rb_init`. -/
def start (key : ℕ → κ) : Forest κ := ⟨fun _ => none, key⟩

def put (F : Forest κ) (head : ℕ) (b : Contents) : Forest κ :=
  { F with trees := Function.update F.trees head (some b) }

def setKey (F : Forest κ) (p : ℕ) (k : κ) : Forest κ :=
  { F with key := Function.update F.key p k }

def setNodes (F : Forest κ) (head : ℕ) (nodes : List ℕ) : Forest κ :=
  F.put head { F.get head with nodes }

variable {F : Forest κ} {head h node p q : ℕ} {b b' : Contents}

theorem get_eq (hb : F.trees head = some b) : F.get head = b := by
  rw [get, hb, Option.getD_some]

theorem put_self (hb : F.trees head = some b) : F.put head b = F := by
  rw [put, ← hb, Function.update_eq_self]

theorem trees_put (hb : (F.put head b).trees h = some b') :
    h = head ∧ b' = b ∨ h ≠ head ∧ F.trees h = some b' := by
  rcases eq_or_ne h head with rfl | hne
  · exact Or.inl ⟨rfl, by simpa [put, eq_comm] using hb⟩
  · exact Or.inr ⟨hne, by simpa [put, hne] using hb⟩

/-- An address that no tree uses. -/
def Free (F : Forest κ) (p : ℕ) : Prop := ∀ head b, F.trees head = some b → p ∉ head :: b.nodes

theorem Free.put (h : F.Free p) (hp : p ∉ head :: b.nodes) : (F.put head b).Free p := by
  intro h' b' hb
  rcases trees_put hb with ⟨rfl, rfl⟩ | ⟨-, hold⟩
  · exact hp
  · exact h _ _ hold

/-- The forest has no trees but those listed. -/
def Among (bs : List (ℕ × Contents)) (F : Forest κ) : Prop :=
  ∀ head b, F.trees head = some b → (head, b) ∈ bs

variable {bs : List (ℕ × Contents)}

theorem among_start (key : ℕ → κ) : (start key).Among [] := fun _ _ hb => by cases hb

theorem Among.put (hF : F.Among bs) (head : ℕ) (b : Contents) :
    (F.put head b).Among ((head, b) :: bs.filter (·.1 ≠ head)) := by
  intro h b' hb
  rcases trees_put hb with ⟨rfl, rfl⟩ | ⟨hne, hold⟩
  · exact List.mem_cons_self
  · exact List.mem_cons_of_mem _ (List.mem_filter.mpr ⟨hF _ _ hold, by simpa using hne⟩)

theorem Among.free (hF : F.Among bs) (hp : ∀ x ∈ bs, p ∉ x.1 :: x.2.nodes) : F.Free p :=
  fun _ _ hb => hp _ (hF _ _ hb)

variable [LinearOrder κ]

/-- The node that keeps another one with its key out of a tree. -/
def rival (F : Forest κ) (head node : ℕ) : Option ℕ :=
  if (F.get head).multi then none else (F.get head).nodes.find? (F.key · = F.key node)

def step {σ : Type} (F : Forest κ) : Op κ σ → Forest κ × Answer
  | .store p _ k => (F.setKey p k, .nothing)
  | .init head multi => (F.put head ⟨multi, []⟩, .nothing)
  | .clear head => (F.setNodes head [], .nothing)
  | .clearFree head _ => (F.setNodes head [], .nodes (F.get head).nodes)
  | .insert head node =>
    match F.rival head node with
    | some p => (F, .inserted p false)
    | none =>
      (F.setNodes head (OrderedBag.insert F.key (F.get head).nodes node), .inserted node true)
  | .erase head node =>
    (F.setNodes head ((F.get head).nodes.erase node),
      (Query.next node).answer F.key head (F.get head).nodes)
  | .eraseRange head start stop =>
    let xs := (F.get head).nodes
    (F.setNodes head (xs.take (xs.idxOf start) ++ xs.drop (xs.idxOf stop)), .node stop)
  | .eraseVal head val =>
    (F.setNodes head ((F.get head).nodes.filter (F.key · ≠ F.key val)),
      (Query.vcnt val).answer F.key head (F.get head).nodes)
  | .query head q => (F, q.answer F.key head (F.get head).nodes)

variable {σ : Type} {uses : σ → Set ℕ}

/-- What the callers see to: blocks that are stored to or inserted lie in no tree, nor do those
that the function of `rb_clear_free` uses, and nodes are looked for in their own tree. -/
def Valid (uses : σ → Set ℕ) (F : Forest κ) : Op κ σ → Prop
  | .store p _ _ => F.Free p
  | .init head _ => ∀ h b, h ≠ head → F.trees h = some b → head ∉ h :: b.nodes
  | .clear head | .eraseVal head _ => (F.trees head).isSome
  | .clearFree head s => (F.trees head).isSome ∧ ∀ q ∈ uses s, F.Free q
  | .insert head node => (F.trees head).isSome ∧ F.Free node
  | .erase head node => (F.trees head).isSome ∧ node ∈ (F.get head).nodes
  | .eraseRange head start stop =>
    (F.trees head).isSome ∧ IsRange head (F.get head).nodes start stop
  | .query head q => (F.trees head).isSome ∧ q.Valid head (F.get head).nodes

/-- The forest after a list of calls, and the answers. -/
def run (F : Forest κ) : List (Op κ σ) → Forest κ × List Answer
  | [] => (F, [])
  | op :: ops => (((F.step op).1.run ops).1, (F.step op).2 :: ((F.step op).1.run ops).2)

def ValidRun (uses : σ → Set ℕ) (F : Forest κ) : List (Op κ σ) → Prop
  | [] => True
  | op :: ops => F.Valid uses op ∧ ValidRun uses (F.step op).1 ops

/-- Every tree is in order, and no node lies in two of them. -/
structure Ok (F : Forest κ) : Prop where
  sorted : ∀ {head b}, F.trees head = some b → OrderedBag.Sorted F.key b.nodes
  unique : ∀ {head b}, F.trees head = some b → b.multi = false → OrderedSet.Sorted F.key b.nodes
  apart : ∀ {h b h' b'}, F.trees h = some b → F.trees h' = some b' → h ≠ h' →
    (h :: b.nodes).Disjoint (h' :: b'.nodes)

variable {nodes : List ℕ}

/-- What a tree of the forest may be given: nodes that it has, or that no tree has. -/
def Within (F : Forest κ) (head : ℕ) (touched : List ℕ) : Prop :=
  ∀ q ∈ head :: touched, ∀ h b, h ≠ head → F.trees h = some b → q ∉ h :: b.nodes

theorem Ok.within (h : F.Ok) (hb : F.trees head = some b) : F.Within head b.nodes :=
  fun _ hq _ _ hne hb' => h.apart hb hb' hne.symm hq

theorem Ok.within_free (h : F.Ok) (hb : F.trees head = some b) (hfree : F.Free node) :
    F.Within head (node :: b.nodes) := by
  intro q hq
  simp only [List.mem_cons] at hq
  rcases hq with rfl | rfl | hq
  · exact h.within hb q List.mem_cons_self
  · exact fun h b _ hb => hfree h b hb
  · exact h.within hb q (List.mem_cons_of_mem _ hq)

theorem Ok.put (h : F.Ok) (hsorted : OrderedBag.Sorted F.key b.nodes)
    (hunique : b.multi = false → OrderedSet.Sorted F.key b.nodes)
    (hwithin : F.Within head b.nodes) : (F.put head b).Ok where
  sorted hb := by
    rcases trees_put hb with ⟨rfl, rfl⟩ | ⟨-, hb⟩
    · exact hsorted
    · exact h.sorted hb
  unique hb hm := by
    rcases trees_put hb with ⟨rfl, rfl⟩ | ⟨-, hb⟩
    · exact hunique hm
    · exact h.unique hb hm
  apart hb hb' hne := by
    rcases trees_put hb with ⟨rfl, rfl⟩ | ⟨hhead, hold⟩
    · rcases trees_put hb' with ⟨rfl, rfl⟩ | ⟨hhead', hold'⟩
      · exact absurd rfl hne
      · exact fun q hq => hwithin q hq _ _ hhead' hold'
    · rcases trees_put hb' with ⟨rfl, rfl⟩ | ⟨-, hold'⟩
      · exact fun q hq hq' => hwithin q hq' _ _ hhead hold hq
      · exact h.apart hold hold' hne

/-- Nodes leave a tree. -/
theorem Ok.drop (h : F.Ok) (hb : F.trees head = some b) (hsub : nodes.Sublist b.nodes) :
    (F.setNodes head nodes).Ok := by
  rw [setNodes, get_eq hb]
  apply h.put (b := { b with nodes }) ((h.sorted hb).sublist hsub) fun hm =>
    (h.unique hb hm).sublist hsub
  exact fun q hq => h.within hb q (List.cons_subset_cons head hsub.subset hq)

theorem Ok.setKey (h : F.Ok) (hfree : F.Free p) (k : κ) : (F.setKey p k).Ok := by
  have hkey : ∀ {head b}, F.trees head = some b → ∀ q ∈ b.nodes,
      (F.setKey p k).key q = F.key q := by
    intro head b hb q hq
    apply Function.update_of_ne
    rintro rfl
    exact hfree head b hb (List.mem_cons_of_mem _ hq)
  refine ⟨fun hb => ?_, fun hb hm => ?_, h.apart⟩
  · refine (h.sorted hb).imp_of_mem fun {a c} ha hc hac => ?_
    simpa only [hkey hb a ha, hkey hb c hc] using hac
  · refine (h.unique hb hm).imp_of_mem fun {a c} ha hc hac => ?_
    simpa only [hkey hb a ha, hkey hb c hc] using hac

theorem rival_eq_none (hb : F.trees head = some b) (hr : F.rival head node = none) :
    b.multi = true ∨ ∀ q ∈ b.nodes, F.key q ≠ F.key node := by
  rw [rival, get_eq hb] at hr
  cases hm : b.multi with
  | true => exact Or.inl rfl
  | false =>
    rw [hm, if_neg Bool.false_ne_true, List.find?_eq_none] at hr
    exact Or.inr fun q hq => by simpa using hr q hq

theorem rival_eq_some (hb : F.trees head = some b) (hr : F.rival head node = some p) :
    b.multi = false ∧ p ∈ b.nodes ∧ F.key p = F.key node := by
  rw [rival, get_eq hb] at hr
  split_ifs at hr with hm
  exact ⟨by simpa using hm, List.mem_of_find?_eq_some hr, by simpa using List.find?_some hr⟩

theorem Ok.insert (h : F.Ok) (hb : F.trees head = some b) (hfree : F.Free node)
    (hr : F.rival head node = none) :
    (F.setNodes head (OrderedBag.insert F.key b.nodes node)).Ok := by
  rw [setNodes, get_eq hb]
  refine h.put (b := ⟨b.multi, _⟩) (h.sorted hb).insert (fun hm => ?_) fun q hq => ?_
  · rcases rival_eq_none hb hr with hmulti | hnew
    · rw [hmulti] at hm
      cases hm
    · exact ((h.unique hb hm).insert (OrderedBag.insert_of_new (h.unique hb hm) hnew)).1
  · apply h.within_free hb hfree
    simpa [OrderedBag.mem_insert] using hq

theorem start_ok {key : ℕ → κ} : (start key).Ok where
  sorted hb := by cases hb
  unique hb := by cases hb
  apart hb := by cases hb

/-- Every call keeps the forest in order. -/
theorem Ok.step {op : Op κ σ} (h : F.Ok) (hop : F.Valid uses op) : (F.step op).1.Ok := by
  cases op with
  | store p _ k => exact h.setKey hop k
  | init head multi =>
    apply h.put (b := ⟨multi, []⟩) List.Pairwise.nil fun _ => List.Pairwise.nil
    intro q hq
    rw [List.mem_singleton.mp hq]
    exact hop
  | clear head =>
    obtain ⟨b, hb⟩ := Option.isSome_iff_exists.mp hop
    exact h.drop hb (List.nil_sublist _)
  | clearFree head s =>
    obtain ⟨b, hb⟩ := Option.isSome_iff_exists.mp hop.1
    exact h.drop hb (List.nil_sublist _)
  | insert head node =>
    obtain ⟨b, hb⟩ := Option.isSome_iff_exists.mp hop.1
    cases hr : F.rival head node with
    | some p =>
      simp only [Forest.step, hr]
      exact h
    | none =>
      simp only [Forest.step, hr, get_eq hb]
      exact h.insert hb hop.2 hr
  | erase head node =>
    obtain ⟨b, hb⟩ := Option.isSome_iff_exists.mp hop.1
    exact h.drop hb (get_eq hb ▸ List.erase_sublist)
  | eraseRange head start stop =>
    obtain ⟨b, hb⟩ := Option.isSome_iff_exists.mp hop.1
    have hle := hop.2.2.2
    rw [get_eq hb] at hle
    apply h.drop hb
    rw [get_eq hb]
    conv_rhs => rw [← List.take_append_drop (b.nodes.idxOf start) b.nodes]
    exact (List.Sublist.refl _).append (List.drop_sublist_drop_left _ hle)
  | eraseVal head val =>
    obtain ⟨b, hb⟩ := Option.isSome_iff_exists.mp hop
    exact h.drop hb (get_eq hb ▸ List.filter_sublist)
  | query head q => exact h

end Forest

end Zrhos.Rbtree
