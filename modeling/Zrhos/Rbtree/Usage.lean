import Zrhos.Rbtree.Runs

/-! The trees of regions, as `mmap.c` uses them: a node points to the data of its region, the
compare function looks at `addr` there, and a node on the stack stands for an address that is
looked for. Nodes that are freed go back to the heap. The answers are those of the ordered sets
that stand for the trees in the model of `mmap.c`. -/
namespace Zrhos.Rbtree
open RedBlack Rbtree.Mem Mmap

structure World where
  state : State ℕ
  data : ℕ → MmapNode

/-- The calls, with the addresses of the nodes from `mem_malloc` and on the stack, with what lies
there, and with the heap that `mem_free` finds. -/
inductive Call
  | create (head : ℕ)
  | add (head node : ℕ) (cell : Cell) (n : MmapNode)
  | find (head tmp : ℕ) (cell : Cell) (n : MmapNode)
  | unmap (head tmp : ℕ) (cell : Cell) (n : MmapNode) (heap : Heap)
  | copy (head nhead : ℕ) (blocks : List (ℕ × Cell))
  | destroy (head : ℕ) (heap : Heap)

inductive Reply
  | done
  | region (n : Option MmapNode)
  | regions (ns : List MmapNode)

namespace World

/-- `mmap_alloc` and `cmp_node`: a node gets its data. -/
def mmapAlloc (w : World) (node : ℕ) (cell : Cell) (n : MmapNode) : World :=
  ⟨w.state.store node cell n.addr, Function.update w.data node n⟩

/-- The tree in `mmap_by_obj`. -/
def mmapByObj (w : World) (head node : ℕ) : Except Stop World :=
  match w.state.insert head node with
  | none => .error .spin
  | some (s, ret, out) => if out ∧ ret ≠ head then .ok { w with state := s } else .error .mmapFailed

def mmapFind (w : World) (head tmp : ℕ) : Except Stop (Option MmapNode) :=
  let s := w.state
  match ubnd s.comp s.mem head (pathRounds (s.size head)) tmp with
  | none => .error .spin
  | some node =>
    if node = s.mem.left head then .ok none
    else match nodePrev s.mem (pathRounds (s.size head)) node with
      | none => .error .spin
      | some node => .ok (some (w.data node))

/-- The tree in `munmap`, with the region that is gone. -/
def munmap (w : World) (head tmp : ℕ) (heap : Heap) : Except Stop (World × Option MmapNode) :=
  let s := w.state
  match rbFind s.comp (s.tree head) (pathRounds (s.size head)) tmp with
  | none => .error .spin
  | some node =>
    if node = head then .ok (w, none)
    else match s.erase head node with
      | none => .error .spin
      | some (s, _) =>
        let (_, mem) := mmapFree heap s.mem node
        .ok ({ w with state := { s with mem } }, some (w.data node))

/-- The loop of `copy_mmap`, without the pages. -/
def copyLoop (head nhead : ℕ) : List (ℕ × Cell) → World → ℕ → Except Stop World
  | [], w, node => if node = head then .ok w else .error .noSpaceInHeap
  | (n, cell) :: blocks, w, node =>
    if node = head then .ok w
    else
      let w := w.mmapAlloc n cell (w.data node)
      match w.state.insert nhead n with
      | none => .error .spin
      | some (s, _, out) =>
        if out then
          match nodeNext s.mem (pathRounds (s.size head)) node with
          | none => .error .spin
          | some node => copyLoop head nhead blocks { w with state := s } node
        else .error .copyMmapInsert

def mmapDestroy (dec : RefCntDec) (w : World) (head : ℕ) (heap : Heap) :
    Except Stop (World × List MmapNode) :=
  match w.state.clearFree (mmapFreef dec w.data) head heap with
  | none => .error .spin
  | some (heap, s, freed) =>
    let (_, mem) := objFree heap s.mem head
    .ok ({ w with state := { s with mem } }, freed.map w.data)

def step (dec : RefCntDec) (w : World) : Call → Except Stop (World × Reply)
  | .create head => .ok ({ w with state := w.state.init head false }, .done)
  | .add head node cell n =>
    ((w.mmapAlloc node cell n).mmapByObj head node).map fun w => (w, .done)
  | .find head tmp cell n =>
    let w := w.mmapAlloc tmp cell n
    (w.mmapFind head tmp).map fun m => (w, .region m)
  | .unmap head tmp cell n heap =>
    ((w.mmapAlloc tmp cell n).munmap head tmp heap).map fun (w, m) => (w, .region m)
  | .copy head nhead blocks =>
    (copyLoop head nhead blocks w (w.state.mem.left head)).map fun w => (w, .done)
  | .destroy head heap => (w.mmapDestroy dec head heap).map fun (w, ns) => (w, .regions ns)

end World

/-! ### The regions -/

/-- The regions below each head node, in order. -/
abbrev Regions := ℕ → List MmapNode

namespace Regions

/-- Regions are added to others one by one. -/
def addAll : List MmapNode → List MmapNode → Except Stop (List MmapNode)
  | [], t => .ok t
  | n :: ns, t =>
    match OrderedSet.insert MmapNode.addr t n with
    | none => .error .copyMmapInsert
    | some t => addAll ns t

def step (R : Regions) : Call → Except Stop (Regions × Reply)
  | .create head => .ok (Function.update R head [], .done)
  | .add head _ _ n =>
    match OrderedSet.insert MmapNode.addr (R head) n with
    | none => .error .mmapFailed
    | some t => .ok (Function.update R head t, .done)
  | .find head _ _ n => .ok (R, .region (OrderedSet.floor MmapNode.addr (R head) n.addr))
  | .unmap head _ _ n _ =>
    match OrderedSet.locate MmapNode.addr (R head) n.addr with
    | none => .ok (R, .region none)
    | some (xs, m, ys) => .ok (Function.update R head (xs ++ ys), .region (some m))
  | .copy head nhead _ =>
    (addAll (R head) (R nhead)).map fun t => (Function.update R nhead t, .done)
  | .destroy head _ => .ok (Function.update R head [], .regions (R head))

end Regions

/-! ### Where the nodes lie -/

namespace Forest

def addNode (F : Forest ℕ) (head node : ℕ) (k : ℕ) : Forest ℕ :=
  ((F.setKey node k).step (.insert head node : Op ℕ Heap)).1

def addNodes (nhead : ℕ) : List ℕ → List (ℕ × Cell) → Forest ℕ → Forest ℕ
  | x :: xs, (n, _) :: blocks, F => addNodes nhead xs blocks (F.addNode nhead n (F.key x))
  | _, _, F => F

/-- The block of the head node is free again. -/
def remove (F : Forest ℕ) (head : ℕ) : Forest ℕ :=
  { F with trees := Function.update F.trees head none }

def call (F : Forest ℕ) : Call → Forest ℕ
  | .create head => F.put head ⟨false, []⟩
  | .add head node _ n => F.addNode head node n.addr
  | .find _ tmp _ n => F.setKey tmp n.addr
  | .unmap head tmp _ n _ =>
    match (F.get head).nodes.find? (F.key · = n.addr) with
    | none => F.setKey tmp n.addr
    | some node => ((F.setKey tmp n.addr).step (.erase head node : Op ℕ Heap)).1
  | .copy head nhead blocks => F.addNodes nhead (F.get head).nodes blocks
  | .destroy head _ => F.remove head

/-- What `mem_malloc` and the stack see to: blocks that are handed out lie in no tree, and what is
free or belongs to the counters lies in none either. A copy goes to another tree and has blocks
enough. -/
def Callable (F : Forest ℕ) : Call → Prop
  | .create head => F.Free head
  | .add head node _ _ => (F.trees head).isSome ∧ F.Free node
  | .find head tmp _ _ => (F.trees head).isSome ∧ F.Free tmp
  | .unmap head tmp _ _ heap =>
    ((F.trees head).isSome ∧ F.Free tmp) ∧ ∀ q ∈ heap.uses, F.Free q
  | .copy head nhead blocks => (F.trees head).isSome ∧ (F.trees nhead).isSome ∧ head ≠ nhead ∧
    (blocks.map Prod.fst).Nodup ∧ (∀ x ∈ blocks, F.Free x.1) ∧
      (F.get head).nodes.length ≤ blocks.length
  | .destroy head heap => (F.trees head).isSome ∧ ∀ q ∈ heap.uses, F.Free q

end Forest

/-- The nodes of the forest hold the regions. -/
structure Describes (w : World) (F : Forest ℕ) (R : Regions) : Prop where
  ok : F.Ok
  refines : Refines w.state F
  key : F.key = MmapNode.addr ∘ w.data
  single : ∀ {head b}, F.trees head = some b → b.multi = false
  regions : ∀ {head b}, F.trees head = some b → R head = b.nodes.map w.data

variable {w : World} {F : Forest ℕ} {R : Regions} {head nhead node tmp p q : ℕ}
  {b b' : Contents} {cell : Cell} {n : MmapNode} {heap : Heap} {dec : RefCntDec}

theorem Forest.Free.drop {nodes : List ℕ} (h : F.Free p) (hb : F.trees head = some b)
    (hsub : nodes ⊆ b.nodes) : (F.setNodes head nodes).Free p := by
  rw [setNodes, get_eq hb]
  exact h.put fun hp => h head b hb (List.cons_subset_cons head hsub hp)

/-- A node that leaves its tree lies in none. -/
theorem Forest.Ok.free_dropped {nodes : List ℕ} (h : F.Ok) (hb : F.trees head = some b)
    (hp : p ∈ b.nodes) (hdrop : p ∉ head :: nodes) : (F.setNodes head nodes).Free p := by
  intro h' b' hb'
  rw [setNodes, get_eq hb] at hb'
  rcases trees_put hb' with ⟨rfl, rfl⟩ | ⟨hne, hold⟩
  · exact hdrop
  · exact fun hp' => h.apart hb hold hne.symm (List.mem_cons_of_mem _ hp) hp'

theorem Forest.trees_remove {h : ℕ} (hb : (F.remove head).trees h = some b) :
    h ≠ head ∧ F.trees h = some b := by
  rcases eq_or_ne h head with rfl | hne
  · simp [Forest.remove] at hb
  · exact ⟨hne, by simpa [Forest.remove, hne] using hb⟩

theorem Forest.Free.remove (h : F.Free p) : (F.remove head).Free p :=
  fun h' b' hb => h h' b' (trees_remove hb).2

theorem Forest.Ok.free_removed (h : F.Ok) (hb : F.trees head = some b) (hp : p ∈ head :: b.nodes) :
    (F.remove head).Free p := by
  intro h' b' hb'
  obtain ⟨hne, hold⟩ := trees_remove hb'
  exact fun hp' => h.apart hb hold hne.symm hp hp'

theorem Forest.Ok.remove (h : F.Ok) : (F.remove head).Ok where
  sorted hb := h.sorted (trees_remove hb).2
  unique hb := h.unique (trees_remove hb).2
  apart hb hb' := h.apart (trees_remove hb).2 (trees_remove hb').2

theorem map_update {xs : List ℕ} {data : ℕ → MmapNode} (hp : p ∉ xs) :
    xs.map (Function.update data p n) = xs.map data := by
  apply List.map_congr_left
  intro q hq
  apply Function.update_of_ne
  rintro rfl
  exact hp hq

/-- A block outside the trees gets data. -/
theorem Describes.alloc (cell : Cell) (h : Describes w F R) (hfree : F.Free p) :
    Describes (w.mmapAlloc p cell n) (F.setKey p n.addr) R := by
  refine ⟨h.ok.setKey hfree n.addr, h.refines.store hfree, ?_, h.single, fun hb => ?_⟩
  · funext q
    rcases eq_or_ne q p with rfl | hne
    · simp [Forest.setKey, World.mmapAlloc]
    · simp [Forest.setKey, World.mmapAlloc, hne, h.key]
  · rw [World.mmapAlloc, map_update fun hp => hfree _ _ hb (List.mem_cons_of_mem _ hp)]
    exact h.regions hb

/-- Where only the nodes of one tree change. -/
theorem Describes.setNodes {s : State ℕ} {nodes : List ℕ} (h : Describes w F R)
    (hb : F.trees head = some b) (hok : (F.setNodes head nodes).Ok)
    (href : Refines s (F.setNodes head nodes)) :
    Describes { w with state := s } (F.setNodes head nodes)
      (Function.update R head (nodes.map w.data)) := by
  refine ⟨hok, href, h.key, fun hb' => ?_, fun hb' => ?_⟩
  all_goals
    rw [Forest.setNodes, Forest.get_eq hb] at hb'
    rcases Forest.trees_put hb' with ⟨rfl, rfl⟩ | ⟨hne, hold⟩
  · exact (h.single hb : b.multi = false)
  · exact h.single hold
  · exact Function.update_self ..
  · rw [Function.update_of_ne hne]
    exact h.regions hold

/-- What lies in no tree may change. -/
theorem Describes.write {mem : Mem} (h : Describes w F R)
    (hframe : ∀ q, ¬ F.Free q → Agree w.state.mem mem q) :
    Describes { w with state := { w.state with mem } } F R :=
  { h with refines := h.refines.write hframe }

/-- `rb_insert` adds the region of the node as the ordered set does. -/
theorem Describes.insert (h : Describes w F R) (hb : F.trees head = some b)
    (hfree : F.Free node) :
    ∃ s q out, w.state.insert head node = some (s, q, out) ∧
      match OrderedSet.insert MmapNode.addr (R head) (w.data node) with
      | none => out = false
      | some t => out = true ∧ q = node ∧ Describes { w with state := s }
          (F.step (.insert head node : Op ℕ Heap)).1 (Function.update R head t) := by
  obtain ⟨s, q, out, hrun, hanswer, href⟩ := h.refines.insert (σ := Heap) h.ok hb hfree
  have hvalid : F.Valid Heap.uses (.insert head node) := ⟨by rw [hb]; rfl, hfree⟩
  have hok := h.ok.step hvalid
  refine ⟨s, q, out, hrun, ?_⟩
  have hset := h.ok.unique hb (h.single hb)
  rw [h.regions hb, OrderedSet.insert_map, ← h.key]
  cases hr : F.rival head node with
  | some r =>
    obtain ⟨-, hmem, hkey⟩ := Forest.rival_eq_some hb hr
    rw [OrderedSet.insert_eq_none hset hmem hkey]
    simp only [Forest.step, hr, Answer.inserted.injEq] at hanswer
    exact hanswer.2.symm
  | none =>
    have hnew : ∀ q ∈ b.nodes, F.key q ≠ F.key node := by
      rcases Forest.rival_eq_none hb hr with hm | hnew
      · rw [h.single hb] at hm
        cases hm
      · exact hnew
    rw [OrderedBag.insert_of_new hset hnew]
    simp only [Forest.step, hr, Answer.inserted.injEq, Forest.get_eq hb] at hanswer hok href ⊢
    exact ⟨hanswer.2.symm, hanswer.1.symm, h.setNodes hb hok href⟩

/-- One before the upper bound stands the last node that does not exceed the key, unless the
bound is the first node. -/
theorem ubnd_prev {κ : Type} [LinearOrder κ] {rb : Tree} {t : RedBlack.Tree ℕ} {key : ℕ → κ}
    {comp : Comp} (val : ℕ) (h : Sound rb t) (ho : Ordered comp key t.inorder) :
    ∃ node, ubnd comp rb.mem rb.head (pathRounds rb.size) val = some node ∧
      match (t.inorder.filter (fun q => key q ≤ key val)).getLast? with
      | none => node = rb.mem.left rb.head
      | some q => node ≠ rb.mem.left rb.head ∧
          nodePrev rb.mem (pathRounds rb.size) node = some q := by
  have hlt : t.height < pathRounds rb.size := (Nat.le_succ _).trans h.pathRounds
  have hsorted : OrderedBag.Sorted key t.inorder := ho.sorted
  obtain ⟨hfront, hback⟩ := hsorted.filter_front (p := fun q => decide (key q ≤ key val))
    fun a b hab hb => by simpa using hab.trans (by simpa using hb)
  simp only [← decide_not, not_le] at hback
  have hsplit : t.inorder = t.inorder.filter (fun q => key q ≤ key val) ++
      t.inorder.filter (fun q => key val < key q) := by
    rw [hfront, hback, List.takeWhile_append_dropWhile]
  refine ⟨_, ubnd_eq val h.holds ho hlt, ?_⟩
  rw [← List.head?_filter]
  generalize t.inorder.filter (fun q => key q ≤ key val) = xs at hsplit
  generalize t.inorder.filter (fun q => key val < key q) = ys at hsplit
  have hempty := range_empty h (show t.inorder = [] ++ xs ++ ys from hsplit)
  rw [← hsplit, ← h.lmst] at hempty
  cases hx : xs.getLast? with
  | none =>
    rw [List.getLast?_eq_none_iff] at hx
    exact (hempty.mpr hx).symm
  | some q =>
    have hne : xs ≠ [] := by
      rintro rfl
      cases hx
    refine ⟨fun he => hne (hempty.mp he.symm), ?_⟩
    cases ys with
    | nil =>
      have hright := h.ends .right
      rw [hsplit, List.append_nil] at hright
      rw [List.head?_nil, Option.getD_none, nodePrev_head h.holds, Mem.right, hright, Side.tip, hx]
      rfl
    | cons y ys =>
      rw [List.head?_cons, Option.getD_some, nodePrev_eq h.holds hsplit hlt.le, hx]
      rfl

/-- `mmap_find` gives the last region that does not start behind the address. -/
theorem Describes.mmapFind (tmp : ℕ) (h : Describes w F R) (hb : F.trees head = some b) :
    w.mmapFind head tmp = .ok (OrderedSet.floor MmapNode.addr (R head) (w.data tmp).addr) := by
  obtain ⟨t, ht, hsound⟩ := h.refines.carries hb
  have hordered : Ordered w.state.comp F.key t.inorder := ht ▸ h.refines.ordered h.ok hb
  have hsorted : OrderedBag.Sorted F.key t.inorder := hordered.sorted
  have hkey : F.key tmp = (w.data tmp).addr := congrFun h.key tmp
  have hfloor : OrderedSet.floor MmapNode.addr (R head) (w.data tmp).addr =
      (t.inorder.filter (fun q => F.key q ≤ F.key tmp)).getLast?.map w.data := by
    rw [h.regions hb, OrderedSet.floor_map, ← h.key, ← hkey, ← ht, hsorted.floor]
  obtain ⟨node, hubnd, hprev⟩ := ubnd_prev tmp hsound hordered
  have hubnd' : ubnd w.state.comp w.state.mem head (pathRounds (w.state.size head)) tmp =
      some node := hubnd
  rw [World.mmapFind, hubnd', hfloor]
  split at hprev
  case h_1 hlast =>
    rw [hlast]
    exact if_pos hprev
  case h_2 q hlast =>
    have hprev' : nodePrev w.state.mem (pathRounds (w.state.size head)) node = some q := hprev.2
    rw [hlast]
    simp only [show node ≠ w.state.mem.left head from hprev.1, if_false, hprev']
    rfl

/-- A tree is gone. -/
theorem Describes.remove {nodes : List ℕ} (h : Describes w (F.setNodes head nodes) R) :
    Describes w (F.remove head) R := by
  have hsame : (F.setNodes head nodes).remove head = F.remove head := by
    simp [Forest.setNodes, Forest.put, Forest.remove]
  have htrees {h' : ℕ} {b' : Contents} (hb : (F.remove head).trees h' = some b') :
      (F.setNodes head nodes).trees h' = some b' :=
    (Forest.trees_remove (hsame ▸ hb)).2
  exact ⟨hsame ▸ h.ok.remove, ⟨h.refines.key, fun hb => h.refines.multi (htrees hb),
    fun hb => h.refines.carries (htrees hb)⟩, h.key, fun hb => h.single (htrees hb),
    fun hb => h.regions (htrees hb)⟩

/-- `munmap` takes the region with the address out of the tree and frees its node. -/
theorem Describes.munmap (tmp : ℕ) (h : Describes w F R) (hb : F.trees head = some b)
    (huses : ∀ q ∈ heap.uses, F.Free q) :
    match OrderedSet.locate MmapNode.addr (R head) (w.data tmp).addr with
    | none => w.munmap head tmp heap = .ok (w, none) ∧
        b.nodes.find? (F.key · = F.key tmp) = none
    | some (xs, m, ys) => ∃ s node, w.munmap head tmp heap = .ok ({ w with state := s }, some m) ∧
        b.nodes.find? (F.key · = F.key tmp) = some node ∧
          Describes { w with state := s } (F.step (.erase head node : Op ℕ Heap)).1
            (Function.update R head (xs ++ ys)) := by
  obtain ⟨t, ht, hsound⟩ := h.refines.carries hb
  have hset := h.ok.unique hb (h.single hb)
  have hordered : Ordered w.state.comp F.key t.inorder := ht ▸ h.refines.ordered h.ok hb
  have hlt : t.height < pathRounds (w.state.size head) := (Nat.le_succ _).trans hsound.pathRounds
  have hkey : (w.data tmp).addr = F.key tmp := (congrFun h.key tmp).symm
  have hfind := rbFind_eq tmp hsound.holds hordered hlt
  have hlocate := OrderedBag.locate_eq (k := F.key tmp) hset
  rw [ht] at hfind
  rw [h.regions hb, hkey, OrderedSet.locate_map, ← h.key]
  cases hl : OrderedSet.locate F.key b.nodes (F.key tmp) with
  | none =>
    rw [hl, Option.map_none] at hlocate
    refine ⟨?_, hlocate.symm⟩
    rw [World.munmap, hfind, ← hlocate]
    exact if_pos rfl
  | some r =>
    obtain ⟨xs, node, ys⟩ := r
    rw [hl, Option.map_some] at hlocate
    obtain ⟨hsplit, hnk⟩ := OrderedSet.locate_eq_some hl
    have hmem : node ∈ b.nodes := by rw [hsplit]; simp
    have hne : node ≠ head := fun he => hsound.head_notin (ht ▸ he ▸ hmem)
    have hxs : node ∉ xs := fun hx =>
      (OrderedSet.sorted_split.mp (hsplit ▸ hset)).2.1 node hx |>.false
    have hys : node ∉ ys := fun hy =>
      (OrderedSet.sorted_split.mp (hsplit ▸ hset)).2.2 node hy |>.false
    obtain ⟨s, next, hrun, -, href⟩ := h.refines.erase (σ := Heap) h.ok hb hmem
    have hvalid : F.Valid Heap.uses (.erase head node) :=
      ⟨by rw [hb]; rfl, Forest.get_eq hb ▸ hmem⟩
    have hok := h.ok.step hvalid
    have herase : b.nodes.erase node = xs ++ ys := by
      rw [hsplit, List.erase_append_right _ hxs, List.erase_cons_head]
    refine ⟨{ s with mem := (mmapFree heap s.mem node).2 }, node, ?_, hlocate.symm, ?_⟩
    · rw [World.munmap, hfind, ← hlocate]
      simp only [Option.getD_some, if_neg hne, hrun]
    · simp only [Forest.step, Forest.get_eq hb, herase, ← List.map_append] at href hok ⊢
      apply (h.setNodes hb hok href).write
      intro q hq
      apply mmapFree_frame
      · intro hu
        apply hq
        apply (huses q hu).drop hb
        rw [← herase]
        exact List.erase_subset
      · rintro rfl
        exact hq (h.ok.free_dropped hb hmem (by simp [hne, hxs, hys]))

/-- `mmap_destroy` frees all regions, each once, and the tree is gone. -/
theorem Describes.mmapDestroy (dec : RefCntDec) (h : Describes w F R) (hb : F.trees head = some b)
    (huses : ∀ q ∈ heap.uses, F.Free q) :
    ∃ s, w.mmapDestroy dec head heap = .ok ({ w with state := s }, R head) ∧
      Describes { w with state := s } (F.remove head) (Function.update R head []) := by
  obtain ⟨heap', s, hrun, htakes, href⟩ :=
    h.refines.clearFree (mmapFreef dec w.data) h.ok hb huses
  refine ⟨{ s with mem := (objFree heap' s.mem head).2 }, ?_, ?_⟩
  · rw [World.mmapDestroy, hrun, h.regions hb]
  · have hclear := h.setNodes hb (h.ok.drop hb (List.nil_sublist _)) href
    apply hclear.remove.write
    intro q hq
    apply objFree_frame
    · intro hu
      rcases htakes q hu with hu | hu
      · exact hq (huses q hu).remove
      · exact hq (h.ok.free_removed hb (List.mem_cons_of_mem _ hu))
    · rintro rfl
      exact hq (h.ok.free_removed hb List.mem_cons_self)

/-! ### Copying -/

theorem Forest.addNode_other (node : ℕ) {k : ℕ} (hne : head ≠ nhead) :
    (F.addNode nhead node k).trees head = F.trees head := by
  unfold Forest.addNode
  cases hr : (F.setKey node k).rival nhead node with
  | some q =>
    simp only [Forest.step, hr]
    rfl
  | none =>
    simp only [Forest.step, hr]
    exact Function.update_of_ne hne ..

/-- One node more is in use. -/
theorem Forest.addNode_self (node : ℕ) {k : ℕ} (hb : F.trees nhead = some b) :
    (∃ b', (F.addNode nhead node k).trees nhead = some b') ∧
      ∀ q, q ≠ node → F.Free q → (F.addNode nhead node k).Free q := by
  have hb' : (F.setKey node k).trees nhead = some b := hb
  unfold Forest.addNode
  cases hr : (F.setKey node k).rival nhead node with
  | some q =>
    simp only [Forest.step, hr]
    exact ⟨⟨b, hb⟩, fun q _ hfree => hfree⟩
  | none =>
    simp only [Forest.step, hr, Forest.setNodes, Forest.get_eq hb']
    refine ⟨⟨_, Function.update_self ..⟩, fun q hq hfree => ?_⟩
    have hq' : (F.setKey node k).Free q := hfree
    apply hq'.put
    have hold := hfree _ _ hb
    simp only [List.mem_cons, OrderedBag.mem_insert, not_or] at hold ⊢
    exact ⟨hold.1, hq, hold.2⟩

theorem Describes.next {xs ys : List ℕ} (h : Describes w F R) (hb : F.trees head = some b)
    (hsplit : b.nodes = xs ++ node :: ys) :
    node ≠ head ∧
      nodeNext w.state.mem (pathRounds (w.state.size head)) node = some (ys.head?.getD head) := by
  obtain ⟨t, ht, hsound⟩ := h.refines.carries hb
  have hlt : t.height < pathRounds (w.state.size head) := (Nat.le_succ _).trans hsound.pathRounds
  refine ⟨fun he => hsound.head_notin ?_, nodeNext_eq hsound.holds (ht.trans hsplit) hlt.le⟩
  rw [ht, hsplit, he]
  exact List.mem_append_right _ List.mem_cons_self

/-- The loop of `copy_mmap` adds the regions one by one, while it walks along the tree they are
in. -/
theorem Describes.copyLoop (xs : List ℕ) {ys : List ℕ} {blocks : List (ℕ × Cell)}
    (h : Describes w F R)
    (hb : F.trees head = some b) (hsplit : b.nodes = xs ++ ys) (hb' : F.trees nhead = some b')
    (hne : head ≠ nhead) (hnd : (blocks.map Prod.fst).Nodup)
    (hblocks : ∀ x ∈ blocks, F.Free x.1) (hlength : ys.length ≤ blocks.length) :
    match Regions.addAll (ys.map w.data) (R nhead) with
    | .error e => World.copyLoop head nhead blocks w (ys.head?.getD head) = .error e
    | .ok t => ∃ w', World.copyLoop head nhead blocks w (ys.head?.getD head) = .ok w' ∧
        Describes w' (F.addNodes nhead ys blocks) (Function.update R nhead t) := by
  induction ys generalizing xs blocks w F R b' with
  | nil =>
    rw [List.map_nil, Regions.addAll]
    refine ⟨w, ?_, ?_⟩
    · cases blocks <;> exact if_pos rfl
    · rw [Function.update_eq_self]
      cases blocks <;> exact h
  | cons x ys ih =>
    obtain ⟨⟨n, cell⟩, blocks, rfl⟩ : ∃ y rest, blocks = y :: rest := by
      cases blocks with
      | nil => cases hlength
      | cons y rest => exact ⟨y, rest, rfl⟩
    have hfree : F.Free n := hblocks (n, cell) List.mem_cons_self
    rw [List.map_cons, List.nodup_cons] at hnd
    have hx := (h.next hb hsplit).1
    have hn : n ∉ b.nodes := fun hn => hfree _ _ hb (List.mem_cons_of_mem _ hn)
    have halloc := h.alloc (n := w.data x) cell hfree
    have hnew : (w.mmapAlloc n cell (w.data x)).data n = w.data x := Function.update_self ..
    obtain ⟨s, q, out, hrun, hins⟩ := halloc.insert hb' hfree
    rw [hnew] at hins
    rw [List.map_cons, Regions.addAll, List.head?_cons, Option.getD_some, World.copyLoop, if_neg hx]
    simp only [hrun]
    cases ht : OrderedSet.insert MmapNode.addr (R nhead) (w.data x) with
    | none =>
      rw [ht] at hins
      exact if_neg (by simp [hins])
    | some t₁ =>
      rw [ht] at hins
      obtain ⟨rfl, -, hdesc⟩ := hins
      have hkey : (w.data x).addr = F.key x := (congrFun h.key x).symm
      have hdesc' : Describes ⟨s, Function.update w.data n (w.data x)⟩
          (F.addNode nhead n (F.key x)) (Function.update R nhead t₁) := hkey ▸ hdesc
      obtain ⟨⟨b₁, hb₁⟩, hfree₁⟩ := Forest.addNode_self n (k := F.key x) hb'
      have hb₂ := (Forest.addNode_other n (k := F.key x) (F := F) hne).trans hb
      have hnext := (hdesc'.next hb₂ hsplit).2
      have hmap : ys.map (Function.update w.data n (w.data x)) = ys.map w.data :=
        map_update fun hy => hn (by rw [hsplit]; simp [hy])
      have hrest : ∀ y ∈ blocks, (F.addNode nhead n (F.key x)).Free y.1 := fun y hy =>
        hfree₁ _ (fun he => hnd.1 (List.mem_map.mpr ⟨y, hy, he⟩))
          (hblocks y (List.mem_cons_of_mem _ hy))
      have hih := ih (xs ++ [x]) hdesc' hb₂
        (hsplit.trans (List.append_cons xs x ys)) hb₁ hnd.2 hrest
        (Nat.le_of_succ_le_succ hlength)
      simp only [hmap, Function.update_self, Function.update_idem] at hih
      simp only [if_true, hnext]
      exact hih

/-! ### Runs -/

theorem Describes.create (h : Describes w F R) (hfree : F.Free head) :
    Describes { w with state := w.state.init head false } (F.put head ⟨false, []⟩)
      (Function.update R head []) := by
  have hvalid : F.Valid Heap.uses (.init head false) := fun h' b' _ hb => hfree h' b' hb
  refine ⟨h.ok.step hvalid, h.refines.put (b := ⟨false, []⟩) ⟨.nil, rfl, headInit_sound⟩ rfl ?_,
    h.key, fun hb => ?_, fun hb => ?_⟩
  · intro h' b' _ hb q hq
    apply headInit_agree
    rintro rfl
    exact hfree h' b' hb hq
  all_goals rcases Forest.trees_put hb with ⟨rfl, rfl⟩ | ⟨hne, hold⟩
  · rfl
  · exact h.single hold
  · exact Function.update_self ..
  · rw [Function.update_of_ne hne]
    exact h.regions hold

/-- Every call of `mmap.c` on the nodes gives what the ordered sets give. -/
theorem call_refines {c : Call} (dec : RefCntDec) (h : Describes w F R) (hc : F.Callable c) :
    match R.step c with
    | .error e => w.step dec c = .error e
    | .ok (R', a) => ∃ w', w.step dec c = .ok (w', a) ∧ Describes w' (F.call c) R' := by
  cases c with
  | create head => exact ⟨_, rfl, h.create hc⟩
  | add head node cell n =>
    obtain ⟨b, hb⟩ := Option.isSome_iff_exists.mp hc.1
    have halloc := h.alloc (n := n) cell hc.2
    have hnew : (w.mmapAlloc node cell n).data node = n := Function.update_self ..
    have hne : node ≠ head := fun he => hc.2 head b hb (by simp [he])
    obtain ⟨s, q, out, hrun, hins⟩ := halloc.insert hb hc.2
    rw [hnew] at hins
    rw [Regions.step, World.step, World.mmapByObj, hrun]
    cases ht : OrderedSet.insert MmapNode.addr (R head) n with
    | none =>
      rw [ht] at hins
      simp only [hins, Bool.false_eq_true, false_and, if_false]
      rfl
    | some t =>
      rw [ht] at hins
      obtain ⟨rfl, rfl, hdesc⟩ := hins
      simp only [if_pos (show True ∧ q ≠ head from ⟨trivial, hne⟩)]
      exact ⟨_, rfl, hdesc⟩
  | find head tmp cell n =>
    obtain ⟨b, hb⟩ := Option.isSome_iff_exists.mp hc.1
    have halloc := h.alloc (n := n) cell hc.2
    have hnew : (w.mmapAlloc tmp cell n).data tmp = n := Function.update_self ..
    have hfind := halloc.mmapFind tmp hb
    rw [hnew] at hfind
    exact ⟨_, by rw [World.step]; simp only [hfind]; rfl, halloc⟩
  | unmap head tmp cell n heap =>
    obtain ⟨⟨htree, hfree⟩, huses⟩ := hc
    obtain ⟨b, hb⟩ := Option.isSome_iff_exists.mp htree
    have halloc := h.alloc (n := n) cell hfree
    have hnew : (w.mmapAlloc tmp cell n).data tmp = n := Function.update_self ..
    have hunmap := halloc.munmap tmp hb huses
    have hsame : b.nodes.find? ((F.setKey tmp n.addr).key · = (F.setKey tmp n.addr).key tmp) =
        b.nodes.find? (F.key · = n.addr) := by
      apply List.find?_congr
      intro q hq
      have hq' : q ≠ tmp := fun he => hfree head b hb (he ▸ List.mem_cons_of_mem _ hq)
      simp [Forest.setKey, hq']
    rw [hnew, hsame] at hunmap
    rw [Regions.step, World.step]
    simp only [Forest.call, Forest.get_eq hb]
    cases hl : OrderedSet.locate MmapNode.addr (R head) n.addr with
    | none =>
      rw [hl] at hunmap
      simp only [hunmap.1, hunmap.2]
      exact ⟨_, rfl, halloc⟩
    | some r =>
      rw [hl] at hunmap
      obtain ⟨s, node, hrun, hnode, hdesc⟩ := hunmap
      simp only [hrun, hnode]
      exact ⟨_, rfl, hdesc⟩
  | copy head nhead blocks =>
    obtain ⟨hhead, hnhead, hne, hnd, hblocks, hlength⟩ := hc
    obtain ⟨b, hb⟩ := Option.isSome_iff_exists.mp hhead
    obtain ⟨b', hb'⟩ := Option.isSome_iff_exists.mp hnhead
    obtain ⟨t, ht, hsound⟩ := h.refines.carries hb
    have hlmst : w.state.mem.left head = b.nodes.head?.getD head := ht ▸ hsound.lmst
    rw [Forest.get_eq hb] at hlength
    have hcopy := h.copyLoop [] hb rfl hb' hne hnd hblocks hlength
    rw [← h.regions hb, ← hlmst] at hcopy
    rw [Regions.step, World.step, Forest.call, Forest.get_eq hb]
    cases ht : Regions.addAll (R head) (R nhead) with
    | error e =>
      rw [ht] at hcopy
      rw [hcopy]
      rfl
    | ok t =>
      rw [ht] at hcopy
      obtain ⟨w', hrun, hdesc⟩ := hcopy
      rw [hrun]
      exact ⟨w', rfl, hdesc⟩
  | destroy head heap =>
    obtain ⟨b, hb⟩ := Option.isSome_iff_exists.mp hc.1
    obtain ⟨s, hrun, hdesc⟩ := h.mmapDestroy dec hb hc.2
    exact ⟨_, by rw [World.step, hrun]; rfl, hdesc⟩

def World.run (dec : RefCntDec) (w : World) : List Call → Except Stop (World × List Reply)
  | [] => .ok (w, [])
  | c :: cs => do
    let (w, a) ← w.step dec c
    let (w, as) ← run dec w cs
    return (w, a :: as)

def Regions.run (R : Regions) : List Call → Except Stop (Regions × List Reply)
  | [] => .ok (R, [])
  | c :: cs => do
    let (R, a) ← R.step c
    let (R, as) ← run R cs
    return (R, a :: as)

def Forest.calls (F : Forest ℕ) (cs : List Call) : Forest ℕ := cs.foldl call F

def Forest.CallableRun (F : Forest ℕ) : List Call → Prop
  | [] => True
  | c :: cs => F.Callable c ∧ CallableRun (F.call c) cs

theorem calls_refine {cs : List Call} (dec : RefCntDec) (h : Describes w F R)
    (hcs : F.CallableRun cs) :
    match R.run cs with
    | .error e => w.run dec cs = .error e
    | .ok (R', as) => ∃ w', w.run dec cs = .ok (w', as) ∧ Describes w' (F.calls cs) R' := by
  induction cs generalizing w F R with
  | nil => exact ⟨w, rfl, h⟩
  | cons c cs ih =>
    have hcall := call_refines dec h hcs.1
    rw [Regions.run, World.run]
    cases hr : R.step c with
    | error e =>
      rw [hr] at hcall
      rw [hcall]
      rfl
    | ok r =>
      obtain ⟨R₁, a⟩ := r
      rw [hr] at hcall
      obtain ⟨w₁, hstep, hdesc⟩ := hcall
      have hrest := ih hdesc hcs.2
      simp only [hstep, bind, Except.bind]
      cases hrs : R₁.run cs with
      | error e =>
        rw [hrs] at hrest
        rw [hrest]
      | ok r =>
        obtain ⟨R₂, as⟩ := r
        rw [hrs] at hrest
        obtain ⟨w₂, hrun, hdesc₂⟩ := hrest
        exact ⟨w₂, by rw [hrun]; rfl, hdesc₂⟩

/-- At first there is no tree. -/
theorem describes_start (hkey : w.state.key = MmapNode.addr ∘ w.data) :
    Describes w (Forest.start w.state.key) fun _ => [] where
  ok := Forest.start_ok
  refines := start_refines
  key := hkey
  single hb := by cases hb
  regions hb := by cases hb

/-- Whatever regions tasks map, find, copy and unmap: every call gives what the ordered sets give,
and the trees in memory are those that the calls lead to, with the regions of the sets. -/
theorem calls_answers {cs : List Call} (dec : RefCntDec) (w : World)
    (hkey : w.state.key = MmapNode.addr ∘ w.data)
    (hcs : (Forest.start w.state.key).CallableRun cs) :
    match Regions.run (fun _ => []) cs with
    | .error e => w.run dec cs = .error e
    | .ok (R', as) => ∃ w', w.run dec cs = .ok (w', as) ∧
        Describes w' ((Forest.start w.state.key).calls cs) R' :=
  calls_refine dec (describes_start hkey) hcs

/-- Two regions are mapped and copied to another task; one is unmapped there, and the task that had
them first is reaped. Its first node is free when the second one is freed. -/
def copyCalls : List Call :=
  let cell : Cell := ⟨0, 0, 0, .RED, false⟩
  [.create 10, .add 10 5 cell ⟨4096, 8192, 7, 2⟩, .add 10 6 cell ⟨16384, 4096, 3, 2⟩, .create 20,
    .copy 10 20 [(7, cell), (8, cell)], .unmap 20 30 cell ⟨4096, 0, 0, 0⟩ ⟨[2], [3], []⟩,
    .destroy 10 ⟨[2, 7], [3], []⟩, .find 20 30 cell ⟨17000, 0, 0, 0⟩]

def blankWorld : World := ⟨{ blank with key := fun _ => 0 }, fun _ => ⟨0, 0, 0, 0⟩⟩

/-- No address is counted. -/
def noCounters : RefCntDec where
  run h m _ := (h, m)
  frame _ m _ q _ := .refl m q
  takes _ _ _ := subset_rfl

theorem copyCalls_callable : (Forest.start blankWorld.state.key).CallableRun copyCalls := by
  have hstart := Forest.among_start blankWorld.state.key
  have hfirst := hstart.put 10 ⟨false, []⟩
  have hone := hfirst.put 10 ⟨false, [5]⟩
  have htwo := hone.put 10 ⟨false, [5, 6]⟩
  have hsecond := htwo.put 20 ⟨false, []⟩
  have hcopy := (hsecond.put 20 ⟨false, [7]⟩).put 20 ⟨false, [7, 8]⟩
  have hunmap := hcopy.put 20 ⟨false, [8]⟩
  refine ⟨hstart.free (by decide), ⟨rfl, hfirst.free (by decide)⟩, ⟨rfl, hone.free (by decide)⟩,
    htwo.free (by decide), ⟨rfl, rfl, by decide, by decide, fun x hx => ?_, le_rfl⟩,
    ⟨⟨rfl, hcopy.free (by decide)⟩, fun q hq => ?_⟩, ⟨rfl, fun q hq => ?_⟩,
    ⟨rfl, (hunmap.free (by decide)).remove⟩, trivial⟩
  · fin_cases hx <;> exact hsecond.free (by decide)
  · have hq' : q = 0 ∨ q = 2 ∨ q = 3 := by simpa [Heap.uses, or_assoc] using hq
    rcases hq' with rfl | rfl | rfl <;> exact hcopy.free (by decide)
  · have hq' : q = 0 ∨ q = 2 ∨ q = 7 ∨ q = 3 := by simpa [Heap.uses, or_assoc] using hq
    rcases hq' with rfl | rfl | rfl | rfl <;> exact hunmap.free (by decide)

theorem calls_answers_reaped : ∃ w, blankWorld.run noCounters copyCalls = .ok (w,
    [.done, .done, .done, .done, .done, .region (some ⟨4096, 8192, 7, 2⟩),
      .regions [⟨4096, 8192, 7, 2⟩, ⟨16384, 4096, 3, 2⟩],
      .region (some ⟨16384, 4096, 3, 2⟩)]) := by
  obtain ⟨w, hrun, -⟩ := calls_answers noCounters blankWorld rfl copyCalls_callable
  exact ⟨w, hrun⟩

end Zrhos.Rbtree
