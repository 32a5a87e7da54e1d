import Zrhos.Mmap.Model
import Zrhos.Rbtree.Range

/-! What `mem_free` and the functions of `mmap.c` that free nodes do to the fields of nodes. A
free block holds a pointer to the next one of its size in its first word, which is `_parent`. -/
namespace Zrhos.Rbtree
open Rbtree.Mem Mmap

variable {m : Mem} {free : List ℕ} {p q bp : ℕ}

/-- `mm_free` of a block of the size of a node. `free` are the blocks from `sizehead[pos]` on, in
the order of the list: those in front of the block, then those behind. -/
def mmFree (free : List ℕ) (m : Mem) (bp : ℕ) : List ℕ × Mem :=
  let xs := free.takeWhile (· < bp)
  let ys := free.dropWhile (· < bp)
  let lp := xs.getLast?.getD 0
  match ys with
  | [] => (xs ++ [bp], (m.setParent lp bp).setParent bp 0)
  | p :: _ =>
    if bp < p then (xs ++ bp :: ys, (m.setParent lp bp).setParent bp p)
    else (free, m)

theorem setParent_agree {v : ℕ} (hq : q ≠ p) : Agree m (m.setParent p v) q := by
  refine ⟨?_, fun d => rfl, rfl, rfl⟩
  rw [setParent_parent, if_neg hq]

/-- Beside the block only one that was free before is written to, or what `NULL` points to. -/
theorem mmFree_frame (hfree : q ∉ 0 :: free) (hbp : q ≠ bp) : Agree m (mmFree free m bp).2 q := by
  have hlp : q ≠ (free.takeWhile (· < bp)).getLast?.getD 0 := by
    rintro rfl
    cases hx : (free.takeWhile (· < bp)).getLast? with
    | none => exact hfree (by simp [hx])
    | some x =>
      have hmem : x ∈ free := (List.takeWhile_sublist _).subset (List.mem_of_getLast? hx)
      exact hfree (by simp [hx, hmem])
  have htwo (v : ℕ) : Agree m
      ((m.setParent ((free.takeWhile (· < bp)).getLast?.getD 0) bp).setParent bp v) q :=
    (setParent_agree hlp).trans (setParent_agree hbp)
  unfold mmFree
  cases free.dropWhile (· < bp) with
  | nil => exact htwo 0
  | cons p ys =>
    dsimp only
    split_ifs with hlt
    · exact htwo p
    · exact .refl m q

theorem mmFree_takes (hq : q ∈ (mmFree free m bp).1) : q = bp ∨ q ∈ free := by
  have hsplit := List.takeWhile_append_dropWhile (p := (· < bp)) (l := free)
  have hmem : q ∈ free ↔ q ∈ free.takeWhile (· < bp) ∨ q ∈ free.dropWhile (· < bp) := by
    conv_lhs => rw [← hsplit]
    exact List.mem_append
  revert hq
  unfold mmFree
  cases hy : free.dropWhile (· < bp) with
  | nil =>
    rw [hmem, hy]
    simp [or_comm]
  | cons p ys =>
    dsimp only
    split_ifs with hlt
    · rw [hmem, hy]
      simp only [List.mem_append, List.mem_cons]
      tauto
    · exact fun hq => Or.inr hq

/-- `mem_free`, as the function that `rb_clear_free` calls. -/
def memFreeF : FreeF (List ℕ) where
  run := mmFree
  uses free := {q | q ∈ 0 :: free}
  frame _ _ _ _ hq hp := mmFree_frame hq hp
  takes free m p q hq := by
    rcases List.mem_cons.mp hq with hq | hq
    · exact Or.inr (by simp [hq])
    · exact (mmFree_takes hq).imp_right fun hq => List.mem_cons_of_mem _ hq

/-! ### Freeing regions -/

/-- What freeing regions works with: the free blocks of the size of a node and of the size of a
`Mmap_t`, and the head and the nodes of the tree of reference counters. -/
structure Heap where
  nodes : List ℕ
  objs : List ℕ
  ref : List ℕ

def Heap.uses (h : Heap) : Set ℕ := {q | q ∈ 0 :: h.nodes ∨ q ∈ h.objs ∨ q ∈ h.ref}

/-- `ref_cnt_dec` of an address: it may change and free the nodes of its own tree. -/
structure RefCntDec where
  run : Heap → Mem → ℕ → Heap × Mem
  frame : ∀ h m va q, q ∉ h.uses → Agree m (run h m va).2 q
  takes : ∀ h m va, (run h m va).1.uses ⊆ h.uses

/-- `mmap_free`. The data of the node lies in a block of another size. -/
def mmapFree (h : Heap) (m : Mem) (node : ℕ) : Heap × Mem :=
  let (nodes, m) := mmFree h.nodes m node
  ({ h with nodes }, m)

theorem mmapFree_frame {h : Heap} (hq : q ∉ h.uses) (hp : q ≠ p) : Agree m (mmapFree h m p).2 q :=
  mmFree_frame (fun hfree => hq (Or.inl hfree)) hp

theorem mmapFree_takes {h : Heap} : (mmapFree h m p).1.uses ⊆ insert p h.uses := by
  rintro q (hq | hq)
  · rcases List.mem_cons.mp hq with hq | hq
    · exact Or.inr (Or.inl (by simp [hq]))
    · rcases mmFree_takes hq with hq | hq
      · exact Or.inl hq
      · exact Or.inr (Or.inl (List.mem_cons_of_mem _ hq))
  · exact Or.inr (Or.inr hq)

/-- The `mem_free` of `mmap_destroy`: the head node is what a `Mmap_t` starts with. -/
def objFree (h : Heap) (m : Mem) (obj : ℕ) : Heap × Mem :=
  let (objs, m) := mmFree h.objs m obj
  ({ h with objs }, m)

theorem objFree_frame {h : Heap} (hq : q ∉ h.uses) (hp : q ≠ p) : Agree m (objFree h m p).2 q := by
  apply mmFree_frame _ hp
  intro hfree
  rcases List.mem_cons.mp hfree with rfl | hfree
  · exact hq (Or.inl List.mem_cons_self)
  · exact hq (Or.inr (Or.inl hfree))

variable (dec : RefCntDec)

def RefCntDec.all (h : Heap) (m : Mem) (vas : List ℕ) : Heap × Mem :=
  vas.foldl (fun hm va => dec.run hm.1 hm.2 va) (h, m)

theorem RefCntDec.all_spec (h : Heap) (m : Mem) (vas : List ℕ) :
    (∀ q, q ∉ h.uses → Agree m (dec.all h m vas).2 q) ∧ (dec.all h m vas).1.uses ⊆ h.uses := by
  induction vas generalizing h m with
  | nil => exact ⟨fun q _ => .refl m q, subset_rfl⟩
  | cons va vas ih =>
    obtain ⟨hframe, htakes⟩ := ih (dec.run h m va).1 (dec.run h m va).2
    have hstep := dec.takes h m va
    exact ⟨fun q hq => (dec.frame h m va q hq).trans (hframe q fun hu => hq (hstep hu)),
      htakes.trans hstep⟩

/-- `mmap_freef`, where the nodes have the data: the counters of all pages of the region, then the
node. -/
def mmapFreef (data : ℕ → MmapNode) : FreeF Heap where
  run h m node :=
    let (h, m) := dec.all h m (data node).vas
    mmapFree h m node
  uses := Heap.uses
  frame h m p q hq hp := by
    obtain ⟨hframe, htakes⟩ := dec.all_spec h m (data p).vas
    exact (hframe q hq).trans (mmapFree_frame (fun hu => hq (htakes hu)) hp)
  takes h m p := by
    obtain ⟨-, htakes⟩ := dec.all_spec h m (data p).vas
    exact mmapFree_takes.trans (Set.insert_subset_insert htakes)

end Zrhos.Rbtree
