import Mathlib.Tactic
import Mathlib.Data.List.TakeWhile

/-! Ordered sets with unique keys, as search trees implement them: the nodes in order,
lookup by lower bound, insertion that refuses a key already there. A lookup returns the
node together with the nodes before and behind it, so that the node can be changed in
place. -/
namespace OrderedSet

variable {α κ : Type*} [LinearOrder κ] (key : α → κ)

def locate (t : List α) (k : κ) : Option (List α × α × List α) :=
  match t.dropWhile (key · < k) with
  | [] => none
  | n :: ys => if k < key n then none else some (t.takeWhile (key · < k), n, ys)

def insert (t : List α) (node : α) : Option (List α) :=
  match locate key t (key node) with
  | some _ => none
  | none => some (t.takeWhile (key · < key node) ++ node :: t.dropWhile (key · < key node))

/-- The last node whose key does not exceed `k`: one before the upper bound. -/
def floor (t : List α) (k : κ) : Option α := (t.takeWhile (key · ≤ k)).getLast?

def Sorted (t : List α) : Prop := t.Pairwise (key · < key ·)

variable {key} {t xs ys : List α} {n node : α} {k : κ}

theorem locate_eq_some (h : locate key t k = some (xs, n, ys)) :
    t = xs ++ n :: ys ∧ key n = k := by
  unfold locate at h
  split at h
  · cases h
  case _ m zs hd =>
    split_ifs at h with hlt
    cases h
    have hsplit := List.takeWhile_append_dropWhile (p := fun x => decide (key x < k)) (l := t)
    have hge : ¬ key n < k := by
      simpa [hd] using List.head?_dropWhile_not (fun x => decide (key x < k)) t
    refine ⟨by rw [← hd]; exact hsplit.symm, le_antisymm (not_lt.mp hlt) (not_lt.mp hge)⟩

theorem locate_eq_none (h : ∀ m ∈ t, key m ≠ k) : locate key t k = none := by
  cases hl : locate key t k with
  | none => rfl
  | some r =>
    obtain ⟨xs, n, ys⟩ := r
    obtain ⟨rfl, hk⟩ := locate_eq_some hl
    exact absurd hk (h n (by simp))

theorem sorted_split :
    Sorted key (xs ++ n :: ys) ↔ Sorted key (xs ++ ys) ∧ (∀ x ∈ xs, key x < key n) ∧
      ∀ y ∈ ys, key n < key y := by
  simp only [Sorted, List.pairwise_append, List.pairwise_cons, List.mem_cons]
  constructor
  · rintro ⟨hx, ⟨hn, hy⟩, hxy⟩
    exact ⟨⟨hx, hy, fun a ha b hb => hxy a ha b (Or.inr hb)⟩, fun x hx => hxy x hx n (Or.inl rfl),
      hn⟩
  · rintro ⟨⟨hx, hy, hxy⟩, hn, hn'⟩
    refine ⟨hx, ⟨hn', hy⟩, fun a ha b hb => ?_⟩
    rcases hb with rfl | hb
    · exact hn a ha
    · exact hxy a ha b hb

theorem locate_self (h : Sorted key (xs ++ n :: ys)) :
    locate key (xs ++ n :: ys) (key n) = some (xs, n, ys) := by
  obtain ⟨-, hx, -⟩ := sorted_split.mp h
  have htake : (xs ++ n :: ys).takeWhile (fun x => decide (key x < key n)) = xs := by
    rw [List.takeWhile_append_of_pos (by simpa using hx)]
    simp
  have hdrop : (xs ++ n :: ys).dropWhile (fun x => decide (key x < key n)) = n :: ys := by
    rw [List.dropWhile_append_of_pos (by simpa using hx)]
    simp
  simp only [locate, hdrop, htake, lt_irrefl, ↓reduceIte]

theorem locate_of_mem (h : Sorted key t) (hn : n ∈ t) :
    ∃ xs ys, t = xs ++ n :: ys ∧ locate key t (key n) = some (xs, n, ys) := by
  obtain ⟨xs, ys, rfl⟩ := List.append_of_mem hn
  exact ⟨xs, ys, rfl, locate_self h⟩

theorem Sorted.eq_of_key (h : Sorted key t) {a b : α} (ha : a ∈ t) (hb : b ∈ t)
    (he : key a = key b) : a = b := by
  obtain ⟨xs, ys, hs, hl⟩ := locate_of_mem h ha
  obtain ⟨xs', ys', hs', hl'⟩ := locate_of_mem h hb
  rw [he, hl'] at hl
  cases hl
  rfl

theorem takeWhile_lt {x : α} (hx : x ∈ t.takeWhile (key · < k)) : key x < k := by
  simpa using List.mem_takeWhile_imp hx

/-- Behind the lower bound of a new key all keys are larger. -/
theorem Sorted.lt_dropWhile (h : Sorted key t) (hn : ∀ m ∈ t, key m ≠ k) {y : α}
    (hy : y ∈ t.dropWhile (key · < k)) : k < key y := by
  have hsplit := List.takeWhile_append_dropWhile (p := fun x => decide (key x < k)) (l := t)
  have hmem : y ∈ t := hsplit ▸ List.mem_append_right _ hy
  refine lt_of_le_of_ne ?_ (Ne.symm (hn y hmem))
  cases hd : t.dropWhile (fun x => decide (key x < k)) with
  | nil =>
    rw [hd] at hy
    cases hy
  | cons z zs =>
    have hz : k ≤ key z := by
      simpa [hd] using List.head?_dropWhile_not (fun x => decide (key x < k)) t
    rw [hd] at hy hsplit
    rcases List.mem_cons.mp hy with rfl | hy
    · exact hz
    · have hpw : Sorted key (t.takeWhile (fun x => decide (key x < k)) ++ z :: zs) := by
        rw [hsplit]
        exact h
      exact hz.trans ((sorted_split.mp hpw).2.2 y hy).le

/-- Insertion succeeds on a new key and puts the node in its place. -/
theorem insert_eq_some (h : Sorted key t) (hn : ∀ m ∈ t, key m ≠ key node) :
    ∃ xs ys, t = xs ++ ys ∧ insert key t node = some (xs ++ node :: ys) ∧
      Sorted key (xs ++ node :: ys) := by
  have hsplit := List.takeWhile_append_dropWhile (p := fun x => decide (key x < key node)) (l := t)
  refine ⟨_, _, hsplit.symm, by rw [insert, locate_eq_none hn], ?_⟩
  exact sorted_split.mpr ⟨by rwa [hsplit], fun x hx => takeWhile_lt hx,
    fun y hy => h.lt_dropWhile hn hy⟩

theorem insert_mem {t' : List α} (h : insert key t node = some t') (m : α) :
    m ∈ t' ↔ m = node ∨ m ∈ t := by
  unfold insert at h
  split at h
  · cases h
  · cases h
    have hsplit := List.takeWhile_append_dropWhile (p := fun x => decide (key x < key node))
      (l := t)
    conv_rhs => rw [← hsplit]
    simp only [List.mem_append, List.mem_cons]
    tauto

theorem insert_eq_none (h : Sorted key t) (hn : n ∈ t) (hk : key n = key node) :
    insert key t node = none := by
  obtain ⟨xs, ys, -, hl⟩ := locate_of_mem h hn
  rw [insert, ← hk, hl]

/-- A successful insertion had a new key and leaves the set ordered. -/
theorem Sorted.insert {t' : List α} (h : Sorted key t) (hi : insert key t node = some t') :
    Sorted key t' ∧ ∀ m ∈ t, key m ≠ key node := by
  have hnew : ∀ m ∈ t, key m ≠ key node := by
    intro m hm he
    rw [insert_eq_none h hm he] at hi
    cases hi
  obtain ⟨xs, ys, -, he, hs⟩ := insert_eq_some h hnew
  rw [hi] at he
  exact ⟨Option.some.inj he ▸ hs, hnew⟩

/-- Inserting behind all other nodes. -/
theorem insert_last (h : ∀ m ∈ t, key m < key node) : insert key t node = some (t ++ [node]) := by
  have hall : ∀ m ∈ t, decide (key m < key node) = true := fun m hm => by simpa using h m hm
  rw [OrderedSet.insert, locate_eq_none fun m hm => (h m hm).ne,
    List.takeWhile_eq_self_iff.mpr hall, List.dropWhile_eq_nil_iff.mpr hall]

/-- The predecessor search finds a node whose successors all lie beyond `k`. -/
theorem floor_eq_some (h : Sorted key t) (hn : n ∈ t) (hk : key n ≤ k)
    (hnext : ∀ m ∈ t, key n < key m → k < key m) : floor key t k = some n := by
  obtain ⟨xs, ys, rfl⟩ := List.append_of_mem hn
  obtain ⟨-, hx, hy⟩ := sorted_split.mp h
  have htake : (xs ++ n :: ys).takeWhile (fun x => decide (key x ≤ k)) = xs ++ [n] := by
    rw [List.takeWhile_append_of_pos fun x hm => by simpa using (hx x hm).le.trans hk,
      List.takeWhile_cons_of_pos (by simpa using hk)]
    cases ys with
    | nil => rfl
    | cons y ys =>
      have hlt : k < key y := hnext y (by simp) (hy y (by simp))
      rw [List.takeWhile_cons_of_neg (by simpa using hlt)]
  rw [floor, htake, List.getLast?_append]
  rfl

/-! ### Nodes behind pointers

The nodes of a set may be names of what the keys are read from. -/

variable {β : Type*} (f : β → α) (u : List β)

theorem floor_map : floor key (u.map f) k = (floor (key ∘ f) u k).map f := by
  rw [floor, floor, List.takeWhile_map, List.getLast?_map]
  rfl

theorem locate_map : locate key (u.map f) k =
    (locate (key ∘ f) u k).map fun (xs, n, ys) => (xs.map f, f n, ys.map f) := by
  rw [locate, locate, List.dropWhile_map, List.takeWhile_map]
  simp only [Function.comp_def]
  cases u.dropWhile fun x => decide (key (f x) < k) with
  | nil => rfl
  | cons n ys =>
    simp only [List.map_cons]
    split_ifs <;> rfl

theorem insert_map (m : β) :
    insert key (u.map f) (f m) = (insert (key ∘ f) u m).map (List.map f) := by
  have hkey : (key ∘ f) m = key (f m) := rfl
  rw [insert, insert, locate_map, hkey]
  cases locate (key ∘ f) u (key (f m)) with
  | some r => rfl
  | none =>
    rw [List.takeWhile_map, List.dropWhile_map]
    simp only [Option.map_none, Option.map_some, List.map_append, List.map_cons]
    rfl

end OrderedSet
