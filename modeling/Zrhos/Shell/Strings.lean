import Zrhos.Shell.Accept

/-! `nulterminate` cuts every string at its end and none inside, and what the parser accepts. -/
namespace Zrhos.Shell

/-- The strings of a command. -/
def Cmd.words {ω : Type} : Cmd ω → List ω
  | .exec argv => argv
  | .redir cmd file _ _ => cmd.words ++ [file]
  | .pipe left right | .list left right => left.words ++ right.words
  | .back cmd => cmd.words

theorem Cmd.all_iff {ω : Type} {P : ω → Prop} {c : Cmd ω} : c.All P ↔ ∀ w ∈ c.words, P w := by
  induction c with
  | exec argv => rfl
  | redir cmd file mode fd ih =>
    simp only [Cmd.All, Cmd.words, ih, List.mem_append, List.mem_singleton, or_imp, forall_and,
      forall_eq]
  | pipe left right ih ih' | list left right ih ih' =>
    simp only [Cmd.All, Cmd.words, ih, ih', List.mem_append, or_imp, forall_and]
  | back cmd ih => exact ih

theorem Cmd.map_congr {ω ω' : Type} {f g : ω → ω'} {c : Cmd ω} (h : c.All fun w => f w = g w) :
    c.map f = c.map g := by
  induction c with
  | exec argv => exact congrArg Cmd.exec (List.map_congr_left h)
  | redir cmd file mode fd ih => rw [Cmd.map, Cmd.map, ih h.1, h.2]
  | pipe left right ih ih' | list left right ih ih' => rw [Cmd.map, Cmd.map, ih h.1, ih' h.2]
  | back cmd ih => rw [Cmd.map, Cmd.map, ih h]

theorem foldl_cut_keep {argv : List Span} {x : ℕ} (h : ∀ w ∈ argv, w.2 ≠ x) (buf : Buf) :
    argv.foldl Buf.cut buf x = buf x := by
  induction argv generalizing buf with
  | nil => rfl
  | cons w argv ih =>
    have hw := h w (List.mem_cons_self ..)
    rw [List.foldl_cons, ih fun v hv => h v (List.mem_cons_of_mem w hv)]
    exact Function.update_of_ne hw.symm 0 buf

theorem foldl_cut_zero {argv : List Span} {x : ℕ} {buf : Buf}
    (h : buf x = 0 ∨ ∃ w ∈ argv, w.2 = x) : argv.foldl Buf.cut buf x = 0 := by
  induction argv generalizing buf with
  | nil => exact h.resolve_right fun ⟨w, hw, _⟩ => by cases hw
  | cons w argv ih =>
    rw [List.foldl_cons]
    apply ih
    by_cases hx : x = w.2
    · subst hx
      exact Or.inl (Function.update_self ..)
    · rcases h with h0 | ⟨v, hv, hvx⟩
      · exact Or.inl ((Function.update_of_ne hx 0 buf).trans h0)
      · rcases List.mem_cons.mp hv with rfl | hv
        · exact absurd hvx.symm hx
        · exact Or.inr ⟨v, hv, hvx⟩

/-- The line is cut behind each string and unchanged elsewhere. -/
theorem nulterminate_eq (c : Cmd Span) (buf : Buf) :
    nulterminate c buf = c.words.foldl Buf.cut buf := by
  induction c generalizing buf with
  | exec argv => rfl
  | redir cmd file mode fd ih =>
    rw [nulterminate, ih, Cmd.words, List.foldl_append]
    rfl
  | pipe left right ih ih' | list left right ih ih' =>
    rw [nulterminate, ih', ih, Cmd.words, List.foldl_append]
  | back cmd ih => exact ih buf

namespace CmdLine

variable {l : CmdLine} {c : Cmd Span} {w : Span}

/-- The string at `q`; there is a NUL at `es` at the latest. -/
def string (l : CmdLine) (buf : Buf) (q : ℕ) : List ℕ :=
  ((List.range' q (l.es - q)).map buf).takeWhile (· ≠ 0)

theorem byte_ne_zero {x : ℕ} (hx : x < l.es) : l.byte x ≠ 0 := by
  rw [byte, List.getD_eq_getElem _ _ hx]
  exact fun h0 => l.nonzero (h0 ▸ List.getElem_mem hx)

theorem text_eq (hw : l.IsWord w) : l.text w = (List.range' w.1 (w.2 - w.1)).map l.byte := by
  have hle := hw.le
  have hin := hw.inside
  rw [es] at hin
  apply List.ext_getElem
  · simp only [text, List.length_take, List.length_drop, List.length_map, List.length_range']
    omega
  · intro k hk hk'
    simp only [List.length_map, List.length_range'] at hk'
    have hlt : w.1 + k < l.bytes.length := by omega
    simp [text, byte, hlt]

theorem string_nulterminate (hc : c.All l.IsWord) (hw : w ∈ c.words) :
    l.string (nulterminate c l.byte) w.1 = l.text w := by
  have hall := Cmd.all_iff.mp hc
  have hword := hall w hw
  have hle := hword.le
  have hin := hword.inside
  have hsplit : List.range' w.1 (l.es - w.1) =
      List.range' w.1 (w.2 - w.1) ++ List.range' w.2 (l.es - w.2) := by
    have hend : w.1 + (w.2 - w.1) = w.2 := by omega
    have hlen : w.2 - w.1 + (l.es - w.2) = l.es - w.1 := by omega
    rw [← hlen, ← List.range'_append_1, hend]
  -- no string ends inside another one
  have hinside (x : ℕ) (hx : w.1 ≤ x) (hlt : x < w.2) : nulterminate c l.byte x = l.byte x := by
    rw [nulterminate_eq]
    apply foldl_cut_keep
    rintro w' hw' rfl
    have hend := (hall w' hw').longest (hlt.trans_le hin)
    rw [hword.letter _ hx hlt] at hend
    cases hend
  have hbytes : (List.range' w.1 (w.2 - w.1)).map (nulterminate c l.byte) = l.text w := by
    rw [text_eq hword]
    apply List.map_congr_left
    intro x hx
    rw [List.mem_range'_1] at hx
    exact hinside x hx.1 (by omega)
  have hnonzero : ∀ b ∈ l.text w, decide (b ≠ 0) = true := by
    intro b hb
    rw [text_eq hword] at hb
    obtain ⟨x, hx, rfl⟩ := List.mem_map.mp hb
    rw [List.mem_range'_1] at hx
    exact decide_eq_true (byte_ne_zero (by omega))
  rw [string, hsplit, List.map_append, hbytes, List.takeWhile_append_of_pos hnonzero]
  by_cases hend : w.2 < l.es
  · obtain ⟨k, hk⟩ : ∃ k, l.es - w.2 = k + 1 := ⟨l.es - w.2 - 1, by omega⟩
    have hcut : nulterminate c l.byte w.2 = 0 := by
      rw [nulterminate_eq]
      exact foldl_cut_zero (Or.inr ⟨w, hw, rfl⟩)
    rw [hk, List.range'_succ, List.map_cons, hcut]
    simp
  · have hzero : l.es - w.2 = 0 := by omega
    simp [hzero]

theorem map_string (hc : c.All l.IsWord) :
    c.map (fun w => l.string (nulterminate c l.byte) w.1) = c.map l.text :=
  Cmd.map_congr (Cmd.all_iff.mpr fun _ hw => string_nulterminate hc hw)

/-! ### The parser as a whole -/

theorem toks_zero : l.toks 0 = tokens l.bytes := rfl

theorem deep_start : l.Deep 4 0 (4 * l.es + 4) := by
  have hlen := toks_length_le l 0
  unfold Deep
  omega

/-- Only white space is left. -/
theorem peek_eq_es {s : ℕ} (hs : s ≤ l.es) : (l.peek s []).2 = l.es ↔ l.toks s = [] := by
  have hle : l.skip isWhite s ≤ l.es := skip_le isWhite hs
  change l.skip isWhite s = l.es ↔ _
  rcases toks_cases l s with ⟨hdrop, htoks⟩ | ⟨c, cs, hdrop, -, htoks⟩
  · have hge : l.es ≤ l.skip isWhite s := List.drop_eq_nil_iff.mp hdrop
    exact ⟨fun _ => htoks, fun _ => le_antisymm hle hge⟩
  · have hlt := lt_of_drop_cons hdrop
    constructor
    · intro he
      omega
    · intro hnil
      rw [hnil] at htoks
      cases htoks

theorem parsecmd_of_ok {s : ℕ} (h : l.parseline (4 * l.es + 4) 0 = .ok (c, s)) :
    l.parsecmd = if (l.peek s []).2 ≠ l.es then .error (.panic .badSyntax)
      else .ok (c, nulterminate c l.byte) := by
  rw [parsecmd, h]
  rfl

theorem parsecmd_of_derives {d : Cmd (List ℕ)} (h : Derives .line (tokens l.bytes) d) :
    ∃ c, l.parsecmd = .ok (c, nulterminate c l.byte) ∧ c.map l.text = d := by
  have htoks : l.toks 0 = tokens l.bytes ++ [] := (List.append_nil _).symm
  obtain ⟨c, s, hparse, hs, hnil, hmap⟩ := derives_complete h (4 * l.es + 4) 0 [] (Nat.zero_le _)
    htoks (fun t ht => by cases ht) deep_start
  refine ⟨c, ?_, hmap⟩
  rw [parsecmd_of_ok hparse, if_neg]
  exact not_not.mpr ((peek_eq_es hs).mpr hnil)

theorem parsecmd_ends : l.parsecmd ≠ .error .fuel ∧ ∀ c buf, l.parsecmd = .ok (c, buf) →
    buf = nulterminate c l.byte ∧ c.All l.IsWord ∧
      Derives .line (tokens l.bytes) (c.map l.text) := by
  have hends := (parse_ends (4 * l.es + 4)).1 0 (Nat.zero_le l.es) deep_start
  cases hparse : l.parseline (4 * l.es + 4) 0 with
  | error e =>
    have hcmd : l.parsecmd = .error e := by
      rw [parsecmd, hparse]
      rfl
    rw [hparse] at hends
    cases e with
    | panic why =>
      rw [hcmd]
      exact ⟨fun h => (by cases h), fun c buf h => (by cases h)⟩
    | fuel => exact hends.elim
  | ok r =>
    obtain ⟨c, s⟩ := r
    rw [hparse] at hends
    obtain ⟨hs, hwords, us, hus, hd⟩ := hends
    rw [parsecmd_of_ok hparse]
    split_ifs with hleft
    · exact ⟨fun h => (by cases h), fun c buf h => (by cases h)⟩
    · refine ⟨fun h => (by cases h), fun c' buf h => ?_⟩
      cases h
      rw [(peek_eq_es hs).mp (not_not.mp hleft), List.append_nil, toks_zero] at hus
      exact ⟨rfl, hwords, hus ▸ hd⟩

/-- The parser comes to an end on every line. It succeeds on the lines that the grammar derives,
and the command it answers, with its strings as they are in memory, is the one derived. -/
theorem parsecmd_correct (l : CmdLine) : l.parsecmd ≠ .error .fuel ∧
    ((∃ c buf, l.parsecmd = .ok (c, buf)) ↔ ∃ d, Derives .line (tokens l.bytes) d) ∧
    ∀ c buf, l.parsecmd = .ok (c, buf) →
      ∀ d, Derives .line (tokens l.bytes) d ↔ c.map (fun w => l.string buf w.1) = d := by
  obtain ⟨hfuel, hok⟩ := parsecmd_ends (l := l)
  refine ⟨hfuel, ⟨?_, ?_⟩, fun c buf h d => ?_⟩
  · rintro ⟨c, buf, h⟩
    exact ⟨_, (hok c buf h).2.2⟩
  · rintro ⟨d, hd⟩
    obtain ⟨c, h, -⟩ := parsecmd_of_derives hd
    exact ⟨c, _, h⟩
  · obtain ⟨rfl, hwords, hderives⟩ := hok c buf h
    rw [map_string hwords]
    constructor
    · intro hd
      obtain ⟨c', h', hmap⟩ := parsecmd_of_derives hd
      rw [h] at h'
      cases h'
      exact hmap
    · rintro rfl
      exact hderives

/-- `ls | wc >f` -/
def pipeline : CmdLine :=
  ⟨[108, 115, 32, 124, 32, 119, 99, 32, 62, 102], by decide⟩

example : pipeline.parsecmd.toOption.map (fun r => r.1.map fun w => pipeline.string r.2 w.1) =
    some (.pipe (.exec [[108, 115]]) (.redir (.exec [[119, 99]]) [102] 0x601 1)) := by
  decide +kernel

end CmdLine

end Zrhos.Shell
