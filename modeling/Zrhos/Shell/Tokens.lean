import Zrhos.Shell.Grammar

/-! What `peek` and `gettoken` see of the tokens behind a position. -/
namespace Zrhos.Shell

/-- The code of a token. -/
def Tok.code {ω : Type} : Tok ω → ℕ
  | word _ => WORD
  | redir .input => LESS
  | redir .output => MORE
  | redir .append => PLUS
  | bar => BAR
  | amp => AMP
  | semi => SEMI
  | lpar => LPAR
  | rpar => RPAR

/-- The first character of a symbol. -/
def Tok.char {ω : Type} : Tok ω → ℕ
  | redir .append => MORE
  | t => t.code

namespace CmdLine

variable {l : CmdLine} {p : ℕ → Bool} {s c : ℕ} {cs : List ℕ}

/-! ### Bytes -/

theorem byte_of_drop_nil (h : l.bytes.drop s = []) : l.byte s = 0 := by
  have hle := List.drop_eq_nil_iff.mp h
  simp [byte, List.getD_eq_getElem?_getD, hle]

theorem lt_of_drop_cons (h : l.bytes.drop s = c :: cs) : s < l.es := by
  by_contra hc
  rw [List.drop_eq_nil_iff.mpr (not_lt.mp hc)] at h
  cases h

theorem byte_of_drop_cons (h : l.bytes.drop s = c :: cs) : l.byte s = c := by
  have hget : (l.bytes.drop s)[0]? = some c := by rw [h]; rfl
  rw [List.getElem?_drop, Nat.add_zero] at hget
  rw [byte, List.getD_eq_getElem?_getD, hget, Option.getD_some]

theorem drop_succ_of_drop_cons (h : l.bytes.drop s = c :: cs) : l.bytes.drop (s + 1) = cs := by
  rw [← List.drop_drop, h, List.drop_one, List.tail_cons]

theorem ne_zero_of_drop_cons (h : l.bytes.drop s = c :: cs) : c ≠ 0 := by
  rintro rfl
  exact l.nonzero (List.mem_of_mem_drop (h ▸ List.mem_cons_self ..))

/-! ### Skipping -/

theorem skipLoop_eq {n : ℕ} (hn : n = l.es - s) :
    l.skipLoop p n s = s + ((l.bytes.drop s).takeWhile p).length := by
  induction n generalizing s with
  | zero =>
    have hnil : l.bytes.drop s = [] := List.drop_eq_nil_iff.mpr (by rw [es] at hn; omega)
    simp [skipLoop, hnil]
  | succ n ih =>
    obtain ⟨c, cs, h⟩ : ∃ c cs, l.bytes.drop s = c :: cs := by
      apply List.exists_cons_of_ne_nil
      intro hnil
      have hle := List.drop_eq_nil_iff.mp hnil
      rw [es] at hn
      omega
    unfold skipLoop
    rw [byte_of_drop_cons h, ih (by omega), drop_succ_of_drop_cons h, h]
    by_cases hp : p c = true
    · simp [hp]
      omega
    · simp [hp]

theorem skip_eq (p : ℕ → Bool) (s : ℕ) :
    l.skip p s = s + ((l.bytes.drop s).takeWhile p).length := skipLoop_eq rfl

theorem drop_skip (p : ℕ → Bool) (s : ℕ) :
    l.bytes.drop (l.skip p s) = (l.bytes.drop s).dropWhile p := by
  have hsplit := List.takeWhile_append_dropWhile (p := p) (l := l.bytes.drop s)
  rw [skip_eq, ← List.drop_drop]
  calc (l.bytes.drop s).drop ((l.bytes.drop s).takeWhile p).length
      = ((l.bytes.drop s).takeWhile p ++ (l.bytes.drop s).dropWhile p).drop
          ((l.bytes.drop s).takeWhile p).length := by rw [hsplit]
    _ = (l.bytes.drop s).dropWhile p := List.drop_left

theorem skip_le (p : ℕ → Bool) (hs : s ≤ l.es) : l.skip p s ≤ l.es := by
  have hlen := (List.takeWhile_sublist p (l := l.bytes.drop s)).length_le
  rw [List.length_drop] at hlen
  rw [skip_eq]
  rw [es] at hs ⊢
  omega

/-! ### The tokens behind a position -/

/-- The tokens from position `s` on. -/
def toks (l : CmdLine) (s : ℕ) : List (Tok (List ℕ)) := tokens (l.bytes.drop s)

theorem tokens_nil : tokens [] = [] := by rw [tokens]

theorem tokens_cons (c : ℕ) (cs : List ℕ) : tokens (c :: cs) =
    if isWhite c then tokens cs else (firstToken c cs).1 :: tokens (firstToken c cs).2 := by
  rw [tokens]

theorem tokens_dropWhile (bytes : List ℕ) : tokens (bytes.dropWhile isWhite) = tokens bytes := by
  induction bytes with
  | nil => rfl
  | cons c cs ih =>
    by_cases hc : isWhite c = true
    · rw [List.dropWhile_cons_of_pos hc, ih, tokens_cons, if_pos hc]
    · rw [List.dropWhile_cons_of_neg hc]

theorem tokens_length_le (bytes : List ℕ) : (tokens bytes).length ≤ bytes.length := by
  induction bytes using tokens.induct with
  | case1 => simp [tokens_nil]
  | case2 c cs hc ih =>
    rw [tokens_cons, if_pos hc, List.length_cons]
    omega
  | case3 c cs hc ih =>
    have hlen := firstToken_length c cs
    rw [tokens_cons, if_neg hc, List.length_cons, List.length_cons]
    omega

theorem toks_length_le (l : CmdLine) (s : ℕ) : (l.toks s).length ≤ l.es := by
  have hlen := tokens_length_le (l.bytes.drop s)
  rw [List.length_drop] at hlen
  rw [toks, es]
  omega

theorem toks_skip : l.toks (l.skip isWhite s) = l.toks s := by
  rw [toks, drop_skip, tokens_dropWhile, toks]

/-- Behind white space the line ends or a token begins. -/
theorem toks_cases (l : CmdLine) (s : ℕ) :
    (l.bytes.drop (l.skip isWhite s) = [] ∧ l.toks s = []) ∨
      ∃ c cs, l.bytes.drop (l.skip isWhite s) = c :: cs ∧ isWhite c = false ∧
        l.toks s = (firstToken c cs).1 :: tokens (firstToken c cs).2 := by
  rw [← toks_skip, toks]
  cases hdrop : l.bytes.drop (l.skip isWhite s) with
  | nil => exact Or.inl ⟨rfl, tokens_nil⟩
  | cons c cs =>
    have hc : isWhite c = false := by
      have hne : (l.bytes.drop s).dropWhile isWhite ≠ [] := by
        rw [← drop_skip, hdrop]
        exact List.cons_ne_nil c cs
      have hhead := List.head_dropWhile_not isWhite hne
      simpa [← drop_skip, hdrop] using hhead
    exact Or.inr ⟨c, cs, rfl, hc, by rw [tokens_cons, if_neg (by simp [hc])]⟩

theorem firstToken_of_not_mem (hc : c ∉ symbols) : firstToken c cs =
    (.word (c :: cs.takeWhile isLetter), cs.dropWhile isLetter) := by
  simp only [symbols, List.mem_cons, List.not_mem_nil, or_false, not_or] at hc
  obtain ⟨hless, hbar, hmore, hamp, hsemi, hlpar, hrpar⟩ := hc
  simp only [firstToken, hless, hbar, hmore, hamp, hsemi, hlpar, hrpar, if_false]

/-- A symbol and the tokens that begin with it. -/
theorem firstToken_of_mem (cs : List ℕ) (hc : c ∈ symbols) :
    ((firstToken c cs).1.char = c) ∧ ∀ w, (firstToken c cs).1 ≠ .word w := by
  simp only [symbols, List.mem_cons, List.not_mem_nil, or_false] at hc
  rcases hc with rfl | rfl | rfl | rfl | rfl | rfl | rfl
  case inr.inr.inl =>
    by_cases hh : cs.head? = some 62
    · simp [firstToken, hh, Tok.char, MORE, BAR, LPAR, RPAR, SEMI, AMP, LESS]
    · simp [firstToken, hh, Tok.char, Tok.code, MORE, BAR, LPAR, RPAR, SEMI, AMP, LESS]
  all_goals simp [firstToken, Tok.char, Tok.code, BAR, LPAR, RPAR, SEMI, AMP, LESS]

theorem firstToken_char {T : List ℕ} (hT : T ⊆ symbols) :
    (firstToken c cs).1.char ∈ T ↔ c ∈ T := by
  by_cases hc : c ∈ symbols
  · rw [(firstToken_of_mem cs hc).1]
  · have hword : WORD ∉ T := fun h => absurd (hT h) (by decide)
    have hnot : c ∉ T := fun h => hc (hT h)
    simp [firstToken_of_not_mem hc, Tok.char, Tok.code, hword, hnot]

theorem peek_toks (T : List ℕ) : l.toks (l.peek s T).2 = l.toks s := toks_skip

theorem peek_le (T : List ℕ) (hs : s ≤ l.es) : (l.peek s T).2 ≤ l.es := skip_le isWhite hs

theorem peek_nil {T : List ℕ} (h : l.toks s = []) : (l.peek s T).1 = false := by
  rcases toks_cases l s with ⟨hdrop, -⟩ | ⟨c, cs, -, -, htoks⟩
  · simp [peek, byte_of_drop_nil hdrop]
  · rw [h] at htoks
    cases htoks

/-- `peek` looks at the first character of the next token. -/
theorem peek_cons {T : List ℕ} {t : Tok (List ℕ)} {ts : List (Tok (List ℕ))} (hT : T ⊆ symbols)
    (h : l.toks s = t :: ts) : (l.peek s T).1 = decide (t.char ∈ T) := by
  rcases toks_cases l s with ⟨-, htoks⟩ | ⟨c, cs, hdrop, -, htoks⟩
  · rw [h] at htoks
    cases htoks
  · rw [h] at htoks
    obtain ⟨rfl, -⟩ := List.cons.inj htoks
    have h0 := ne_zero_of_drop_cons hdrop
    simp [peek, byte_of_drop_cons hdrop, strchr, h0, firstToken_char hT]

/-- The string is a longest run of letters. -/
structure IsWord (l : CmdLine) (w : Span) : Prop where
  le : w.1 ≤ w.2
  inside : w.2 ≤ l.es
  letter : ∀ x, w.1 ≤ x → x < w.2 → isLetter (l.byte x) = true
  longest : w.2 < l.es → isLetter (l.byte w.2) = false

def text (l : CmdLine) (w : Span) : List ℕ := (l.bytes.drop w.1).take (w.2 - w.1)

theorem text_skip (s : ℕ) :
    l.text (s, l.skip isLetter s) = (l.bytes.drop s).takeWhile isLetter := by
  have hsplit := List.takeWhile_append_dropWhile (p := isLetter) (l := l.bytes.drop s)
  rw [text, skip_eq, Nat.add_sub_cancel_left]
  calc (l.bytes.drop s).take ((l.bytes.drop s).takeWhile isLetter).length
      = ((l.bytes.drop s).takeWhile isLetter ++ (l.bytes.drop s).dropWhile isLetter).take
          ((l.bytes.drop s).takeWhile isLetter).length := by rw [hsplit]
    _ = (l.bytes.drop s).takeWhile isLetter := List.take_left

theorem isWord_skip (hs : s ≤ l.es) : l.IsWord (s, l.skip isLetter s) := by
  constructor
  case le =>
    rw [skip_eq]
    exact Nat.le_add_right _ _
  case inside => exact skip_le isLetter hs
  case letter =>
    intro x hx hlt
    obtain ⟨k, rfl⟩ := Nat.exists_eq_add_of_le hx
    dsimp only at hlt
    rw [skip_eq] at hlt
    have hk : k < ((l.bytes.drop s).takeWhile isLetter).length := by omega
    have hget : ((l.bytes.drop s).takeWhile isLetter)[k] = l.byte (s + k) := by
      have hhead := List.takeWhile_prefix isLetter (l := l.bytes.drop s)
      rw [hhead.getElem hk, List.getElem_drop, byte, List.getD_eq_getElem]
    rw [← hget]
    exact List.mem_takeWhile_imp (List.getElem_mem hk)
  case longest =>
    intro hlt
    obtain ⟨c, cs, h⟩ : ∃ c cs, l.bytes.drop (l.skip isLetter s) = c :: cs := by
      apply List.exists_cons_of_ne_nil
      intro hnil
      exact absurd (List.drop_eq_nil_iff.mp hnil) (not_le.mpr hlt)
    have hne : (l.bytes.drop s).dropWhile isLetter ≠ [] := by
      rw [← drop_skip, h]
      exact List.cons_ne_nil c cs
    have hhead := List.head_dropWhile_not isLetter hne
    rw [byte_of_drop_cons h]
    simpa [← drop_skip, h] using hhead

theorem scan_of_drop (h : l.bytes.drop s = c :: cs) (hc : isWhite c = false) :
    (l.scan s).1 = (firstToken c cs).1.code ∧
      l.bytes.drop (l.scan s).2 = (firstToken c cs).2 ∧ (l.scan s).2 ≤ l.es ∧
      ∀ w, (firstToken c cs).1 = .word w → l.text (s, (l.scan s).2) = w ∧
        l.IsWord (s, (l.scan s).2) := by
  have h0 := ne_zero_of_drop_cons h
  have hlt := lt_of_drop_cons h
  have hsucc := drop_succ_of_drop_cons h
  have hbyte := byte_of_drop_cons h
  by_cases hsym : c ∈ symbols
  · have hword := (firstToken_of_mem cs hsym).2
    suffices hrest : (l.scan s).1 = (firstToken c cs).1.code ∧
        l.bytes.drop (l.scan s).2 = (firstToken c cs).2 ∧ (l.scan s).2 ≤ l.es from
      ⟨hrest.1, hrest.2.1, hrest.2.2, fun w hw => absurd hw (hword w)⟩
    by_cases hmore : c = MORE
    · subst hmore
      have hscan : l.scan s =
          if l.byte (s + 1) = MORE then (PLUS, s + 2) else (MORE, s + 1) := by
        simp [scan, hbyte, MORE, BAR, LPAR, RPAR, SEMI, AMP, LESS]
      have hfirst : firstToken MORE cs = if cs.head? = some MORE
          then (.redir .append, cs.tail) else (.redir .output, cs) := by
        simp [firstToken, MORE, BAR, LPAR, RPAR, SEMI, AMP, LESS]
      cases cs with
      | nil =>
        rw [hscan, hfirst, byte_of_drop_nil hsucc, if_neg (by decide), if_neg (by simp)]
        exact ⟨rfl, hsucc, hlt⟩
      | cons d ds =>
        rw [hscan, hfirst, byte_of_drop_cons hsucc, List.head?_cons]
        by_cases hd : d = MORE
        · rw [if_pos hd, if_pos (congrArg some hd)]
          exact ⟨rfl, drop_succ_of_drop_cons hsucc, lt_of_drop_cons hsucc⟩
        · rw [if_neg hd, if_neg (fun he => hd (Option.some.inj he))]
          exact ⟨rfl, hsucc, hlt⟩
    · have hmem : c ∈ [BAR, LPAR, RPAR, SEMI, AMP, LESS] := by
        simp only [symbols, List.mem_cons, List.not_mem_nil, or_false] at hsym ⊢
        tauto
      have hscan : l.scan s = (c, s + 1) := by
        simp only [scan, hbyte, h0, hmem, if_false, if_true]
      have hfirst : (firstToken c cs).1.code = c ∧ (firstToken c cs).2 = cs := by
        simp only [List.mem_cons, List.not_mem_nil, or_false] at hmem
        rcases hmem with rfl | rfl | rfl | rfl | rfl | rfl
        all_goals simp [firstToken, Tok.code, BAR, LPAR, RPAR, SEMI, AMP, LESS]
      rw [hscan, hfirst.1, hfirst.2]
      exact ⟨rfl, hsucc, hlt⟩
  · have hletter : isLetter c = true := by
      simp only [isLetter, strchr, hsym, decide_false, Bool.not_false, Bool.and_true]
      simpa [isWhite, strchr] using hc
    have hscan : l.scan s = (WORD, l.skip isLetter s) := by
      have hnot : c ∉ [BAR, LPAR, RPAR, SEMI, AMP, LESS] := fun hm => by
        simp only [symbols, List.mem_cons, List.not_mem_nil, or_false, not_or] at hsym hm
        tauto
      have hmore : c ≠ MORE := fun hm => hsym (by rw [hm]; decide)
      simp only [scan, hbyte, h0, hnot, hmore, if_false]
    have hfirst : firstToken c cs =
        (.word ((l.bytes.drop s).takeWhile isLetter), (l.bytes.drop s).dropWhile isLetter) := by
      rw [firstToken_of_not_mem hsym, h, List.takeWhile_cons_of_pos hletter,
        List.dropWhile_cons_of_pos hletter]
    rw [hscan, hfirst]
    refine ⟨rfl, drop_skip isLetter s, skip_le isLetter hlt.le, fun w hw => ?_⟩
    obtain rfl := Tok.word.inj hw
    exact ⟨text_skip s, isWord_skip hlt.le⟩

theorem gettoken_nil (hs : s ≤ l.es) (h : l.toks s = []) :
    (l.gettoken s).tok = 0 ∧ l.toks (l.gettoken s).ps = [] ∧ (l.gettoken s).ps ≤ l.es := by
  rcases toks_cases l s with ⟨hdrop, -⟩ | ⟨c, cs, -, -, htoks⟩
  · have hscan : l.scan (l.skip isWhite s) = (0, l.skip isWhite s) := by
      rw [scan, byte_of_drop_nil hdrop, if_pos rfl]
    dsimp only [gettoken]
    rw [hscan, toks_skip, toks_skip]
    exact ⟨rfl, h, skip_le isWhite (skip_le isWhite hs)⟩
  · rw [h] at htoks
    cases htoks

theorem gettoken_cons {t : Tok (List ℕ)} {ts : List (Tok (List ℕ))} (h : l.toks s = t :: ts) :
    (l.gettoken s).tok = t.code ∧ l.toks (l.gettoken s).ps = ts ∧ (l.gettoken s).ps ≤ l.es ∧
      ∀ w, t = .word w → l.text ((l.gettoken s).q, (l.gettoken s).eq) = w ∧
        l.IsWord ((l.gettoken s).q, (l.gettoken s).eq) := by
  rcases toks_cases l s with ⟨-, htoks⟩ | ⟨c, cs, hdrop, hc, htoks⟩
  · rw [h] at htoks
    cases htoks
  · rw [h] at htoks
    obtain ⟨rfl, rfl⟩ := List.cons.inj htoks
    obtain ⟨hcode, hrest, hle, hword⟩ := scan_of_drop hdrop hc
    refine ⟨hcode, ?_, skip_le isWhite hle, hword⟩
    rw [← hrest]
    exact toks_skip

end CmdLine

end Zrhos.Shell
