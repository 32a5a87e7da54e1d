import Zrhos.Shell.Tokens

/-! The parser comes to an end, and a command that it answers is derived from the tokens it
has read. -/
namespace Zrhos.Shell

/-! ### Ends -/

/-- The parser has come to an end, in `P` or with a message. -/
def Ends (P : Cmd Span → ℕ → Prop) : Parsed → Prop
  | .ok r => P r.1 r.2
  | .error (.panic _) => True
  | .error .fuel => False

theorem Ends.bind {P Q : Cmd Span → ℕ → Prop} {x : Parsed} {f : Cmd Span × ℕ → Parsed}
    (hx : Ends P x) (hf : ∀ c s, P c s → Ends Q (f (c, s))) : Ends Q (x >>= f) := by
  match x, hx with
  | .ok (c, s), hx => exact hf c s hx
  | .error (.panic _), _ => trivial

theorem Ends.mono {P Q : Cmd Span → ℕ → Prop} {x : Parsed} (hx : Ends P x)
    (h : ∀ c s, P c s → Q c s) : Ends Q x := by
  match x, hx with
  | .ok (c, s), hx => exact h c s hx
  | .error (.panic _), _ => trivial

namespace CmdLine

variable {l : CmdLine} {n s : ℕ} {c : Cmd Span}

/-! ### Redirections -/

theorem redirect_code {ω ω' : Type} (c : Cmd ω) (op : RedirOp) (w : ω) :
    c.redirect (Tok.redir op : Tok ω').code w = .redir c w op.mode op.fd := by
  cases op <;> rfl

theorem code_eq_word {ω : Type} {t : Tok ω} : t.code = WORD ↔ ∃ w, t = .word w := by
  cases t with
  | word w => simp [Tok.code]
  | redir op => cases op <;> simp [Tok.code, LESS, MORE, PLUS, WORD]
  | bar | amp | semi | lpar | rpar => simp [Tok.code, BAR, AMP, SEMI, LPAR, RPAR, WORD]

theorem code_ne_zero {ω : Type} (t : Tok ω) : t.code ≠ 0 := by
  cases t with
  | redir op => cases op <;> simp [Tok.code, LESS, MORE, PLUS]
  | word w | bar | amp | semi | lpar | rpar =>
    simp [Tok.code, BAR, AMP, SEMI, LPAR, RPAR, WORD]

theorem char_redir {ω : Type} {t : Tok ω} : t.char ∈ [LESS, MORE] ↔ ∃ op, t = .redir op := by
  cases t with
  | redir op => cases op <;> simp [Tok.char, Tok.code]
  | word w | bar | amp | semi | lpar | rpar =>
    simp [Tok.char, Tok.code, BAR, AMP, SEMI, LPAR, RPAR, WORD, LESS, MORE]

/-- The next token does not begin with a character of `T`. -/
def Stops (T : List ℕ) (ts : List (Tok (List ℕ))) : Prop := ∀ t ∈ ts.head?, t.char ∉ T

theorem peek_stops {T : List ℕ} (hT : T ⊆ symbols) (h : Stops T (l.toks s)) :
    (l.peek s T).1 = false := by
  cases htoks : l.toks s with
  | nil => exact peek_nil htoks
  | cons t ts =>
    rw [peek_cons hT htoks, decide_eq_false]
    exact h t (by rw [htoks]; rfl)

theorem peek_of_char {T : List ℕ} {t : Tok (List ℕ)} {ts : List (Tok (List ℕ))}
    (hT : T ⊆ symbols) (h : l.toks s = t :: ts) (ht : t.char ∈ T) : (l.peek s T).1 = true := by
  rw [peek_cons hT h, decide_eq_true ht]

theorem parseredirs_stops (h : Stops [LESS, MORE] (l.toks s)) :
    l.parseredirs (n + 1) c s = .ok (c, (l.peek s [LESS, MORE]).2) := by
  have hpeek := peek_stops (by decide) h
  simp [parseredirs, hpeek]

theorem parseredirs_word {op : RedirOp} {w : List ℕ} {ts : List (Tok (List ℕ))}
    (h : l.toks s = .redir op :: .word w :: ts) : ∃ q s',
      l.parseredirs (n + 1) c s = l.parseredirs n (.redir c q op.mode op.fd) s' ∧
        s' ≤ l.es ∧ l.toks s' = ts ∧ l.text q = w ∧ l.IsWord q := by
  have hpeek := peek_of_char (T := [LESS, MORE]) (by decide) h (char_redir.mpr ⟨op, rfl⟩)
  obtain ⟨hcode, hrest, -, -⟩ := gettoken_cons ((peek_toks [LESS, MORE]).trans h)
  obtain ⟨hcode', hrest', hle, hword⟩ := gettoken_cons hrest
  obtain ⟨htext, hw⟩ := hword w rfl
  refine ⟨_, _, ?_, hle, hrest', htext, hw⟩
  have htok : (l.gettoken (l.gettoken (l.peek s [LESS, MORE]).2).ps).tok = WORD := hcode'
  simp only [parseredirs, hpeek, if_true, htok, ne_eq, not_true_eq_false, if_false, hcode,
    redirect_code]

theorem parseredirs_missing {op : RedirOp} {ts : List (Tok (List ℕ))}
    (h : l.toks s = .redir op :: ts) (hts : ∀ w us, ts ≠ .word w :: us) :
    l.parseredirs (n + 1) c s = .error (.panic .missingFile) := by
  have hpeek := peek_of_char (T := [LESS, MORE]) (by decide) h (char_redir.mpr ⟨op, rfl⟩)
  obtain ⟨-, hrest, hle, -⟩ := gettoken_cons ((peek_toks [LESS, MORE]).trans h)
  have htok : (l.gettoken (l.gettoken (l.peek s [LESS, MORE]).2).ps).tok ≠ WORD := by
    cases ts with
    | nil =>
      rw [(gettoken_nil hle hrest).1]
      decide
    | cons t us =>
      rw [(gettoken_cons hrest).1]
      intro hc
      obtain ⟨w, rfl⟩ := code_eq_word.mp hc
      exact hts w us rfl
  simp [parseredirs, hpeek, htok]

/-- A command with redirections read between `s` and `s'`. -/
structure ReadsRedirs (l : CmdLine) (s : ℕ) (c c' : Cmd Span) (s' : ℕ) : Prop where
  le : s' ≤ l.es
  words : c'.All l.IsWord
  toks : ∃ rs : List (Redir (List ℕ)), l.toks s = rs.flatMap Redir.toks ++ l.toks s' ∧
    c'.map l.text = wrapAll (c.map l.text) rs

theorem parseredirs_ends (hs : s ≤ l.es) (hn : (l.toks s).length < n) (hc : c.All l.IsWord) :
    Ends (ReadsRedirs l s c) (l.parseredirs n c s) := by
  induction n generalizing s c with
  | zero => exact absurd hn (Nat.not_lt_zero _)
  | succ n ih =>
    by_cases hstop : Stops [LESS, MORE] (l.toks s)
    · rw [parseredirs_stops hstop]
      exact ⟨peek_le [LESS, MORE] hs, hc, [], (peek_toks [LESS, MORE]).symm, rfl⟩
    · simp only [Stops, not_forall, not_not] at hstop
      obtain ⟨t, ht, hchar⟩ := hstop
      obtain ⟨op, rfl⟩ := char_redir.mp hchar
      obtain ⟨ts, htoks⟩ := List.head?_eq_some_iff.mp ht
      by_cases hts : ∃ w us, ts = .word w :: us
      · obtain ⟨w, us, rfl⟩ := hts
        obtain ⟨q, s', hstep, hs', hrest, htext, hq⟩ := parseredirs_word (n := n) (c := c) htoks
        rw [hstep]
        rw [htoks, List.length_cons, List.length_cons, ← hrest] at hn
        have hall : (Cmd.redir c q op.mode op.fd).All l.IsWord := ⟨hc, hq⟩
        apply (ih hs' (by omega) hall).mono
        rintro c' s'' ⟨hle, hwords, rs, hrs, hmap⟩
        refine ⟨hle, hwords, ⟨op, w⟩ :: rs, ?_, ?_⟩
        · rw [htoks, ← hrest, hrs]
          rfl
        · rw [hmap, Cmd.map, htext]
          rfl
      · rw [parseredirs_missing htoks fun w us h => hts ⟨w, us, h⟩]
        trivial

/-! ### Arguments -/

theorem parseargs_nil (argc : ℕ) (hs : s ≤ l.es) (h : l.toks s = []) : ∃ s',
    l.parseargs (n + 1) argc c s = .ok (c, s') ∧ s' ≤ l.es ∧ l.toks s' = [] := by
  have hpeek := peek_nil (T := [BAR, RPAR, AMP, SEMI]) h
  obtain ⟨htok, hrest, hle⟩ := gettoken_nil (peek_le [BAR, RPAR, AMP, SEMI] hs)
    ((peek_toks [BAR, RPAR, AMP, SEMI]).trans h)
  refine ⟨_, ?_, hle, hrest⟩
  simp [parseargs, hpeek, htok]

theorem parseargs_close {argc : ℕ} {t : Tok (List ℕ)} {ts : List (Tok (List ℕ))}
    (h : l.toks s = t :: ts) (ht : t.char ∈ [BAR, RPAR, AMP, SEMI]) :
    l.parseargs (n + 1) argc c s = .ok (c, (l.peek s [BAR, RPAR, AMP, SEMI]).2) := by
  have hpeek := peek_of_char (T := [BAR, RPAR, AMP, SEMI]) (by decide) h ht
  simp [parseargs, hpeek]

theorem parseargs_word (argc : ℕ) {w : List ℕ} {ts : List (Tok (List ℕ))}
    (h : l.toks s = .word w :: ts) : ∃ q s', s' ≤ l.es ∧ l.toks s' = ts ∧ l.text q = w ∧
      l.IsWord q ∧ l.parseargs (n + 1) argc c s =
        if argc + 1 ≥ MAXARGS then .error (.panic .tooManyArgs)
        else l.parseredirs (l.es + 1) (c.addArg q) s' >>= fun r =>
          l.parseargs n (argc + 1) r.1 r.2 := by
  have hnot : WORD ∉ [BAR, RPAR, AMP, SEMI] := by decide
  have hpeek : (l.peek s [BAR, RPAR, AMP, SEMI]).1 = false :=
    (peek_cons (by decide) h).trans (decide_eq_false hnot)
  obtain ⟨hcode, hrest, hle, hword⟩ := gettoken_cons
    ((peek_toks [BAR, RPAR, AMP, SEMI]).trans h)
  obtain ⟨htext, hw⟩ := hword w rfl
  refine ⟨_, _, hle, hrest, htext, hw, ?_⟩
  have htok : (l.gettoken (l.peek s [BAR, RPAR, AMP, SEMI]).2).tok = WORD := hcode
  have hword0 : WORD ≠ 0 := by decide
  simp only [parseargs, hpeek, Bool.false_eq_true, if_false, htok, hword0, ne_eq,
    not_true_eq_false]

theorem parseargs_other {argc : ℕ} {t : Tok (List ℕ)} {ts : List (Tok (List ℕ))}
    (h : l.toks s = t :: ts) (ht : t.char ∉ [BAR, RPAR, AMP, SEMI]) (hword : ∀ w, t ≠ .word w) :
    l.parseargs (n + 1) argc c s = .error (.panic .badSyntax) := by
  have hpeek := peek_cons (T := [BAR, RPAR, AMP, SEMI]) (by decide) h
  rw [decide_eq_false ht] at hpeek
  obtain ⟨hcode, -⟩ := gettoken_cons ((peek_toks [BAR, RPAR, AMP, SEMI]).trans h)
  have hne : (l.gettoken (l.peek s [BAR, RPAR, AMP, SEMI]).2).tok ≠ WORD := by
    rw [hcode]
    intro hc
    obtain ⟨w, rfl⟩ := code_eq_word.mp hc
    exact hword w rfl
  have h0 : (l.gettoken (l.peek s [BAR, RPAR, AMP, SEMI]).2).tok ≠ 0 := by
    rw [hcode]
    exact code_ne_zero t
  simp [parseargs, hpeek, hne, h0]

/-- A command with arguments and redirections read between `s` and `s'`. -/
structure ReadsArgs (l : CmdLine) (argc s : ℕ) (c c' : Cmd Span) (s' : ℕ) : Prop where
  le : s' ≤ l.es
  words : c'.All l.IsWord
  toks : ∃ args : List (Arg (List ℕ)), l.toks s = args.flatMap Arg.toks ++ l.toks s' ∧
    argc + args.length ≤ 9 ∧ ∀ argv rs, c.map l.text = wrapAll (.exec argv) rs →
      c'.map l.text = wrapAll (.exec (argv ++ args.map Arg.word))
        (rs ++ args.flatMap Arg.redirs)

theorem parseargs_ends {argc : ℕ} (hs : s ≤ l.es) (hn : (l.toks s).length < n)
    (hargc : argc ≤ 9) (hc : c.All l.IsWord) :
    Ends (ReadsArgs l argc s c) (l.parseargs n argc c s) := by
  induction n generalizing argc s c with
  | zero => exact absurd hn (Nat.not_lt_zero _)
  | succ n ih =>
    cases htoks : l.toks s with
    | nil =>
      obtain ⟨s', hstep, hs', hrest⟩ := parseargs_nil (n := n) (c := c) argc hs htoks
      rw [hstep]
      exact ⟨hs', hc, [], by rw [htoks, hrest]; rfl, hargc, by simp⟩
    | cons t ts =>
      by_cases hclose : t.char ∈ [BAR, RPAR, AMP, SEMI]
      · rw [parseargs_close htoks hclose]
        exact ⟨peek_le [BAR, RPAR, AMP, SEMI] hs, hc, [], (peek_toks [BAR, RPAR, AMP, SEMI]).symm, hargc, by simp⟩
      · by_cases hword : ∃ w, t = .word w
        · obtain ⟨w, rfl⟩ := hword
          obtain ⟨q, s', hs', hrest, htext, hq, hstep⟩ :=
            parseargs_word (n := n) (c := c) argc htoks
          rw [hstep]
          split_ifs with hmax
          · trivial
          have hmax' : argc + 1 ≤ 9 := Nat.le_of_lt_succ (not_le.mp hmax)
          have hlen := toks_length_le l s'
          apply (parseredirs_ends hs' (by omega) (hc.addArg hq)).bind
          rintro c₁ s₁ ⟨hs₁, hc₁, us, hus, hmap₁⟩
          have hcount := congrArg List.length (hrest.symm.trans hus)
          rw [List.length_append] at hcount
          rw [htoks, List.length_cons] at hn
          apply (ih hs₁ (by omega) hmax' hc₁).mono
          rintro c₂ s₂ ⟨hs₂, hc₂, args, hargs, hnum, hmap₂⟩
          refine ⟨hs₂, hc₂, ⟨w, us⟩ :: args, ?_, ?_, fun argv rs hmap => ?_⟩
          · rw [htoks, ← hrest, hus, hargs]
            simp [Arg.toks]
          · rw [List.length_cons]
            omega
          · rw [Cmd.addArg_map, hmap, htext, wrapAll_addArg, ← wrapAll_append] at hmap₁
            rw [hmap₂ _ _ hmap₁]
            simp
        · rw [parseargs_other htoks hclose fun w h => hword ⟨w, h⟩]
          trivial

/-! ### Commands -/

theorem char_mem_singleton {t u : Tok (List ℕ)} (hu : u.char ∉ [WORD, LESS, MORE]) :
    t.char ∈ [u.char] ↔ t = u := by
  rw [List.mem_singleton]
  constructor
  · intro h
    cases t with
    | word w => exact absurd (h ▸ List.mem_cons_self ..) hu
    | redir op =>
      rw [← h] at hu
      cases op <;> exact absurd hu (by decide)
    | bar | amp | semi | lpar | rpar =>
      cases u with
      | redir op => cases op <;> exact absurd h (by decide)
      | word w => exact absurd (show WORD ∈ [WORD, LESS, MORE] by decide) hu
      | bar | amp | semi | lpar | rpar => first | rfl | exact absurd h (by decide)
  · rintro rfl
    rfl

theorem stops_or {u : Tok (List ℕ)} (hu : u.char ∉ [WORD, LESS, MORE])
    (ts : List (Tok (List ℕ))) : Stops [u.char] ts ∨ ∃ us, ts = u :: us := by
  cases ts with
  | nil => exact Or.inl fun t ht => by cases ht
  | cons t ts =>
    by_cases ht : t.char ∈ [u.char]
    · exact Or.inr ⟨ts, by rw [(char_mem_singleton hu).mp ht]⟩
    · refine Or.inl fun t' ht' => ?_
      cases ht'
      exact ht

/-- A token that `peek` has seen is taken. -/
theorem gettoken_peek (T : List ℕ) {t : Tok (List ℕ)} {ts : List (Tok (List ℕ))}
    (h : l.toks s = t :: ts) :
    l.toks (l.gettoken (l.peek s T).2).ps = ts ∧ (l.gettoken (l.peek s T).2).ps ≤ l.es := by
  obtain ⟨-, hrest, hle, -⟩ := gettoken_cons ((peek_toks T).trans h)
  exact ⟨hrest, hle⟩

theorem parseback_stops (h : Stops [AMP] (l.toks s)) :
    l.parseback (n + 1) c s = .ok (c, (l.peek s [AMP]).2) := by
  have hpeek := peek_stops (by decide) h
  simp [parseback, hpeek]

theorem parseback_amp {ts : List (Tok (List ℕ))} (h : l.toks s = .amp :: ts) :
    l.parseback (n + 1) c s = l.parseback n (.back c) (l.gettoken (l.peek s [AMP]).2).ps := by
  have hpeek := peek_of_char (T := [AMP]) (by decide) h (by decide)
  simp [parseback, hpeek]

/-- A command in the background, read between `s` and `s'`. -/
structure ReadsBack (l : CmdLine) (s : ℕ) (c c' : Cmd Span) (s' : ℕ) : Prop where
  le : s' ≤ l.es
  words : c'.All l.IsWord
  toks : ∃ k, l.toks s = List.replicate k .amp ++ l.toks s' ∧
    c'.map l.text = Cmd.back^[k] (c.map l.text)

theorem parseback_ends (hs : s ≤ l.es) (hn : (l.toks s).length < n) (hc : c.All l.IsWord) :
    Ends (ReadsBack l s c) (l.parseback n c s) := by
  induction n generalizing s c with
  | zero => exact absurd hn (Nat.not_lt_zero _)
  | succ n ih =>
    rcases stops_or (u := .amp) (by decide) (l.toks s) with hstop | ⟨ts, htoks⟩
    · rw [parseback_stops hstop]
      exact ⟨peek_le [AMP] hs, hc, ⟨0, (peek_toks [AMP]).symm, rfl⟩⟩
    · rw [parseback_amp htoks]
      obtain ⟨hrest, hle⟩ := gettoken_peek [AMP] htoks
      rw [htoks, List.length_cons, ← hrest] at hn
      have hall : (Cmd.back c).All l.IsWord := hc
      apply (ih hle (by omega) hall).mono
      rintro c' s' ⟨hs', hc', k, hk, hmap⟩
      refine ⟨hs', hc', k + 1, ?_, hmap⟩
      rw [htoks, ← hrest, hk]
      rfl

/-- A command of kind `A` read between `s` and `s'`. -/
structure Reads (l : CmdLine) (A : Nonterminal) (s : ℕ) (c : Cmd Span) (s' : ℕ) : Prop where
  le : s' ≤ l.es
  words : c.All l.IsWord
  toks : ∃ us, l.toks s = us ++ l.toks s' ∧ Derives A us (c.map l.text)

theorem Reads.length_le {A : Nonterminal} {s' : ℕ} (h : Reads l A s c s') :
    (l.toks s').length ≤ (l.toks s).length := by
  obtain ⟨us, hus, -⟩ := h.toks
  rw [hus, List.length_append]
  exact Nat.le_add_left _ _

/-- Calls that are deep enough for the tokens behind `s`. -/
def Deep (l : CmdLine) (k s n : ℕ) : Prop := 4 * (l.toks s).length + k ≤ n

/-- What the calls for `A`, `n` deep, answer. -/
def Answers (l : CmdLine) (A : Nonterminal) (k n : ℕ) (parse : ℕ → ℕ → Parsed) : Prop :=
  ∀ s, s ≤ l.es → l.Deep k s n → Ends (Reads l A s) (parse n s)

theorem parsepipe_ends (hexec : l.Answers .exec 2 n l.parseexec)
    (hpipe : l.Answers .pipe 3 n l.parsepipe) (hs : s ≤ l.es) (hn : l.Deep 3 s (n + 1)) :
    Ends (Reads l .pipe s) (l.parsepipe (n + 1) s) := by
  unfold parsepipe
  apply (hexec s hs (Nat.le_of_succ_le_succ hn)).bind
  intro c₁ s₁ h₁
  dsimp only
  obtain ⟨us, hus, hd⟩ := h₁.toks
  rcases stops_or (u := .bar) (by decide) (l.toks s₁) with hstop | ⟨ts, htoks⟩
  · have hpeek := peek_stops (T := [BAR]) (by decide) hstop
    rw [hpeek, if_neg Bool.false_ne_true]
    exact ⟨peek_le [BAR] h₁.le, h₁.words, us, by rw [peek_toks, hus], .one hd⟩
  · have hpeek := peek_of_char (T := [BAR]) (by decide) htoks (by decide)
    obtain ⟨hrest, hle⟩ := gettoken_peek [BAR] htoks
    have hlen := h₁.length_le
    rw [htoks, List.length_cons, ← hrest] at hlen
    rw [hpeek, if_pos rfl]
    apply (hpipe _ hle (by unfold Deep at *; omega)).bind
    rintro c₂ s₂ ⟨hs₂, hc₂, us', hus', hd'⟩
    refine ⟨hs₂, ⟨h₁.words, hc₂⟩, us ++ .bar :: us', ?_, .bar hd hd'⟩
    rw [hus, htoks, ← hrest, hus']
    simp

theorem parseline_ends (hpipe : l.Answers .pipe 3 n l.parsepipe)
    (hline : l.Answers .line 4 n l.parseline) (hs : s ≤ l.es) (hn : l.Deep 4 s (n + 1)) :
    Ends (Reads l .line s) (l.parseline (n + 1) s) := by
  unfold parseline
  apply (hpipe s hs (Nat.le_of_succ_le_succ hn)).bind
  intro c₁ s₁ h₁
  dsimp only
  obtain ⟨us, hus, hd⟩ := h₁.toks
  apply (parseback_ends h₁.le (Nat.lt_succ_of_le (toks_length_le l s₁)) h₁.words).bind
  rintro c₂ s₂ ⟨hs₂, hc₂, k, hk, hmap⟩
  dsimp only
  have hlen := h₁.length_le
  rw [hk, List.length_append] at hlen
  rcases stops_or (u := .semi) (by decide) (l.toks s₂) with hstop | ⟨ts, htoks⟩
  · have hpeek := peek_stops (T := [SEMI]) (by decide) hstop
    rw [hpeek, if_neg Bool.false_ne_true]
    refine ⟨peek_le [SEMI] hs₂, hc₂, us ++ List.replicate k .amp, ?_, ?_⟩
    · rw [peek_toks, hus, hk, List.append_assoc]
    · rw [hmap]
      exact .last k hd
  · have hpeek := peek_of_char (T := [SEMI]) (by decide) htoks (by decide)
    obtain ⟨hrest, hle⟩ := gettoken_peek [SEMI] htoks
    rw [htoks, List.length_cons, ← hrest] at hlen
    rw [hpeek, if_pos rfl]
    apply (hline _ hle (by unfold Deep at *; omega)).bind
    rintro c₃ s₃ ⟨hs₃, hc₃, us', hus', hd'⟩
    refine ⟨hs₃, ⟨hc₂, hc₃⟩, us ++ List.replicate k .amp ++ .semi :: us', ?_, ?_⟩
    · rw [hus, hk, htoks, ← hrest, hus']
      simp
    · rw [Cmd.map, hmap]
      exact .seq k hd hd'

theorem parseblock_ends (hline : l.Answers .line 4 n l.parseline)
    {ts : List (Tok (List ℕ))} (htoks : l.toks s = .lpar :: ts) (hn : l.Deep 1 s (n + 1)) :
    Ends (Reads l .exec s) (l.parseblock (n + 1) s) := by
  have hpeek := peek_of_char (T := [LPAR]) (by decide) htoks (by decide)
  obtain ⟨hrest, hle⟩ := gettoken_peek [LPAR] htoks
  unfold Deep at hn
  rw [htoks, List.length_cons, ← hrest] at hn
  unfold parseblock
  dsimp only
  rw [hpeek, if_neg (by decide)]
  apply (hline _ hle (by unfold Deep; omega)).bind
  rintro c₁ s₁ ⟨hs₁, hc₁, us, hus, hd⟩
  dsimp only
  rcases stops_or (u := .rpar) (by decide) (l.toks s₁) with hstop | ⟨ts₁, htoks₁⟩
  · have hpeek₁ := peek_stops (T := [RPAR]) (by decide) hstop
    rw [hpeek₁, if_pos (by decide)]
    trivial
  · have hpeek₁ := peek_of_char (T := [RPAR]) (by decide) htoks₁ (by decide)
    obtain ⟨hrest₁, hle₁⟩ := gettoken_peek [RPAR] htoks₁
    rw [hpeek₁, if_neg (by decide)]
    apply (parseredirs_ends hle₁ (Nat.lt_succ_of_le (toks_length_le l _)) hc₁).mono
    rintro c₂ s₂ ⟨hs₂, hc₂, rs, hrs, hmap⟩
    refine ⟨hs₂, hc₂, .lpar :: us ++ .rpar :: rs.flatMap Redir.toks, ?_, ?_⟩
    · rw [htoks, ← hrest, hus, htoks₁, ← hrest₁, hrs]
      simp
    · rw [hmap]
      exact .block rs hd

theorem parseexec_ends (hline : ∀ m, m + 1 = n → l.Answers .line 4 m l.parseline)
    (hs : s ≤ l.es) (hn : l.Deep 2 s (n + 1)) :
    Ends (Reads l .exec s) (l.parseexec (n + 1) s) := by
  unfold parseexec
  dsimp only
  rcases stops_or (u := .lpar) (by decide) (l.toks s) with hstop | ⟨ts, htoks⟩
  · have hpeek := peek_stops (T := [LPAR]) (by decide) hstop
    rw [hpeek, if_neg Bool.false_ne_true]
    have hempty : (Cmd.exec []).All l.IsWord := fun w hw => by cases hw
    apply (parseredirs_ends (peek_le [LPAR] hs) (Nat.lt_succ_of_le (toks_length_le l _))
      hempty).bind
    rintro c₁ s₁ ⟨hs₁, hc₁, rs, hrs, hmap₁⟩
    apply (parseargs_ends hs₁ (Nat.lt_succ_of_le (toks_length_le l _)) (Nat.zero_le 9) hc₁).mono
    rintro c₂ s₂ ⟨hs₂, hc₂, args, hargs, hnum, hmap₂⟩
    refine ⟨hs₂, hc₂, rs.flatMap Redir.toks ++ args.flatMap Arg.toks, ?_, ?_⟩
    · rw [← peek_toks [LPAR], hrs, hargs, List.append_assoc]
    · rw [hmap₂ [] rs hmap₁, List.nil_append]
      exact .words rs args (by omega)
  · have hpeek := peek_of_char (T := [LPAR]) (by decide) htoks (by decide)
    rw [hpeek, if_pos rfl]
    have htoks' : l.toks (l.peek s [LPAR]).2 = .lpar :: ts := (peek_toks [LPAR]).trans htoks
    obtain ⟨m, rfl⟩ : ∃ m, n = m + 1 := by
      unfold Deep at hn
      rw [htoks, List.length_cons] at hn
      exact ⟨n - 1, by omega⟩
    have hdeep : l.Deep 1 (l.peek s [LPAR]).2 (m + 1) := by
      unfold Deep at hn ⊢
      rw [peek_toks]
      omega
    apply (parseblock_ends (hline m rfl) htoks' hdeep).mono
    rintro c₁ s₁ ⟨hs₁, hc₁, us, hus, hd⟩
    exact ⟨hs₁, hc₁, us, by rw [← peek_toks [LPAR], hus], hd⟩

/-- Deep enough calls come to an end. -/
theorem parse_ends (n : ℕ) : l.Answers .line 4 n l.parseline ∧
    l.Answers .pipe 3 n l.parsepipe ∧ l.Answers .exec 2 n l.parseexec := by
  induction n using Nat.strong_induction_on with
  | _ n ih =>
    cases n with
    | zero =>
      refine ⟨fun s _ hn => ?_, fun s _ hn => ?_, fun s _ hn => ?_⟩
      all_goals
        unfold Deep at hn
        omega
    | succ n =>
      obtain ⟨hline, hpipe, hexec⟩ := ih n (Nat.lt_succ_self n)
      refine ⟨fun s hs hn => parseline_ends hpipe hline hs hn,
        fun s hs hn => parsepipe_ends hexec hpipe hs hn, fun s hs hn => ?_⟩
      apply parseexec_ends _ hs hn
      rintro m rfl
      exact (ih m (by omega)).1

end CmdLine

end Zrhos.Shell
