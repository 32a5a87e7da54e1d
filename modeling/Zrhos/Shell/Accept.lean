import Zrhos.Shell.Parse

/-! Every command that the tokens derive is answered by the parser. -/
namespace Zrhos.Shell

/-- The characters that a token behind a command of this kind begins with. -/
def Nonterminal.follow : Nonterminal → List ℕ
  | line => [RPAR]
  | pipe => [AMP, SEMI, RPAR]
  | exec => [BAR, AMP, SEMI, RPAR]

/-- The line ends or goes on as it may behind a command of this kind. -/
def Follow (A : Nonterminal) (ts : List (Tok (List ℕ))) : Prop :=
  ∀ t ∈ ts.head?, t.char ∈ A.follow

namespace CmdLine

variable {l : CmdLine} {n s : ℕ} {c : Cmd Span} {rest us : List (Tok (List ℕ))}
  {d : Cmd (List ℕ)}

theorem Follow.stops {A : Nonterminal} {T : List ℕ} (h : Follow A rest)
    (hT : ∀ x ∈ A.follow, x ∉ T) : Stops T rest := fun t ht => hT _ (h t ht)

/-- The parser has read up to `rest` and answers command `d`. -/
def Accepts (l : CmdLine) (x : Parsed) (rest : List (Tok (List ℕ))) (d : Cmd (List ℕ)) : Prop :=
  ∃ c s, x = .ok (c, s) ∧ s ≤ l.es ∧ l.toks s = rest ∧ c.map l.text = d

/-! ### Loops -/

theorem parseredirs_accepts (rs : List (Redir (List ℕ))) (hs : s ≤ l.es)
    (htoks : l.toks s = rs.flatMap Redir.toks ++ rest) (hstop : Stops [LESS, MORE] rest)
    (hn : (l.toks s).length < n) :
    Accepts l (l.parseredirs n c s) rest (wrapAll (c.map l.text) rs) := by
  induction rs generalizing n c s with
  | nil =>
    obtain ⟨n, rfl⟩ : ∃ m, n = m + 1 := ⟨n - 1, by omega⟩
    rw [List.flatMap_nil, List.nil_append] at htoks
    refine ⟨c, _, parseredirs_stops (htoks ▸ hstop), peek_le _ hs, ?_, rfl⟩
    rw [peek_toks, htoks]
  | cons r rs ih =>
    obtain ⟨n, rfl⟩ : ∃ m, n = m + 1 := ⟨n - 1, by omega⟩
    have htoks' : l.toks s =
        .redir r.op :: .word r.file :: (rs.flatMap Redir.toks ++ rest) := htoks
    obtain ⟨q, s', hstep, hs', hrest, htext, -⟩ := parseredirs_word (n := n) (c := c) htoks'
    rw [htoks', ← hrest, List.length_cons, List.length_cons] at hn
    have hrec := ih (n := n) (c := .redir c q r.op.mode r.op.fd) hs' hrest (by omega)
    rw [Cmd.map, htext] at hrec
    rw [hstep]
    exact hrec

theorem parseback_accepts (k : ℕ) (hs : s ≤ l.es)
    (htoks : l.toks s = List.replicate k .amp ++ rest) (hstop : Stops [AMP] rest)
    (hn : (l.toks s).length < n) :
    Accepts l (l.parseback n c s) rest (Cmd.back^[k] (c.map l.text)) := by
  induction k generalizing n c s with
  | zero =>
    obtain ⟨n, rfl⟩ : ∃ m, n = m + 1 := ⟨n - 1, by omega⟩
    refine ⟨c, _, parseback_stops (htoks ▸ hstop), peek_le _ hs, ?_, rfl⟩
    rw [peek_toks, htoks]
    rfl
  | succ k ih =>
    obtain ⟨n, rfl⟩ : ∃ m, n = m + 1 := ⟨n - 1, by omega⟩
    have htoks' : l.toks s = .amp :: (List.replicate k .amp ++ rest) := htoks
    obtain ⟨hrest, hle⟩ := gettoken_peek [AMP] htoks'
    rw [htoks', ← hrest, List.length_cons] at hn
    rw [parseback_amp htoks']
    exact ih (n := n) (c := .back c) hle hrest (by omega)

theorem stops_flatMap_arg {T : List ℕ} (args : List (Arg (List ℕ))) (hT : WORD ∉ T)
    (hstop : Stops T rest) : Stops T (args.flatMap Arg.toks ++ rest) := by
  cases args with
  | nil => exact hstop
  | cons a args =>
    intro t ht
    cases ht
    exact hT

theorem parseargs_accepts (args : List (Arg (List ℕ))) {argc : ℕ} {argv : List (List ℕ)}
    {rs : List (Redir (List ℕ))} (hs : s ≤ l.es)
    (htoks : l.toks s = args.flatMap Arg.toks ++ rest) (hrest : Follow .exec rest)
    (hnum : argc + args.length ≤ 9) (hn : (l.toks s).length < n)
    (hmap : c.map l.text = wrapAll (.exec argv) rs) :
    Accepts l (l.parseargs n argc c s) rest
      (wrapAll (.exec (argv ++ args.map Arg.word)) (rs ++ args.flatMap Arg.redirs)) := by
  induction args generalizing n argc c s argv rs with
  | nil =>
    obtain ⟨n, rfl⟩ : ∃ m, n = m + 1 := ⟨n - 1, by omega⟩
    rw [List.flatMap_nil, List.nil_append] at htoks
    rw [List.map_nil, List.append_nil, List.flatMap_nil, List.append_nil, ← hmap]
    cases rest with
    | nil =>
      obtain ⟨s', hstep, hs', hrest'⟩ := parseargs_nil (n := n) (c := c) argc hs htoks
      exact ⟨c, s', hstep, hs', hrest', rfl⟩
    | cons t ts =>
      have ht := hrest t rfl
      have hclose : t.char ∈ [BAR, RPAR, AMP, SEMI] := by
        simp only [Nonterminal.follow, List.mem_cons, List.not_mem_nil, or_false] at ht ⊢
        tauto
      refine ⟨c, _, parseargs_close htoks hclose, peek_le _ hs, ?_, rfl⟩
      rw [peek_toks, htoks]
  | cons a args ih =>
    obtain ⟨n, rfl⟩ : ∃ m, n = m + 1 := ⟨n - 1, by omega⟩
    have htoks' : l.toks s =
        .word a.word :: (a.redirs.flatMap Redir.toks ++ (args.flatMap Arg.toks ++ rest)) := by
      rw [htoks]
      simp [Arg.toks]
    obtain ⟨q, s', hs', hts, htext, -, hstep⟩ :=
      parseargs_word (n := n) (c := c) argc htoks'
    rw [List.length_cons] at hnum
    have hmax : ¬ argc + 1 ≥ MAXARGS := by
      rw [show MAXARGS = 10 from rfl]
      omega
    have hstop : Stops [LESS, MORE] (args.flatMap Arg.toks ++ rest) :=
      stops_flatMap_arg args (by decide) (Follow.stops hrest (by decide))
    obtain ⟨c₁, s₁, hparse, hs₁, hts₁, hmap₁⟩ := parseredirs_accepts (c := c.addArg q) a.redirs
      hs' hts hstop (Nat.lt_succ_of_le (toks_length_le l s'))
    rw [hstep, if_neg hmax, hparse]
    rw [Cmd.addArg_map, hmap, htext, wrapAll_addArg, ← wrapAll_append] at hmap₁
    rw [htoks', List.length_cons, List.length_append, ← hts₁] at hn
    have hrec := ih (n := n) hs₁ hts₁ (by omega : argc + 1 + args.length ≤ 9) (by omega) hmap₁
    change Accepts l (l.parseargs n (argc + 1) c₁ s₁) rest _
    simpa using hrec

/-! ### Derivations -/

/-- The calls for a command of kind `A`. -/
def parse (l : CmdLine) : Nonterminal → ℕ → ℕ → Parsed
  | .line => l.parseline
  | .pipe => l.parsepipe
  | .exec => l.parseexec

def depth : Nonterminal → ℕ
  | .line => 4
  | .pipe => 3
  | .exec => 2

/-- What the parser answers to the tokens `us` of a command of kind `A`. -/
def Complete (l : CmdLine) (A : Nonterminal) (us : List (Tok (List ℕ))) (d : Cmd (List ℕ)) :
    Prop :=
  ∀ n s rest, s ≤ l.es → l.toks s = us ++ rest → Follow A rest → l.Deep (depth A) s n →
    Accepts l (l.parse A n s) rest d

theorem deep_succ {k : ℕ} (h : l.Deep (k + 1) s n) : ∃ m, n = m + 1 ∧ l.Deep k s m := by
  unfold Deep at *
  exact ⟨n - 1, by omega, by omega⟩

theorem complete_one (h : Complete l .exec us d) : Complete l .pipe us d := by
  intro n s rest hs htoks hrest hn
  obtain ⟨m, rfl, hm⟩ := deep_succ hn
  have hfollow : Follow .exec rest := fun t ht => List.mem_cons_of_mem BAR (hrest t ht)
  obtain ⟨c, s₁, hparse, hs₁, hts₁, hmap⟩ := h m s rest hs htoks hfollow hm
  have hpeek : (l.peek s₁ [BAR]).1 = false :=
    peek_stops (by decide) (hts₁ ▸ Follow.stops hrest (by decide))
  refine ⟨c, (l.peek s₁ [BAR]).2, ?_, peek_le [BAR] hs₁, (peek_toks [BAR]).trans hts₁, hmap⟩
  change l.parsepipe (m + 1) s = _
  change l.parseexec m s = _ at hparse
  rw [parsepipe, hparse]
  simp [bind, Except.bind, pure, Except.pure, hpeek]

variable {us' : List (Tok (List ℕ))} {d' : Cmd (List ℕ)}

/-- Fewer tokens are left behind one that is taken. -/
theorem deep_next {k k' m s₁ : ℕ} {t : Tok (List ℕ)} {ts : List (Tok (List ℕ))}
    (hdeep : l.Deep k s m) (htoks : l.toks s = us ++ t :: ts) (hrest : l.toks s₁ = ts) (hk : k' ≤ k + 4) : l.Deep k' s₁ m := by
  unfold Deep at *
  rw [htoks, List.length_append, List.length_cons, ← hrest] at hdeep
  omega

theorem complete_bar (h : Complete l .exec us d) (h' : Complete l .pipe us' d') :
    Complete l .pipe (us ++ .bar :: us') (.pipe d d') := by
  intro n s rest hs htoks hrest hn
  obtain ⟨m, rfl, hm⟩ := deep_succ hn
  rw [List.append_assoc, List.cons_append] at htoks
  have hfollow : Follow .exec (.bar :: (us' ++ rest)) := fun t ht => by
    cases ht
    exact List.mem_cons_self ..
  obtain ⟨c, s₁, hparse, hs₁, hts₁, hmap⟩ := h m s _ hs htoks hfollow hm
  have hpeek := peek_of_char (T := [BAR]) (by decide) hts₁ (by decide)
  obtain ⟨hts₂, hs₂⟩ := gettoken_peek [BAR] hts₁
  obtain ⟨c', s₃, hparse', hs₃, hts₃, hmap'⟩ :=
    h' m _ rest hs₂ hts₂ hrest (deep_next hm htoks hts₂ (by decide))
  refine ⟨.pipe c c', s₃, ?_, hs₃, hts₃, by rw [Cmd.map, hmap, hmap']⟩
  change l.parsepipe (m + 1) s = _
  change l.parseexec m s = _ at hparse
  change l.parsepipe m _ = _ at hparse'
  rw [parsepipe, hparse]
  simp [bind, Except.bind, pure, Except.pure, hpeek, hparse']

theorem parseline_eq (m s : ℕ) : l.parseline (m + 1) s =
    (l.parsepipe m s >>= fun r => l.parseback (l.es + 1) r.1 r.2) >>= fun r =>
      if (l.peek r.2 [SEMI]).1 then
        l.parseline m (l.gettoken (l.peek r.2 [SEMI]).2).ps >>= fun right =>
          pure (.list r.1 right.1, right.2)
      else pure (r.1, (l.peek r.2 [SEMI]).2) := by
  rw [parseline, bind_assoc]

/-- A command in the background up to `rest`. -/
theorem parseline_back {k m : ℕ} (h : Complete l .pipe us d) (hs : s ≤ l.es)
    (htoks : l.toks s = us ++ (List.replicate k .amp ++ rest)) (hrest : ∀ t ∈ rest.head?, t.char ∈ [SEMI, RPAR])
    (hn : l.Deep 3 s m) :
    Accepts l (l.parsepipe m s >>= fun r => l.parseback (l.es + 1) r.1 r.2) rest
      (Cmd.back^[k] d) := by
  have hfollow : Follow .pipe (List.replicate k .amp ++ rest) := by
    cases k with
    | zero => exact fun t ht => List.mem_cons_of_mem AMP (hrest t ht)
    | succ k =>
      intro t ht
      cases ht
      exact List.mem_cons_self ..
  obtain ⟨c, s₁, hparse, hs₁, hts₁, hmap⟩ := h m s _ hs htoks hfollow hn
  have hstop : Stops [AMP] rest := fun t ht hc => by
    have hmem := hrest t ht
    rw [List.mem_singleton.mp hc] at hmem
    exact absurd hmem (by decide)
  change l.parsepipe m s = _ at hparse
  rw [hparse, ← hmap]
  exact parseback_accepts k hs₁ hts₁ hstop (Nat.lt_succ_of_le (toks_length_le l s₁))

theorem complete_last (k : ℕ) (h : Complete l .pipe us d) :
    Complete l .line (us ++ List.replicate k .amp) (Cmd.back^[k] d) := by
  intro n s rest hs htoks hrest hn
  obtain ⟨m, rfl, hm⟩ := deep_succ hn
  rw [List.append_assoc] at htoks
  obtain ⟨c, s₁, hparse, hs₁, hts₁, hmap⟩ := parseline_back h hs htoks
    (fun t ht => List.mem_cons_of_mem SEMI (hrest t ht)) hm
  have hpeek : (l.peek s₁ [SEMI]).1 = false :=
    peek_stops (by decide) (hts₁ ▸ Follow.stops hrest (by decide))
  refine ⟨c, (l.peek s₁ [SEMI]).2, ?_, peek_le [SEMI] hs₁, (peek_toks [SEMI]).trans hts₁, hmap⟩
  change l.parseline (m + 1) s = _
  rw [parseline_eq, hparse]
  simp [bind, Except.bind, pure, Except.pure, hpeek]

theorem complete_seq (k : ℕ) (h : Complete l .pipe us d) (h' : Complete l .line us' d') :
    Complete l .line (us ++ List.replicate k .amp ++ .semi :: us')
      (.list (Cmd.back^[k] d) d') := by
  intro n s rest hs htoks hrest hn
  obtain ⟨m, rfl, hm⟩ := deep_succ hn
  have htoks' : l.toks s = us ++ (List.replicate k .amp ++ (.semi :: (us' ++ rest))) := by
    rw [htoks]
    simp
  have hsemi : ∀ t ∈ (Tok.semi :: (us' ++ rest)).head?, t.char ∈ [SEMI, RPAR] := fun t ht => by
    cases ht
    exact List.mem_cons_self ..
  obtain ⟨c, s₁, hparse, hs₁, hts₁, hmap⟩ := parseline_back h hs htoks' hsemi hm
  have hpeek := peek_of_char (T := [SEMI]) (by decide) hts₁ (by decide)
  obtain ⟨hts₂, hs₂⟩ := gettoken_peek [SEMI] hts₁
  have hm₂ : l.Deep 4 (l.gettoken (l.peek s₁ [SEMI]).2).ps m := by
    rw [← List.append_assoc] at htoks'
    exact deep_next hm htoks' hts₂ (by decide)
  obtain ⟨c', s₃, hparse', hs₃, hts₃, hmap'⟩ := h' m _ rest hs₂ hts₂ hrest hm₂
  refine ⟨.list c c', s₃, ?_, hs₃, hts₃, by rw [Cmd.map, hmap, hmap']⟩
  change l.parseline (m + 1) s = _
  change l.parseline m _ = _ at hparse'
  rw [parseline_eq, hparse]
  simp [bind, Except.bind, pure, Except.pure, hpeek, hparse']

theorem complete_block (rs : List (Redir (List ℕ))) (h : Complete l .line us d) :
    Complete l .exec (.lpar :: us ++ .rpar :: rs.flatMap Redir.toks) (wrapAll d rs) := by
  intro n s rest hs htoks hrest hn
  obtain ⟨m, rfl, hm⟩ := deep_succ hn
  have htoks' : l.toks s = .lpar :: (us ++ .rpar :: (rs.flatMap Redir.toks ++ rest)) := by
    rw [htoks]
    simp
  obtain ⟨m, rfl⟩ : ∃ m', m = m' + 1 := ⟨m - 1, by unfold Deep at hm; omega⟩
  have htoks₁ : l.toks (l.peek s [LPAR]).2 = _ := (peek_toks [LPAR]).trans htoks'
  have hpeek := peek_of_char (T := [LPAR]) (by decide) htoks' (by decide)
  have hpeek₁ := peek_of_char (T := [LPAR]) (by decide) htoks₁ (by decide)
  obtain ⟨hts₂, hs₂⟩ := gettoken_peek [LPAR] htoks₁
  have hrpar : Follow .line (.rpar :: (rs.flatMap Redir.toks ++ rest)) := fun t ht => by
    cases ht
    exact List.mem_cons_self ..
  have hm₂ : l.Deep 4 (l.gettoken (l.peek (l.peek s [LPAR]).2 [LPAR]).2).ps m := by
    unfold Deep at hm ⊢
    rw [htoks', List.length_cons, ← hts₂] at hm
    omega
  obtain ⟨c, s₃, hparse, hs₃, hts₃, hmap⟩ := h m _ _ hs₂ hts₂ hrpar hm₂
  have hpeek₃ := peek_of_char (T := [RPAR]) (by decide) hts₃ (by decide)
  obtain ⟨hts₄, hs₄⟩ := gettoken_peek [RPAR] hts₃
  obtain ⟨c', s₅, hparse', hs₅, hts₅, hmap'⟩ := parseredirs_accepts (c := c) rs hs₄ hts₄
    (Follow.stops hrest (by decide)) (Nat.lt_succ_of_le (toks_length_le l _))
  refine ⟨c', s₅, ?_, hs₅, hts₅, by rw [hmap', hmap]⟩
  change l.parseexec (m + 1 + 1) s = _
  change l.parseline m _ = _ at hparse
  rw [parseexec, hpeek, if_pos rfl, parseblock]
  simp [bind, Except.bind, hpeek₁, hparse, hpeek₃, hparse']

theorem complete_words (rs : List (Redir (List ℕ))) (args : List (Arg (List ℕ)))
    (hnum : args.length ≤ 9) :
    Complete l .exec (rs.flatMap Redir.toks ++ args.flatMap Arg.toks)
      (wrapAll (.exec (args.map Arg.word)) (rs ++ args.flatMap Arg.redirs)) := by
  intro n s rest hs htoks hrest hn
  obtain ⟨m, rfl, hm⟩ := deep_succ hn
  rw [List.append_assoc] at htoks
  have hstop : Stops [LESS, MORE] (args.flatMap Arg.toks ++ rest) :=
    stops_flatMap_arg args (by decide) (Follow.stops hrest (by decide))
  have hlpar : Stops [LPAR] (l.toks s) := by
    rw [htoks]
    cases rs with
    | nil => exact stops_flatMap_arg args (by decide) (Follow.stops hrest (by decide))
    | cons r rs =>
      intro t ht
      cases ht
      cases r.op <;> decide
  have hpeek := peek_stops (T := [LPAR]) (by decide) hlpar
  obtain ⟨c, s₁, hparse, hs₁, hts₁, hmap⟩ := parseredirs_accepts (c := .exec []) rs
    (peek_le [LPAR] hs) ((peek_toks [LPAR]).trans htoks) hstop
    (Nat.lt_succ_of_le (toks_length_le l _))
  have hnum' : 0 + args.length ≤ 9 := by omega
  obtain ⟨c', s₂, hparse', hs₂, hts₂, hmap'⟩ := parseargs_accepts args hs₁ hts₁ hrest hnum'
    (Nat.lt_succ_of_le (toks_length_le l _)) hmap
  refine ⟨c', s₂, ?_, hs₂, hts₂, hmap'⟩
  change l.parseexec (m + 1) s = _
  rw [parseexec]
  simp [bind, Except.bind, hpeek, hparse, hparse']

theorem derives_complete {A : Nonterminal} (h : Derives A us d) : Complete l A us d := by
  induction h with
  | last k _ ih => exact complete_last k ih
  | seq k _ _ ih ih' => exact complete_seq k ih ih'
  | one _ ih => exact complete_one ih
  | bar _ _ ih ih' => exact complete_bar ih ih'
  | block rs _ ih => exact complete_block rs ih
  | words rs args hnum => exact complete_words rs args hnum

end CmdLine

end Zrhos.Shell
