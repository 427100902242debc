import Jyyos.Sh.Equiv.Parse

/-!
# The parser accepts the grammar

The other half of `Equiv/Parse.lean`: tokens that are derivable are read.  A parse function stops
where it should because of what can follow the form it reads: a token of `|`, `&`, `;` and `)` for
a command, of the last three for a pipe, and `)` for a line (`Heads`).

`parsecmd_iff` joins the two halves and adds what `nulterminate` does: the terminators fall
between the words, so the pointers of the tree point to the texts of the words.
-/

namespace Jyyos.Sh

variable {s : CStr}

/-- The tokens are at their end or begin with one of a kind. -/
def Heads (P : Tok CStr → Prop) (ts : List (Tok CStr)) : Prop := ∀ tok ∈ ts.head?, P tok

theorem heads_nil {P : Tok CStr → Prop} : Heads P [] := fun tok htok =>
  absurd htok (Option.not_mem_none tok)

/-- A token is one of some symbols. -/
def IsSym (ks : List Sym) (tok : Tok CStr) : Prop := ∃ k ∈ ks, tok = .sym k

theorem Heads.append {P : Tok CStr → Prop} {ts ts' : List (Tok CStr)} (h : Heads P ts)
    (h' : Heads P ts') : Heads P (ts ++ ts') := by
  cases ts with
  | nil => exact h'
  | cons tok ts => exact h

theorem Heads.mono {P Q : Tok CStr → Prop} {ts : List (Tok CStr)} (h : Heads P ts)
    (hPQ : ∀ tok, P tok → Q tok) : Heads Q ts := fun tok htok => hPQ tok (h tok htok)

theorem IsSym.mono {ks ks' : List Sym} (h : ∀ k ∈ ks, k ∈ ks') (tok : Tok CStr)
    (htok : IsSym ks tok) : IsSym ks' tok := by
  obtain ⟨k, hk, rfl⟩ := htok
  exact ⟨k, h k hk, rfl⟩

theorem heads_cons {ks : List Sym} {k : Sym} (hk : k ∈ ks) (ts : List (Tok CStr)) :
    Heads (IsSym ks) (.sym k :: ts) := by
  rintro _ ⟨⟩
  exact ⟨k, hk, rfl⟩

theorem heads_replicate {ks : List Sym} {k : Sym} (hk : k ∈ ks) (n : ℕ) :
    Heads (IsSym ks) (List.replicate n (.sym k)) := by
  cases n with
  | zero => exact heads_nil
  | succ n => exact heads_cons hk _

theorem Redirs.heads {ts : List (Tok CStr)} {rs : List (Redir CStr)} (h : Redirs ts rs) :
    Heads (IsSym [.lt, .gt, .gtgt]) ts := by
  cases h with
  | nil => exact heads_nil
  | cons hk w rest =>
    rintro _ ⟨⟩
    rcases hk with rfl | rfl | rfl
    · exact ⟨_, by simp, rfl⟩
    · exact ⟨_, by simp, rfl⟩
    · exact ⟨_, by simp, rfl⟩

theorem Args.heads {ts : List (Tok CStr)} {ws : List CStr} {rs : List (Redir CStr)}
    (h : Args ts ws rs) : Heads (fun tok => ∃ w, tok = .word w) ts := by
  cases h with
  | nil => exact heads_nil
  | cons w redirs rest =>
    rintro _ ⟨⟩
    exact ⟨w, rfl⟩

/-! ### `peek` on known tokens -/

theorem peek_hit {p : ℕ} {toks : List UInt8} (htoks : ∀ c ∈ toks, c ∈ symbols) {k : Sym}
    {ts : List (Tok CStr)} (h : tokensAt s p = .sym k :: ts) (hk : k.char ∈ toks) :
    ∃ p₁, peek s p toks = (true, p₁) ∧ tokensAt s p₁ = tokensAt s p ∧
      (gettoken s p₁).ret = k.code ∧ tokensAt s (gettoken s p₁).ps = ts := by
  obtain ⟨p₁, hp₁, ⟨k', -, hpeek, hret, htok⟩ | ⟨hno, -⟩⟩ := peek_cases s p htoks
  · obtain ⟨rfl, rfl⟩ : k' = k ∧ tokensAt s (gettoken s p₁).ps = ts := by
      simpa using htok.symm.trans h
    exact ⟨p₁, hpeek, hp₁, hret, rfl⟩
  · exact absurd hk (hno k ts h)

theorem peek_miss {p : ℕ} {toks : List UInt8} (htoks : ∀ c ∈ toks, c ∈ symbols)
    (h : Heads (fun tok => ∀ k, tok = .sym k → k.char ∉ toks) (tokensAt s p)) :
    ∃ p₁, peek s p toks = (false, p₁) ∧ tokensAt s p₁ = tokensAt s p := by
  obtain ⟨p₁, hp₁, ⟨k, hk, -, -, htok⟩ | ⟨-, hpeek⟩⟩ := peek_cases s p htoks
  · rw [htok] at h
    exact absurd hk (h _ rfl k rfl)
  · exact ⟨p₁, hpeek, hp₁⟩

/-- None of the symbols `ks` begins with a character of `toks`. -/
theorem not_mem_of_isSym {ks : List Sym} {toks : List UInt8} (h : ∀ k ∈ ks, k.char ∉ toks)
    (tok : Tok CStr) (htok : IsSym ks tok) : ∀ k, tok = .sym k → k.char ∉ toks := by
  obtain ⟨k, hk, rfl⟩ := htok
  rintro k' ⟨⟩
  exact h k hk

theorem not_mem_of_word {toks : List UInt8} (tok : Tok CStr) (htok : ∃ w, tok = .word w) :
    ∀ k, tok = .sym k → k.char ∉ toks := by
  obtain ⟨w, rfl⟩ := htok
  exact nofun

/-! ### What a call reads -/

/-- The call has read a form with the tree `t` and left the tokens `rest`, unless its fuel was too
small. -/
def Reads (s : CStr) (t : Cmd CStr) (rest : List (Tok CStr)) (r : Parsed (Cmd Span × ℕ)) : Prop :=
  r = .error .outOfFuel ∨ ∃ c p, r = .ok (c, p) ∧ Denotes s c t ∧ tokensAt s p = rest

theorem Reads.ok {c : Cmd Span} {t : Cmd CStr} {p : ℕ} (hd : Denotes s c t) :
    Reads s t (tokensAt s p) (.ok (c, p)) := Or.inr ⟨c, p, rfl, hd, rfl⟩

theorem Reads.bind {t t' : Cmd CStr} {rest rest' : List (Tok CStr)} {r : Parsed (Cmd Span × ℕ)}
    {f : Cmd Span × ℕ → Parsed (Cmd Span × ℕ)} (h : Reads s t rest r)
    (hf : ∀ c p, Denotes s c t → tokensAt s p = rest → Reads s t' rest' (f (c, p))) :
    Reads s t' rest' (r >>= f) := by
  rcases h with rfl | ⟨c, p, rfl, hd, hp⟩
  · exact Or.inl rfl
  · exact hf c p hd hp

theorem parseback_reads {rest : List (Tok CStr)} (hrest : Heads (IsSym [.semi, .rpar]) rest)
    (n : ℕ) : ∀ (fuel : ℕ) {c : Cmd Span} {t : Cmd CStr} {p : ℕ}, Denotes s c t →
    tokensAt s p = List.replicate n (.sym .amp) ++ rest →
      Reads s (backs n t) rest (parseback s fuel c p) := by
  have hsym : ∀ c ∈ cstr ['&'], c ∈ symbols := mem_symbols_of_all rfl
  induction n with
  | zero =>
    intro fuel c t p hd htok
    cases fuel with
    | zero => exact Or.inl rfl
    | succ fuel =>
      have htok : tokensAt s p = rest := htok
      obtain ⟨p₁, hpeek, hp₁⟩ := peek_miss (p := p) hsym
        (htok ▸ hrest.mono (not_mem_of_isSym (by decide)))
      rw [parseback]
      simp only [hpeek, Bool.false_eq_true, ↓reduceIte]
      rw [← htok, ← hp₁]
      exact .ok hd
  | succ n ih =>
    intro fuel c t p hd htok
    cases fuel with
    | zero => exact Or.inl rfl
    | succ fuel =>
      rw [List.replicate_succ, List.cons_append] at htok
      obtain ⟨p₁, hpeek, -, -, hps⟩ := peek_hit hsym htok (by decide)
      rw [parseback]
      simp only [hpeek, ↓reduceIte]
      exact ih fuel hd.back hps

section Words

variable (h0 : 0 ∉ s)

include h0

theorem parseredirs_reads {ts rest : List (Tok CStr)} {rs : List (Redir CStr)} (h : Redirs ts rs)
    (hrest : Heads (fun tok => ∀ k, tok = .sym k → k.char ∉ cstr ['<', '>']) rest) :
    ∀ (fuel : ℕ) {c : Cmd Span} {t : Cmd CStr} {p : ℕ}, Denotes s c t →
      tokensAt s p = ts ++ rest → Reads s (wrap t rs) rest (parseredirs s fuel c p) := by
  have hsym : ∀ c ∈ cstr ['<', '>'], c ∈ symbols := mem_symbols_of_all rfl
  induction h with
  | nil =>
    intro fuel c t p hd htok
    cases fuel with
    | zero => exact Or.inl rfl
    | succ fuel =>
      have htok : tokensAt s p = rest := htok
      obtain ⟨p₁, hpeek, hp₁⟩ := peek_miss (p := p) hsym (htok ▸ hrest)
      rw [parseredirs]
      simp only [hpeek, Bool.false_eq_true, ↓reduceIte]
      rw [← htok, ← hp₁]
      exact .ok hd
  | cons hk w htail ih =>
    rename_i k ts rs
    intro fuel c t p hd htok
    cases fuel with
    | zero => exact Or.inl rfl
    | succ fuel =>
      have hchar : k.char ∈ cstr ['<', '>'] := by
        rcases hk with rfl | rfl | rfl <;> decide
      obtain ⟨p₁, hpeek, -, hret, hps⟩ := peek_hit hsym htok hchar
      obtain ⟨hword, hisWord, rfl, hps'⟩ := gettoken_word h0 hps
      rw [parseredirs]
      simp only [hpeek, hword, hret, ↓reduceIte]
      exact ih fuel (hd.redirFor hk hisWord) hps'

theorem parseargs_reads {ts rest : List (Tok CStr)} {ws' : List CStr} {rs' : List (Redir CStr)}
    (h : Args ts ws' rs') (hrest : Heads (IsSym [.bar, .amp, .semi, .rpar]) rest) :
    ∀ (fuel : ℕ) {c : Cmd Span} {ws : List CStr} {rs : List (Redir CStr)} {p : ℕ},
      Denotes s c (wrap (.exec ws) rs) → (ws ++ ws').length < MAXARGS →
      tokensAt s p = ts ++ rest →
        Reads s (wrap (.exec (ws ++ ws')) (rs ++ rs')) rest (parseargs s fuel c ws.length p) := by
  have hsym : ∀ c ∈ cstr ['|', ')', '&', ';'], c ∈ symbols := mem_symbols_of_all rfl
  induction h with
  | nil =>
    intro fuel c ws rs p hd _ htok
    cases fuel with
    | zero => exact Or.inl rfl
    | succ fuel =>
      have htok : tokensAt s p = rest := htok
      rw [List.append_nil, List.append_nil, parseargs]
      cases hcase : tokensAt s p with
      | nil =>
        obtain ⟨p₁, hpeek, hp₁⟩ := peek_miss (p := p) hsym (by rw [hcase]; exact heads_nil)
        obtain ⟨hret, hps⟩ := gettoken_nil (hp₁.trans hcase)
        simp only [hpeek, hret, Bool.false_eq_true, ↓reduceIte]
        rw [← htok, hcase, ← hps]
        exact .ok hd
      | cons tok ts =>
        obtain ⟨k, hk, rfl⟩ := hrest tok (by rw [← htok, hcase]; rfl)
        have hchar : ∀ k ∈ [Sym.bar, .amp, .semi, .rpar], k.char ∈ cstr ['|', ')', '&', ';'] := by
          decide
        obtain ⟨p₁, hpeek, hp₁, -⟩ := peek_hit hsym hcase (hchar k hk)
        simp only [hpeek, ↓reduceIte]
        rw [← htok, ← hp₁]
        exact .ok hd
  | cons w hredirs hargs ih =>
    rename_i ts ts' ws₁ rs₁ rs₂
    intro fuel c ws rs p hd hfew htok
    cases fuel with
    | zero => exact Or.inl rfl
    | succ fuel =>
      rw [List.cons_append, List.append_assoc] at htok
      obtain ⟨p₁, hpeek, hp₁⟩ := peek_miss (p := p) hsym (by
        rw [htok]
        rintro _ ⟨⟩
        exact not_mem_of_word _ ⟨w, rfl⟩)
      obtain ⟨hret, hisWord, rfl, hps⟩ := gettoken_word h0 (hp₁.trans htok)
      have hpush := hd.pushArg hisWord
      rw [pushArg_wrap, Cmd.pushArg] at hpush
      have hargc : ws.length + 1 < MAXARGS := by
        rw [List.length_append, List.length_cons] at hfew
        omega
      have hafter : Heads (fun tok => ∀ k, tok = .sym k → k.char ∉ cstr ['<', '>']) (ts' ++ rest) :=
        (hargs.heads.mono not_mem_of_word).append (hrest.mono (not_mem_of_isSym (by decide)))
      rw [parseargs]
      have hne : 'a'.toUInt8 ≠ 0 := by decide
      simp only [hpeek, hret, hne, hargc, Bool.false_eq_true, ne_eq, not_true_eq_false, ↓reduceIte]
      refine (parseredirs_reads h0 hredirs hafter fuel hpush hps).bind fun c' p₂ hd' hp₂ => ?_
      have hwrap : wrap (wrap (.exec (ws ++ [text s (gettoken s p₁).span])) rs) rs₁ =
          wrap (.exec (ws ++ [text s (gettoken s p₁).span])) (rs ++ rs₁) := by
        rw [wrap, wrap, wrap, List.foldl_append]
      rw [hwrap] at hd'
      have hreads := ih fuel hd' (by simpa using hfew) hp₂
      simpa using hreads

end Words

/-- The four parse functions with a given fuel, on derivable tokens. -/
structure AllRead (s : CStr) (fuel : ℕ) : Prop where
  line : ∀ {ts rest t p}, Line ts t → Heads (IsSym [.rpar]) rest → tokensAt s p = ts ++ rest →
    Reads s t rest (parseline s fuel p)
  pipe : ∀ {ts rest t p}, Pipe ts t → Heads (IsSym [.amp, .semi, .rpar]) rest →
    tokensAt s p = ts ++ rest → Reads s t rest (parsepipe s fuel p)
  exec : ∀ {ts rest t p}, Exec ts t → Heads (IsSym [.bar, .amp, .semi, .rpar]) rest →
    tokensAt s p = ts ++ rest → Reads s t rest (parseexec s fuel p)
  block : ∀ {ts ts' rest t rs p}, Line ts t → Redirs ts' rs →
    Heads (IsSym [.bar, .amp, .semi, .rpar]) rest →
    tokensAt s p = .sym .lpar :: (ts ++ .sym .rpar :: (ts' ++ rest)) →
    Reads s (wrap t rs) rest (parseblock s fuel p)

section Step

variable {fuel : ℕ} (ih : AllRead s fuel) {p : ℕ} {rest : List (Tok CStr)} {t : Cmd CStr}

include ih

theorem parseline_reads {ts : List (Tok CStr)} (h : Line ts t)
    (hrest : Heads (IsSym [.rpar]) rest) (htok : tokensAt s p = ts ++ rest) :
    Reads s t rest (parseline s (fuel + 1) p) := by
  have hsym : ∀ c ∈ cstr [';'], c ∈ symbols := mem_symbols_of_all rfl
  -- both forms begin with a pipe and its `&`s
  obtain ⟨ts₁, t₁, n, tail, hpipe, htail, htok, hform⟩ : ∃ ts₁ t₁ n tail, Pipe ts₁ t₁ ∧
      Heads (IsSym [.semi, .rpar]) tail ∧
      tokensAt s p = ts₁ ++ (List.replicate n (.sym .amp) ++ tail) ∧
      (tail = rest ∧ t = backs n t₁ ∨ ∃ ts' t', tail = .sym .semi :: (ts' ++ rest) ∧ Line ts' t' ∧
        t = .list (backs n t₁) t') := by
    cases h with
    | last hpipe n =>
      rw [List.append_assoc] at htok
      exact ⟨_, _, n, rest, hpipe, hrest.mono (IsSym.mono (by decide)), htok, Or.inl ⟨rfl, rfl⟩⟩
    | semi hpipe n hline =>
      rw [List.append_assoc, List.append_assoc, List.cons_append] at htok
      exact ⟨_, _, n, _, hpipe, heads_cons (by decide) _, htok, Or.inr ⟨_, _, rfl, hline, rfl⟩⟩
  have hafter : Heads (IsSym [.amp, .semi, .rpar]) (List.replicate n (.sym .amp) ++ tail) :=
    (heads_replicate (by decide) n).append (htail.mono (IsSym.mono (by decide)))
  rw [parseline]
  refine (ih.pipe hpipe hafter htok).bind fun c p₁ hd hp₁ => ?_
  refine (parseback_reads htail n fuel hd hp₁).bind fun c p₂ hd hp₂ => ?_
  rcases hform with ⟨rfl, rfl⟩ | ⟨ts', t', rfl, hline, rfl⟩
  · obtain ⟨p₃, hpeek, hp₃⟩ := peek_miss (p := p₂) hsym
      (hp₂ ▸ hrest.mono (not_mem_of_isSym (by decide)))
    simp only [hpeek, Bool.false_eq_true, ↓reduceIte]
    rw [← hp₂, ← hp₃]
    exact .ok hd
  · obtain ⟨p₃, hpeek, -, -, hps⟩ := peek_hit hsym hp₂ (by decide)
    simp only [hpeek, ↓reduceIte]
    refine (ih.line hline hrest hps).bind fun c' p₄ hd' hp₄ => ?_
    rw [← hp₄]
    exact .ok (hd.list hd')

theorem parsepipe_reads {ts : List (Tok CStr)} (h : Pipe ts t)
    (hrest : Heads (IsSym [.amp, .semi, .rpar]) rest) (htok : tokensAt s p = ts ++ rest) :
    Reads s t rest (parsepipe s (fuel + 1) p) := by
  have hsym : ∀ c ∈ cstr ['|'], c ∈ symbols := mem_symbols_of_all rfl
  rw [parsepipe]
  cases h with
  | last hexec =>
    refine (ih.exec hexec (hrest.mono (IsSym.mono (by decide))) htok).bind fun c p₁ hd hp₁ => ?_
    obtain ⟨p₂, hpeek, hp₂⟩ := peek_miss (p := p₁) hsym
      (hp₁ ▸ hrest.mono (not_mem_of_isSym (by decide)))
    simp only [hpeek, Bool.false_eq_true, ↓reduceIte]
    rw [← hp₁, ← hp₂]
    exact .ok hd
  | bar hexec hpipe =>
    rw [List.append_assoc, List.cons_append] at htok
    refine (ih.exec hexec (heads_cons (by decide) _) htok).bind fun c p₁ hd hp₁ => ?_
    obtain ⟨p₂, hpeek, -, -, hps⟩ := peek_hit hsym hp₁ (by decide)
    simp only [hpeek, ↓reduceIte]
    refine (ih.pipe hpipe hrest hps).bind fun c' p₃ hd' hp₃ => ?_
    rw [← hp₃]
    exact .ok (hd.pipe hd')

theorem parseexec_reads (h0 : 0 ∉ s) {ts : List (Tok CStr)} (h : Exec ts t)
    (hrest : Heads (IsSym [.bar, .amp, .semi, .rpar]) rest) (htok : tokensAt s p = ts ++ rest) :
    Reads s t rest (parseexec s (fuel + 1) p) := by
  have hsym : ∀ c ∈ cstr ['('], c ∈ symbols := mem_symbols_of_all rfl
  rw [parseexec]
  cases h with
  | block hline hredirs =>
    rw [List.cons_append, List.append_assoc, List.cons_append] at htok
    obtain ⟨p₁, hpeek, hp₁, -⟩ := peek_hit hsym htok (by decide)
    simp only [hpeek, ↓reduceIte]
    exact ih.block hline hredirs hrest (hp₁.trans htok)
  | simple hredirs hargs hfew =>
    rename_i ts ts' ws rs rs'
    rw [List.append_assoc] at htok
    -- neither a redirection, a word nor what follows a command is a parenthesis
    have hhead : Heads (fun tok => ∀ k, tok = .sym k → k.char ∉ cstr ['('])
        (ts ++ (ts' ++ rest)) := by
      refine (hredirs.heads.mono (not_mem_of_isSym (by decide))).append ?_
      exact (hargs.heads.mono not_mem_of_word).append (hrest.mono (not_mem_of_isSym (by decide)))
    obtain ⟨p₁, hpeek, hp₁⟩ := peek_miss hsym (htok ▸ hhead)
    have hafter : Heads (fun tok => ∀ k, tok = .sym k → k.char ∉ cstr ['<', '>']) (ts' ++ rest) :=
      (hargs.heads.mono not_mem_of_word).append (hrest.mono (not_mem_of_isSym (by decide)))
    simp only [hpeek, Bool.false_eq_true, ↓reduceIte]
    refine (parseredirs_reads h0 hredirs hafter fuel .exec_nil (hp₁.trans htok)).bind
      fun c p₂ hd hp₂ => ?_
    exact parseargs_reads h0 hargs hrest fuel hd hfew hp₂

theorem parseblock_reads (h0 : 0 ∉ s) {ts ts' : List (Tok CStr)} {rs : List (Redir CStr)}
    (hline : Line ts t) (hredirs : Redirs ts' rs)
    (hrest : Heads (IsSym [.bar, .amp, .semi, .rpar]) rest)
    (htok : tokensAt s p = .sym .lpar :: (ts ++ .sym .rpar :: (ts' ++ rest))) :
    Reads s (wrap t rs) rest (parseblock s (fuel + 1) p) := by
  have hsym : ∀ c ∈ cstr ['('], c ∈ symbols := mem_symbols_of_all rfl
  have hsym' : ∀ c ∈ cstr [')'], c ∈ symbols := mem_symbols_of_all rfl
  obtain ⟨p₁, hpeek, -, -, hps⟩ := peek_hit hsym htok (by decide)
  rw [parseblock]
  simp only [hpeek, ↓reduceIte]
  refine (ih.line hline (heads_cons (by decide) _) hps).bind fun c p₂ hd hp₂ => ?_
  obtain ⟨p₃, hpeek', -, -, hps'⟩ := peek_hit hsym' hp₂ (by decide)
  simp only [hpeek', ↓reduceIte]
  exact parseredirs_reads h0 hredirs (hrest.mono (not_mem_of_isSym (by decide))) fuel hd hps'

end Step

/-- **Derivable tokens are read.** -/
theorem allRead (h0 : 0 ∉ s) (fuel : ℕ) : AllRead s fuel := by
  induction fuel with
  | zero =>
    refine ⟨fun _ _ _ => ?_, fun _ _ _ => ?_, fun _ _ _ => ?_, fun _ _ _ _ => ?_⟩
    · rw [parseline]
      exact Or.inl rfl
    · rw [parsepipe]
      exact Or.inl rfl
    · rw [parseexec]
      exact Or.inl rfl
    · rw [parseblock]
      exact Or.inl rfl
  | succ fuel ih =>
    exact ⟨parseline_reads ih, parsepipe_reads ih, parseexec_reads ih h0, parseblock_reads ih h0⟩

/-! ### The offsets stay in the line -/

theorem skip_le (ok : UInt8 → Bool) {p : ℕ} (hp : p ≤ s.length) : skip s ok p ≤ s.length := by
  have hlen := (List.takeWhile_prefix ok (l := s.drop p)).length_le
  rw [List.length_drop] at hlen
  rw [skip]
  omega

theorem lt_of_charAt {p : ℕ} (h : charAt s p ≠ 0) : p < s.length := by
  by_contra hge
  exact h (charAt_of_drop_nil (List.drop_eq_nil_of_le (not_lt.mp hge)))

theorem gettoken_le {p : ℕ} (hp : p ≤ s.length) : (gettoken s p).ps ≤ s.length := by
  have hq := skip_le isWhitespace hp
  have hgt : '>'.toUInt8 ≠ 0 := by decide
  unfold gettoken
  dsimp only
  split_ifs with hzero hone htwo hthree
  · exact skip_le _ hq
  · exact skip_le _ (lt_of_charAt hzero)
  · rw [htwo] at hzero
    exact skip_le _ (lt_of_charAt (hthree ▸ hgt))
  · exact skip_le _ (lt_of_charAt hzero)
  · exact skip_le _ (skip_le _ hq)

/-- The offset after the call is in the line. -/
def Bounded (s : CStr) (r : Parsed (Cmd Span × ℕ)) : Prop :=
  ∀ c p, r = .ok (c, p) → p ≤ s.length

theorem Bounded.ok {c : Cmd Span} {p : ℕ} (hp : p ≤ s.length) : Bounded s (.ok (c, p)) := by
  intro c' p' h
  obtain ⟨-, rfl⟩ : c = c' ∧ p = p' := by simpa using h
  exact hp

theorem Bounded.error (stop : Stop) : Bounded s (.error stop) := nofun

theorem Bounded.bind {r : Parsed (Cmd Span × ℕ)} {f : Cmd Span × ℕ → Parsed (Cmd Span × ℕ)}
    (h : Bounded s r) (hf : ∀ c p, p ≤ s.length → Bounded s (f (c, p))) : Bounded s (r >>= f) := by
  cases hr : r with
  | error stop => exact .error stop
  | ok cp => exact hf cp.1 cp.2 (h cp.1 cp.2 hr)

theorem parseback_bounded (fuel : ℕ) : ∀ (c : Cmd Span) {p : ℕ}, p ≤ s.length →
    Bounded s (parseback s fuel c p) := by
  induction fuel with
  | zero => exact fun c p _ => .error _
  | succ fuel ih =>
    intro c p hp
    have hps := skip_le isWhitespace hp
    unfold parseback peek
    dsimp only
    split_ifs
    · exact ih _ (gettoken_le hps)
    · exact .ok hps

theorem parseredirs_bounded (fuel : ℕ) : ∀ (c : Cmd Span) {p : ℕ}, p ≤ s.length →
    Bounded s (parseredirs s fuel c p) := by
  induction fuel with
  | zero => exact fun c p _ => .error _
  | succ fuel ih =>
    intro c p hp
    have hps := skip_le isWhitespace hp
    unfold parseredirs peek
    dsimp only
    split_ifs
    · exact ih _ (gettoken_le (gettoken_le hps))
    · exact .error _
    · exact .ok hps

theorem parseargs_bounded (fuel : ℕ) : ∀ (c : Cmd Span) (argc : ℕ) {p : ℕ}, p ≤ s.length →
    Bounded s (parseargs s fuel c argc p) := by
  induction fuel with
  | zero => exact fun c argc p _ => .error _
  | succ fuel ih =>
    intro c argc p hp
    have hps := skip_le isWhitespace hp
    unfold parseargs peek
    dsimp only
    split_ifs
    · exact .ok hps
    · exact .ok (gettoken_le hps)
    · exact .error _
    · refine (parseredirs_bounded fuel _ (gettoken_le hps)).bind fun c' p' hp' => ?_
      exact ih c' (argc + 1) hp'
    · exact .error _

/-- The four parse functions with a given fuel. -/
structure AllBounded (s : CStr) (fuel : ℕ) : Prop where
  line : ∀ {p}, p ≤ s.length → Bounded s (parseline s fuel p)
  pipe : ∀ {p}, p ≤ s.length → Bounded s (parsepipe s fuel p)
  exec : ∀ {p}, p ≤ s.length → Bounded s (parseexec s fuel p)
  block : ∀ {p}, p ≤ s.length → Bounded s (parseblock s fuel p)

theorem allBounded (fuel : ℕ) : AllBounded s fuel := by
  induction fuel with
  | zero =>
    refine ⟨fun _ => ?_, fun _ => ?_, fun _ => ?_, fun _ => ?_⟩
    · rw [parseline]
      exact .error _
    · rw [parsepipe]
      exact .error _
    · rw [parseexec]
      exact .error _
    · rw [parseblock]
      exact .error _
  | succ fuel ih =>
    refine ⟨fun hp => ?_, fun hp => ?_, fun hp => ?_, fun hp => ?_⟩
    · rw [parseline]
      refine (ih.pipe hp).bind fun c p hp => ?_
      refine (parseback_bounded fuel c hp).bind fun c p hp => ?_
      have hps := skip_le isWhitespace hp
      unfold peek
      dsimp only
      split_ifs
      · exact (ih.line (gettoken_le hps)).bind fun c' p' hp' => .ok hp'
      · exact .ok hps
    · rw [parsepipe]
      refine (ih.exec hp).bind fun c p hp => ?_
      have hps := skip_le isWhitespace hp
      unfold peek
      dsimp only
      split_ifs
      · exact (ih.pipe (gettoken_le hps)).bind fun c' p' hp' => .ok hp'
      · exact .ok hps
    · rw [parseexec]
      have hps := skip_le isWhitespace hp
      unfold peek
      dsimp only
      split_ifs
      · exact ih.block hps
      · exact (parseredirs_bounded fuel _ hps).bind fun c p hp => parseargs_bounded fuel c 0 hp
    · rw [parseblock]
      have hps := skip_le isWhitespace hp
      unfold peek
      dsimp only
      split_ifs
      · refine (ih.line (gettoken_le hps)).bind fun c p hp => ?_
        have hps := skip_le isWhitespace hp
        dsimp only
        split_ifs
        · exact parseredirs_bounded fuel c (gettoken_le hps)
        · exact .error _
      · exact .error _

/-! ### The terminators -/

theorem nulterminate_eq (c : Cmd Span) : ∀ mem : List UInt8,
    nulterminate c mem = c.words.foldl (fun mem w => mem.set w.eq 0) mem := by
  induction c with
  | exec argv => exact fun _ => rfl
  | redir c file mode fd ih =>
    intro mem
    rw [nulterminate, Cmd.words, List.foldl_append, ih]
    rfl
  | pipe left right ihl ihr =>
    intro mem
    rw [nulterminate, Cmd.words, List.foldl_append, ihl, ihr]
  | list left right ihl ihr =>
    intro mem
    rw [nulterminate, Cmd.words, List.foldl_append, ihl, ihr]
  | back c ih => exact ih

/-- The stores change the cells at the ends of the words and no others. -/
theorem getElem?_foldl_set (ws : List Span) : ∀ (mem : List UInt8) (i : ℕ), i < mem.length →
    (ws.foldl (fun mem w => mem.set w.eq 0) mem)[i]? =
      if ∃ w ∈ ws, w.eq = i then some 0 else mem[i]? := by
  induction ws with
  | nil => simp
  | cons w ws ih =>
    intro mem i hi
    rw [List.foldl_cons, ih _ i (by simpa using hi), List.getElem?_set]
    by_cases hw : w.eq = i
    · simp [hw, hi]
    · simp [hw]

/-- After `nulterminate` a word is a C string. -/
theorem cstrOf_nulterminate (h0 : 0 ∉ s) {c : Cmd Span} (hc : ∀ w ∈ c.words, IsWord s w) {w : Span}
    (hw : w ∈ c.words) : cstrOf ((nulterminate c (s ++ [0])).drop w.q) = text s w := by
  have hword := hc w hw
  have hget := getElem?_foldl_set c.words (s ++ [0])
  rw [← nulterminate_eq] at hget
  have heq : w.eq ≤ s.length := by
    have hlt := hword.lt
    have hlast := (hword.inside (w.eq - 1) (by omega) (by omega)).1
    omega
  -- the characters of the word are as they were
  have htake : ((nulterminate c (s ++ [0])).drop w.q).take (w.eq - w.q) = text s w := by
    rw [text]
    refine List.ext_getElem? fun i => ?_
    rw [List.getElem?_take, List.getElem?_take, List.getElem?_drop, List.getElem?_drop]
    split_ifs with hi
    · have hin := hword.inside (w.q + i) (by omega) (by omega)
      have hno : ¬ ∃ v ∈ c.words, v.eq = w.q + i := by
        rintro ⟨v, hv, hvi⟩
        exact (hc v hv).stop (hvi ▸ hin)
      rw [hget _ (by rw [List.length_append]; have := hin.1; omega), if_neg hno,
        List.getElem?_append_left hin.1]
    · rfl
  have hend : (nulterminate c (s ++ [0]))[w.eq]? = some 0 := by
    rw [hget _ (by rw [List.length_append, List.length_singleton]; omega), if_pos ⟨w, hw, rfl⟩]
  obtain ⟨rest, hrest⟩ : ∃ rest, (nulterminate c (s ++ [0])).drop w.eq = 0 :: rest := by
    obtain ⟨hlt, hzero⟩ := List.getElem?_eq_some_iff.mp hend
    exact ⟨_, by rw [List.drop_eq_getElem_cons hlt, hzero]⟩
  have hsplit : (nulterminate c (s ++ [0])).drop w.q = text s w ++ 0 :: rest := by
    rw [← htake, ← hrest]
    have hdrop : (nulterminate c (s ++ [0])).drop w.eq =
        ((nulterminate c (s ++ [0])).drop w.q).drop (w.eq - w.q) := by
      rw [List.drop_drop]
      congr 1
      have := hword.lt
      omega
    rw [hdrop, List.take_append_drop]
  have hplain : ∀ a ∈ text s w, (a != 0) = true := by
    intro a ha
    rw [bne_iff_ne]
    rintro rfl
    exact h0 (List.mem_of_mem_drop (List.mem_of_mem_take ha))
  rw [hsplit, cstrOf, List.takeWhile_append_of_pos hplain]
  simp

theorem map_congr_words {V W : Type} {f g : V → W} {c : Cmd V} (h : ∀ w ∈ c.words, f w = g w) :
    c.map f = c.map g := by
  induction c with
  | exec argv =>
    have hargv : argv.map f = argv.map g := List.map_congr_left h
    rw [Cmd.map, Cmd.map, hargv]
  | redir c file mode fd ih =>
    rw [Cmd.map, Cmd.map, ih fun w hw => h w (List.mem_append_left _ hw),
      h file (List.mem_append_right _ (List.mem_singleton_self file))]
  | pipe left right ihl ihr =>
    rw [Cmd.map, Cmd.map, ihl fun w hw => h w (List.mem_append_left _ hw),
      ihr fun w hw => h w (List.mem_append_right _ hw)]
  | list left right ihl ihr =>
    rw [Cmd.map, Cmd.map, ihl fun w hw => h w (List.mem_append_left _ hw),
      ihr fun w hw => h w (List.mem_append_right _ hw)]
  | back c ih => rw [Cmd.map, Cmd.map, ih h]

theorem Denotes.resolve (h0 : 0 ∉ s) {c : Cmd Span} {t : Cmd CStr} (h : Denotes s c t) :
    c.resolve (nulterminate c (s ++ [0])) = t := by
  rw [Cmd.resolve, map_congr_words fun w hw => cstrOf_nulterminate h0 h.isWord hw, h.text]

/-! ### The whole line -/

theorem length_tokenize_le (r : CStr) : (tokenize r).length ≤ r.length := by
  fun_induction tokenize r with
  | case1 => exact le_refl _
  | case2 c cs hc ih => exact Nat.le_succ_of_le ih
  | case3 c cs _ _ ih =>
    rw [List.length_tail] at ih
    simp only [List.length_cons]
    omega
  | case4 c cs _ _ k _ ih =>
    simp only [List.length_cons]
    omega
  | case5 c cs _ _ _ ih =>
    have := (List.dropWhile_suffix isWordChar (l := cs)).length_le
    simp only [List.length_cons]
    omega

/-- Only blanks are left iff no token is left. -/
theorem skip_eq_length_iff {p : ℕ} (hp : p ≤ s.length) :
    skip s isWhitespace p = s.length ↔ tokensAt s p = [] := by
  constructor
  · intro h
    rw [← tokensAt_skip p, h, tokensAt, List.drop_length, tokenize]
  · intro h
    rw [← tokensAt_skip p] at h
    refine le_antisymm (skip_le _ hp) ?_
    cases next_skip s p with
    | nil hrest _ => exact List.drop_eq_nil_iff.mp hrest
    | gtgt cs _ htokens => exact absurd (htokens.symm.trans h) (List.cons_ne_nil _ _)
    | sym k cs _ _ _ htokens => exact absurd (htokens.symm.trans h) (List.cons_ne_nil _ _)
    | word c cs _ _ htokens => exact absurd (htokens.symm.trans h) (List.cons_ne_nil _ _)

/-- After the line has been parsed, what is left decides. -/
theorem parsecmd_of_ok {fuel p : ℕ} {c : Cmd Span} (hr : parseline s fuel 0 = .ok (c, p)) :
    parsecmd fuel s =
      if tokensAt s p = [] then .ok (nulterminate c (s ++ [0]), c) else .error .panic := by
  have hp : p ≤ s.length := (allBounded fuel).line (Nat.zero_le _) c p hr
  rw [parsecmd, hr]
  simp only [← skip_eq_length_iff hp]
  rfl

theorem parsecmd_of_error {fuel : ℕ} {stop : Stop} (hr : parseline s fuel 0 = .error stop) :
    parsecmd fuel s = .error stop := by
  rw [parsecmd, hr]
  rfl

/-- The tree that `parsecmd` returns is that of a derivation of the line. -/
theorem line_of_parsecmd (h0 : 0 ∉ s) {fuel : ℕ} {mem : List UInt8} {c : Cmd Span}
    (h : parsecmd fuel s = .ok (mem, c)) : Line (tokenize s) (c.resolve mem) := by
  rcases hr : parseline s fuel 0 with stop | ⟨c', p⟩
  · rw [parsecmd_of_error hr] at h
    cases h
  · rw [parsecmd_of_ok hr] at h
    split_ifs at h with hend
    obtain ⟨rfl, rfl⟩ : nulterminate c' (s ++ [0]) = mem ∧ c' = c := by simpa using h
    obtain ⟨ts, t, htok, hline, hd⟩ := ((allParse h0 fuel).line 0).sound c' p hr
    have hts : tokenize s = ts := by
      rw [hend, List.append_nil] at htok
      exact htok
    rw [hd.resolve h0, hts]
    exact hline

/-- **The parser of the shell accepts exactly its grammar.**  For a line without NULs `parsecmd`
comes to an end, and it returns a tree iff the tokens of the line are derivable with that tree. -/
theorem parsecmd_iff (s : CStr) (h0 : 0 ∉ s) {fuel : ℕ} (hfuel : 4 * s.length + 4 ≤ fuel) :
    parsecmd fuel s ≠ .error .outOfFuel ∧
      ∀ t, (∃ mem c, parsecmd fuel s = .ok (mem, c) ∧ c.resolve mem = t) ↔
        Line (tokenize s) t := by
  have htotal : parseline s fuel 0 ≠ .error .outOfFuel := by
    have hlen := length_tokenize_le s
    refine ((allParse h0 fuel).line 0).total ?_
    rw [tokensAt, List.drop_zero]
    omega
  refine ⟨?_, fun t => ⟨?_, fun hline => ?_⟩⟩
  · rcases hr : parseline s fuel 0 with stop | ⟨c, p⟩
    · rw [parsecmd_of_error hr]
      intro h
      injection h with h
      exact htotal (h ▸ hr)
    · rw [parsecmd_of_ok hr]
      split_ifs
      · intro h
        cases h
      · intro h
        cases h
  · rintro ⟨mem, c, h, rfl⟩
    exact line_of_parsecmd h0 h
  · have htok : tokensAt s 0 = tokenize s ++ [] := (List.append_nil _).symm
    obtain ⟨c, p, hr, hd, hp⟩ :=
      ((allRead h0 fuel).line hline heads_nil htok).resolve_left htotal
    exact ⟨_, c, by rw [parsecmd_of_ok hr, if_pos hp], hd.resolve h0⟩

/-- The line `a|b`. -/
def pipeLine : CStr := cstr ['a', '|', 'b']

theorem parsecmd_iff_pipeLine : 0 ∉ pipeLine ∧ parsecmd 16 pipeLine ≠ .error .outOfFuel ∧
    Line (tokenize pipeLine) (.pipe (.exec [cstr ['a']]) (.exec [cstr ['b']])) := by
  have h := parsecmd_iff pipeLine (by decide) (le_refl 16)
  refine ⟨by decide, h.1, (h.2 _).mp ⟨[97, 0, 98, 0], ?_⟩⟩
  refine ⟨.pipe (.exec [⟨0, 1⟩]) (.exec [⟨2, 3⟩]), ?_, ?_⟩
  · decide +kernel
  · decide +kernel

end Jyyos.Sh
