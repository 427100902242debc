import Jyyos.Sh.Equiv.Accept

/-!
# The words of a tree are those of the line

The tokens of a line with the places of their words (`spanTokens`), and what the parse functions do
with them: the tree that they return, with its pointers, is the tree of a derivation of these tokens
(`allReadAs`).  So every pointer belongs to the word at its place, and as `nulterminate` ends each
word where its token ends, reading the pointer as a string gives the text of that word
(`parsecmd_words`).
-/

namespace Jyyos.Sh

/-! ### Tokens with their places -/

/-- The tokens of a text that stands at the offset `p`, the words by their places. -/
def spanTokens (p : ℕ) : List UInt8 → List (Tok Span)
  | [] => []
  | c :: cs =>
    if isWhitespace c then spanTokens (p + 1) cs
    else if c = '>'.toUInt8 ∧ cs.head? = some '>'.toUInt8 then
      .sym .gtgt :: spanTokens (p + 2) cs.tail
    else
      match Sym.ofChar c with
      | some k => .sym k :: spanTokens (p + 1) cs
      | none =>
        .word ⟨p, p + 1 + (cs.takeWhile isWordChar).length⟩ ::
          spanTokens (p + 1 + (cs.takeWhile isWordChar).length) (cs.dropWhile isWordChar)
termination_by text => text.length
decreasing_by
  · simp
  · simp only [List.length_tail, List.length_cons]
    omega
  · simp
  · have := (List.dropWhile_suffix isWordChar (l := cs)).length_le
    simp only [List.length_cons]
    omega

variable {s : CStr}

/-- The tokens from an offset on. -/
def spansAt (s : CStr) (p : ℕ) : List (Tok Span) := spanTokens p (s.drop p)

theorem spanTokens_dropWhile (r : CStr) : ∀ p,
    spanTokens (p + (r.takeWhile isWhitespace).length) (r.dropWhile isWhitespace) =
      spanTokens p r := by
  induction r with
  | nil => exact fun _ => rfl
  | cons c r ih =>
    intro p
    rw [List.takeWhile_cons, List.dropWhile_cons]
    by_cases hc : isWhitespace c = true
    · have hlen : p + (c :: r.takeWhile isWhitespace).length =
          p + 1 + (r.takeWhile isWhitespace).length := by
        rw [List.length_cons]
        omega
      rw [if_pos hc, if_pos hc, hlen, ih (p + 1), spanTokens, if_pos hc]
    · rw [if_neg hc, if_neg hc]
      rfl

/-- Blanks before a token do not count. -/
theorem spansAt_skip (p : ℕ) : spansAt s (skip s isWhitespace p) = spansAt s p := by
  rw [spansAt, drop_skip, skip, spanTokens_dropWhile, spansAt]

theorem isWhitespace_of_isWordChar {c : UInt8} (hc : isWordChar c = true) :
    isWhitespace c = false := by
  rw [isWordChar, Bool.and_eq_true, Bool.not_eq_true'] at hc
  exact hc.1

theorem char_mem_symbols (k : Sym) : k.char ∈ symbols := by
  cases k <;> decide

theorem ofChar_of_isWordChar {c : UInt8} (hc : isWordChar c = true) : Sym.ofChar c = none := by
  cases hk : Sym.ofChar c with
  | none => rfl
  | some k =>
    obtain ⟨rfl, -⟩ := Sym.ofChar_char hk
    exact absurd (char_mem_symbols k) (not_mem_symbols_of_isWordChar hc)

/-- The token at an offset where no blank stands. -/
theorem spansAt_word {q : ℕ} {c : UInt8} {cs : CStr} (hrest : s.drop q = c :: cs)
    (hc : isWordChar c = true) :
    spansAt s q = .word ⟨q, skip s isWordChar q⟩ :: spansAt s (skip s isWordChar q) := by
  have hgt : ¬ (c = '>'.toUInt8 ∧ cs.head? = some '>'.toUInt8) := by
    rintro ⟨rfl, -⟩
    exact not_mem_symbols_of_isWordChar hc (by decide)
  have hskip : skip s isWordChar q = q + 1 + (cs.takeWhile isWordChar).length := by
    rw [skip, hrest, List.takeWhile_cons, if_pos hc, List.length_cons]
    omega
  have hdrop : s.drop (skip s isWordChar q) = cs.dropWhile isWordChar := by
    rw [drop_skip, hrest, List.dropWhile_cons, if_pos hc]
  rw [spansAt, hrest, spanTokens, isWhitespace_of_isWordChar hc, if_neg Bool.false_ne_true,
    if_neg hgt, ofChar_of_isWordChar hc, spansAt, hdrop, hskip]

theorem spansAt_gtgt {q : ℕ} {cs : CStr} (hrest : s.drop q = '>'.toUInt8 :: '>'.toUInt8 :: cs) :
    spansAt s q = .sym .gtgt :: spansAt s (q + 2) := by
  have hrest' := drop_succ_of_drop (drop_succ_of_drop hrest)
  have hblank : isWhitespace '>'.toUInt8 = false := by decide
  rw [spansAt, hrest, spanTokens, hblank, if_neg Bool.false_ne_true, if_pos ⟨rfl, rfl⟩, spansAt,
    hrest']
  rfl

theorem ofChar_char {k : Sym} (hk : k ≠ .gtgt) : Sym.ofChar k.char = some k := by
  cases k with
  | gtgt => exact absurd rfl hk
  | lt | gt | bar | amp | semi | lpar | rpar => decide

theorem spansAt_sym {q : ℕ} {k : Sym} {cs : CStr} (hne : k ≠ .gtgt)
    (hrest : s.drop q = k.char :: cs) (hone : k = .gt → cs.head? ≠ some '>'.toUInt8) :
    spansAt s q = .sym k :: spansAt s (q + 1) := by
  have hblank : isWhitespace k.char = false := by cases k <;> decide
  have hgt : ¬ (k.char = '>'.toUInt8 ∧ cs.head? = some '>'.toUInt8) := by
    rintro ⟨hchar, hhead⟩
    refine hone ?_ hhead
    cases k <;> first | rfl | exact absurd rfl hne | exact absurd hchar (by decide)
  rw [spansAt, hrest, spanTokens, hblank, if_neg Bool.false_ne_true, if_neg hgt, ofChar_char hne,
    spansAt, drop_succ_of_drop hrest]

/-! ### `gettoken` and `peek` -/

/-- What `gettoken` has taken. -/
inductive Took (s : CStr) (p : ℕ) : Prop
  | nothing (ret : (gettoken s p).ret = 0) (spans : spansAt s p = [])
      (rest : spansAt s (gettoken s p).ps = [])
  | sym (k : Sym) (ret : (gettoken s p).ret = k.code)
      (spans : spansAt s p = .sym k :: spansAt s (gettoken s p).ps)
  | word (ret : (gettoken s p).ret = 'a'.toUInt8)
      (spans : spansAt s p = .word (gettoken s p).span :: spansAt s (gettoken s p).ps)

theorem took_gettoken (h0 : 0 ∉ s) (p : ℕ) : Took s p := by
  cases next_skip s p with
  | nil hrest htokens =>
    have hspans : spansAt s (skip s isWhitespace p) = [] := by rw [spansAt, hrest, spanTokens]
    have hc := charAt_of_drop_nil hrest
    rw [tokensAt_skip] at htokens
    refine .nothing (gettoken_nil htokens).1 ((spansAt_skip p).symm.trans hspans) ?_
    simp only [gettoken, hc, ↓reduceIte]
    rw [spansAt_skip, hspans]
  | gtgt cs hrest htokens =>
    obtain ⟨hret, hps⟩ := gettoken_at_gtgt hrest
    refine .sym .gtgt hret ?_
    rw [hps, spansAt_skip, ← spansAt_skip p, spansAt_gtgt hrest]
  | sym k cs hne hrest hone htokens =>
    obtain ⟨hret, hps⟩ := gettoken_at_sym hne hrest hone
    refine .sym k hret ?_
    rw [hps, spansAt_skip, ← spansAt_skip p, spansAt_sym hne hrest hone]
  | word c cs hrest hc htokens =>
    have hword := gettoken_at_word h0 hrest hc
    refine .word (by rw [hword]) ?_
    rw [hword, spansAt_skip, ← spansAt_skip p, spansAt_word hrest hc]

theorem code_ne_zero (k : Sym) : k.code ≠ 0 := by
  cases k <;> decide

theorem code_ne_a (k : Sym) : k.code ≠ 'a'.toUInt8 := by
  cases k <;> decide

theorem code_injective {k k' : Sym} (h : k.code = k'.code) : k = k' := by
  cases k <;> cases k' <;> first | rfl | exact absurd h (by decide)

section Scan

variable (h0 : 0 ∉ s) {p : ℕ}

include h0

theorem spansAt_of_zero (h : (gettoken s p).ret = 0) :
    spansAt s (gettoken s p).ps = spansAt s p := by
  cases took_gettoken h0 p with
  | nothing _ hspans hrest => rw [hspans, hrest]
  | sym k hret => exact absurd (hret.symm.trans h) (code_ne_zero k)
  | word hret => exact absurd (hret.symm.trans h) (by decide)

theorem spansAt_of_sym {k : Sym} (h : (gettoken s p).ret = k.code) :
    spansAt s p = .sym k :: spansAt s (gettoken s p).ps := by
  cases took_gettoken h0 p with
  | nothing hret => exact absurd (h.symm.trans hret) (code_ne_zero k)
  | sym k' hret hspans =>
    rw [code_injective (h.symm.trans hret)]
    exact hspans
  | word hret => exact absurd (h.symm.trans hret) (code_ne_a k)

theorem spansAt_of_word (h : (gettoken s p).ret = 'a'.toUInt8) :
    spansAt s p = .word (gettoken s p).span :: spansAt s (gettoken s p).ps := by
  cases took_gettoken h0 p with
  | nothing hret => exact absurd (h.symm.trans hret) (by decide)
  | sym k hret => exact absurd (hret.symm.trans h) (code_ne_a k)
  | word _ hspans => exact hspans

/-- The two ways a call of `peek` ends. -/
theorem peek_spans (p : ℕ) {toks : List UInt8} (htoks : ∀ c ∈ toks, c ∈ symbols) :
    ∃ p₁, spansAt s p₁ = spansAt s p ∧
      ((∃ k, k.char ∈ toks ∧ peek s p toks = (true, p₁) ∧ (gettoken s p₁).ret = k.code ∧
          spansAt s p = .sym k :: spansAt s (gettoken s p₁).ps) ∨
        peek s p toks = (false, p₁)) := by
  obtain ⟨p₁, -, hcases⟩ := peek_cases s p htoks
  have hp₁ : spansAt s p₁ = spansAt s p := by
    have hsnd : (peek s p toks).2 = p₁ := by
      rcases hcases with ⟨k, -, hpeek, -⟩ | ⟨-, hpeek⟩
      · rw [hpeek]
      · rw [hpeek]
    rw [← hsnd]
    exact spansAt_skip p
  refine ⟨p₁, hp₁, ?_⟩
  rcases hcases with ⟨k, hk, hpeek, hret, -⟩ | ⟨-, hpeek⟩
  · exact Or.inl ⟨k, hk, hpeek, hret, by rw [← hp₁, spansAt_of_sym h0 hret]⟩
  · exact Or.inr hpeek

end Scan

/-! ### What a call has read -/

/-- A parse function called at `p` with result `r`: what it has read has the form `G`. -/
def ReadAs (s : CStr) (p : ℕ) (G : List (Tok Span) → Cmd Span → Prop)
    (r : Parsed (Cmd Span × ℕ)) : Prop :=
  ∀ c p', r = .ok (c, p') → ∃ ts, spansAt s p = ts ++ spansAt s p' ∧ G ts c

namespace ReadAs

variable {p p₁ : ℕ} {G G' : List (Tok Span) → Cmd Span → Prop} {r : Parsed (Cmd Span × ℕ)}

theorem mono (h : ReadAs s p G r) (hG : ∀ ts c, G ts c → G' ts c) : ReadAs s p G' r := by
  intro c p' hr
  obtain ⟨ts, hspans, hg⟩ := h c p' hr
  exact ⟨ts, hspans, hG ts c hg⟩

theorem congr (h : ReadAs s p₁ G r) (hp : spansAt s p₁ = spansAt s p) : ReadAs s p G r :=
  fun c p' hr => hp ▸ h c p' hr

theorem ok {c : Cmd Span} (hG : G [] c) (hp : spansAt s p₁ = spansAt s p) :
    ReadAs s p G (.ok (c, p₁)) := by
  intro c' p' hr
  obtain ⟨rfl, rfl⟩ : c = c' ∧ p₁ = p' := by simpa using hr
  exact ⟨[], hp.symm, hG⟩

theorem error (stop : Stop) : ReadAs s p G (.error stop) := nofun

/-- A call after tokens that have been taken away. -/
theorem after {ts : List (Tok Span)} (h : ReadAs s p₁ (fun ts' c => G (ts ++ ts') c) r)
    (hp : spansAt s p = ts ++ spansAt s p₁) : ReadAs s p G r := by
  intro c p' hr
  obtain ⟨ts', hspans, hg⟩ := h c p' hr
  exact ⟨ts ++ ts', by rw [hp, hspans, List.append_assoc], hg⟩

theorem cons {tok : Tok Span} (h : ReadAs s p₁ (fun ts c => G (tok :: ts) c) r)
    (hp : spansAt s p = tok :: spansAt s p₁) : ReadAs s p G r :=
  after h (show spansAt s p = [tok] ++ spansAt s p₁ from hp)

/-- Two calls, one after the other. -/
theorem bind {f : Cmd Span × ℕ → Parsed (Cmd Span × ℕ)} (h : ReadAs s p G r)
    (hf : ∀ c p₁ ts, G ts c → ReadAs s p₁ (fun ts' c' => G' (ts ++ ts') c') (f (c, p₁))) :
    ReadAs s p G' (r >>= f) := by
  cases hr : r with
  | error stop => exact error stop
  | ok cp =>
    obtain ⟨c, p₁⟩ := cp
    obtain ⟨ts, hspans, hg⟩ := h c p₁ hr
    exact (hf c p₁ ts hg).after hspans

end ReadAs

/-! ### The parse functions -/

/-- `redirFor` puts the redirection of the token around the command. -/
theorem redirFor_code {k : Sym} (hk : k.IsRedir) (c : Cmd Span) (w : Span) :
    redirFor k.code c w = Redir.around c ⟨k, w⟩ := by
  rcases hk with rfl | rfl | rfl
  · rfl
  · rfl
  · rfl

section Functions

variable (h0 : 0 ∉ s)

include h0

theorem parseback_readAs (fuel : ℕ) : ∀ (c : Cmd Span) (p : ℕ), ReadAs s p
    (fun ts c' => ∃ n, ts = List.replicate n (.sym .amp) ∧ c' = backs n c)
    (parseback s fuel c p) := by
  induction fuel with
  | zero => exact fun _ _ => .error _
  | succ fuel ih =>
    intro c p
    rw [parseback]
    have hsym : ∀ c ∈ cstr ['&'], c ∈ symbols := mem_symbols_of_all rfl
    obtain ⟨p₁, hp₁, ⟨k, hk, hpeek, -, hspans⟩ | hpeek⟩ := peek_spans h0 p hsym
    · obtain rfl : k = .amp := by cases k <;> revert hk <;> decide
      simp only [hpeek, ↓reduceIte]
      refine ReadAs.cons ((ih _ _).mono ?_) hspans
      rintro ts c' ⟨n, rfl, rfl⟩
      exact ⟨n + 1, rfl, rfl⟩
    · simp only [hpeek, Bool.false_eq_true, ↓reduceIte]
      exact .ok ⟨0, rfl, rfl⟩ hp₁

theorem parseredirs_readAs (fuel : ℕ) : ∀ (c : Cmd Span) (p : ℕ), ReadAs s p
    (fun ts c' => ∃ rs, Redirs ts rs ∧ c' = wrap c rs) (parseredirs s fuel c p) := by
  induction fuel with
  | zero => exact fun _ _ => .error _
  | succ fuel ih =>
    intro c p
    rw [parseredirs]
    have hsym : ∀ c ∈ cstr ['<', '>'], c ∈ symbols := mem_symbols_of_all rfl
    obtain ⟨p₁, hp₁, ⟨k, hk, hpeek, hret, hspans⟩ | hpeek⟩ := peek_spans h0 p hsym
    · have hredir : k.IsRedir := by
        unfold Sym.IsRedir
        cases k <;> revert hk <;> decide
      simp only [hpeek, ↓reduceIte]
      split_ifs with hword
      · rw [hret, redirFor_code hredir]
        refine ReadAs.cons (ReadAs.cons ((ih _ _).mono ?_) (spansAt_of_word h0 hword)) hspans
        rintro ts c' ⟨rs, hrs, rfl⟩
        exact ⟨_ :: rs, .cons hredir _ hrs, rfl⟩
      · exact .error _
    · simp only [hpeek, Bool.false_eq_true, ↓reduceIte]
      exact .ok ⟨[], .nil, rfl⟩ hp₁

theorem parseargs_readAs (fuel : ℕ) : ∀ (ws : List Span) (rs : List (Redir Span)) (p : ℕ),
    ws.length < MAXARGS → ReadAs s p
      (fun ts c => ∃ ws' rs', Args ts ws' rs' ∧ (ws ++ ws').length < MAXARGS ∧
        c = wrap (.exec (ws ++ ws')) (rs ++ rs'))
      (parseargs s fuel (wrap (.exec ws) rs) ws.length p) := by
  induction fuel with
  | zero => exact fun _ _ _ _ => .error _
  | succ fuel ih =>
    intro ws rs p hlen
    have hdone : ∃ ws' rs', Args ([] : List (Tok Span)) ws' rs' ∧ (ws ++ ws').length < MAXARGS ∧
        wrap (.exec ws) rs = wrap (.exec (ws ++ ws')) (rs ++ rs') :=
      ⟨[], [], .nil, by rwa [List.append_nil], by rw [List.append_nil, List.append_nil]⟩
    rw [parseargs]
    have hsym : ∀ c ∈ cstr ['|', ')', '&', ';'], c ∈ symbols := mem_symbols_of_all rfl
    obtain ⟨p₁, hp₁, ⟨k, hk, hpeek, -, -⟩ | hpeek⟩ := peek_spans h0 p hsym
    · simp only [hpeek, ↓reduceIte]
      exact .ok hdone hp₁
    · simp only [hpeek, Bool.false_eq_true, ↓reduceIte]
      split_ifs with hzero hword hfew
      · -- the end of the line
        exact .ok hdone ((spansAt_of_zero h0 hzero).trans hp₁)
      · exact .error _
      · have hspans := spansAt_of_word h0 (not_ne_iff.mp hword)
        rw [hp₁] at hspans
        rw [pushArg_wrap, Cmd.pushArg]
        refine ReadAs.cons ?_ hspans
        refine (parseredirs_readAs h0 fuel _ _).bind fun c p₂ ts hredirs => ?_
        obtain ⟨rs₁, hrs₁, rfl⟩ := hredirs
        have hargc : ws.length + 1 = (ws ++ [(gettoken s p₁).span]).length := by simp
        rw [hargc] at hfew
        dsimp only
        rw [hargc, ← wrap_append]
        refine (ih _ _ p₂ hfew).mono ?_
        rintro ts' c' ⟨ws', rs', hargs, hfew', rfl⟩
        rw [List.append_assoc] at hfew'
        refine ⟨_ :: ws', rs₁ ++ rs', Args.cons _ hrs₁ hargs, hfew', ?_⟩
        rw [List.append_assoc, List.append_assoc]
        rfl
      · exact .error _

end Functions

/-- The four parse functions with a given fuel. -/
structure AllReadAs (s : CStr) (fuel : ℕ) : Prop where
  line : ∀ p, ReadAs s p Line (parseline s fuel p)
  pipe : ∀ p, ReadAs s p Pipe (parsepipe s fuel p)
  exec : ∀ p, ReadAs s p Exec (parseexec s fuel p)
  block : ∀ p, ReadAs s p Exec (parseblock s fuel p)

section Step

variable (h0 : 0 ∉ s) {fuel : ℕ} (ih : AllReadAs s fuel) (p : ℕ)

include h0 ih

theorem parseline_readAs : ReadAs s p Line (parseline s (fuel + 1) p) := by
  rw [parseline]
  refine (ih.pipe p).bind fun c p₁ ts hpipe => ?_
  refine (parseback_readAs h0 fuel c p₁).bind fun c' p₂ ts₁ hback => ?_
  obtain ⟨n, rfl, rfl⟩ := hback
  have hsym : ∀ c ∈ cstr [';'], c ∈ symbols := mem_symbols_of_all rfl
  obtain ⟨p₃, hp₃, ⟨k, hk, hpeek, -, hspans⟩ | hpeek⟩ := peek_spans h0 p₂ hsym
  · obtain rfl : k = .semi := by cases k <;> revert hk <;> decide
    simp only [hpeek, ↓reduceIte]
    refine ReadAs.cons ?_ hspans
    refine (ih.line _).bind fun right p₄ ts₂ hline => ?_
    have hsemi := Line.semi hpipe n hline
    exact .ok (by simpa using hsemi) rfl
  · simp only [hpeek, Bool.false_eq_true, ↓reduceIte]
    have hlast := Line.last hpipe n
    exact .ok (by simpa using hlast) hp₃

theorem parsepipe_readAs : ReadAs s p Pipe (parsepipe s (fuel + 1) p) := by
  rw [parsepipe]
  refine (ih.exec p).bind fun c p₁ ts hexec => ?_
  have hsym : ∀ c ∈ cstr ['|'], c ∈ symbols := mem_symbols_of_all rfl
  obtain ⟨p₂, hp₂, ⟨k, hk, hpeek, -, hspans⟩ | hpeek⟩ := peek_spans h0 p₁ hsym
  · obtain rfl : k = .bar := by cases k <;> revert hk <;> decide
    simp only [hpeek, ↓reduceIte]
    refine ReadAs.cons ?_ hspans
    refine (ih.pipe _).bind fun right p₃ ts₁ hpipe => ?_
    have hbar := Pipe.bar hexec hpipe
    exact .ok (by simpa using hbar) rfl
  · simp only [hpeek, Bool.false_eq_true, ↓reduceIte]
    have hlast := Pipe.last hexec
    exact .ok (by simpa using hlast) hp₂

theorem parseexec_readAs : ReadAs s p Exec (parseexec s (fuel + 1) p) := by
  rw [parseexec]
  have hsym : ∀ c ∈ cstr ['('], c ∈ symbols := mem_symbols_of_all rfl
  obtain ⟨p₁, hp₁, ⟨k, -, hpeek, -, -⟩ | hpeek⟩ := peek_spans h0 p hsym
  · simp only [hpeek, ↓reduceIte]
    exact (ih.block p₁).congr hp₁
  · simp only [hpeek, Bool.false_eq_true, ↓reduceIte]
    refine ReadAs.congr ?_ hp₁
    refine (parseredirs_readAs h0 fuel (.exec []) p₁).bind fun c p₂ ts hredirs => ?_
    obtain ⟨rs, hrs, rfl⟩ := hredirs
    refine (parseargs_readAs h0 fuel [] rs p₂ (by decide)).mono ?_
    rintro ts' c' ⟨ws, rs', hargs, hfew, rfl⟩
    exact Exec.simple hrs hargs hfew

theorem parseblock_readAs : ReadAs s p Exec (parseblock s (fuel + 1) p) := by
  rw [parseblock]
  have hsym : ∀ c ∈ cstr ['('], c ∈ symbols := mem_symbols_of_all rfl
  have hsym' : ∀ c ∈ cstr [')'], c ∈ symbols := mem_symbols_of_all rfl
  obtain ⟨p₁, -, ⟨k, hk, hpeek, -, hspans⟩ | hpeek⟩ := peek_spans h0 p hsym
  · obtain rfl : k = .lpar := by cases k <;> revert hk <;> decide
    simp only [hpeek, ↓reduceIte]
    refine ReadAs.cons ?_ hspans
    refine (ih.line _).bind fun c p₂ ts hline => ?_
    obtain ⟨p₃, -, ⟨k, hk, hpeek, -, hspans'⟩ | hpeek⟩ := peek_spans h0 p₂ hsym'
    · obtain rfl : k = .rpar := by cases k <;> revert hk <;> decide
      simp only [hpeek, ↓reduceIte]
      refine ReadAs.cons ((parseredirs_readAs h0 fuel c _).mono ?_) hspans'
      rintro ts' c' ⟨rs, hrs, rfl⟩
      exact Exec.block hline hrs
    · simp only [hpeek, Bool.false_eq_true, ↓reduceIte]
      exact .error _
  · simp only [hpeek, Bool.false_eq_true, ↓reduceIte]
    exact .error _

end Step

/-- **The trees are those of derivations**, with their pointers. -/
theorem allReadAs (h0 : 0 ∉ s) (fuel : ℕ) : AllReadAs s fuel := by
  induction fuel with
  | zero =>
    refine ⟨fun p => ?_, fun p => ?_, fun p => ?_, fun p => ?_⟩
    · rw [parseline]
      exact .error _
    · rw [parsepipe]
      exact .error _
    · rw [parseexec]
      exact .error _
    · rw [parseblock]
      exact .error _
  | succ fuel ih =>
    exact ⟨fun p => parseline_readAs h0 ih p, fun p => parsepipe_readAs h0 ih p,
      fun p => parseexec_readAs h0 ih p, fun p => parseblock_readAs h0 ih p⟩

/-! ### The whole line -/

def Tok.map {V W : Type} (f : V → W) : Tok V → Tok W
  | .sym k => .sym k
  | .word w => .word (f w)

/-- The tokens with their places are the tokens of the line. -/
theorem map_text_spanTokens (p : ℕ) (r : CStr) (hr : s.drop p = r) :
    (spanTokens p r).map (Tok.map (text s)) = tokenize r := by
  fun_induction spanTokens p r with
  | case1 p => rw [tokenize, List.map_nil]
  | case2 p c cs hc ih => rw [tokenize_blank hc, ih (drop_succ_of_drop hr)]
  | case3 p c cs hc hgt ih =>
    have hrest : s.drop (p + 2) = cs.tail := by
      rw [← List.tail_drop, drop_succ_of_drop hr]
    rw [tokenize, if_neg hc, if_pos hgt, List.map_cons, ih hrest]
    rfl
  | case4 p c cs hc hgt k hk ih =>
    rw [tokenize, if_neg hc, if_neg hgt, hk, List.map_cons, ih (drop_succ_of_drop hr)]
    rfl
  | case5 p c cs hc hgt hk ih =>
    have hword : isWordChar c = true :=
      isWordChar_of_ofChar (Bool.not_eq_true _ ▸ hc) hk
    have hskip : skip s isWordChar p = p + 1 + (cs.takeWhile isWordChar).length := by
      rw [skip, hr, List.takeWhile_cons, if_pos hword, List.length_cons]
      omega
    have htext : text s ⟨p, skip s isWordChar p⟩ = c :: cs.takeWhile isWordChar := by
      rw [text_skip, hr, List.takeWhile_cons, if_pos hword]
    have hrest : s.drop (skip s isWordChar p) = cs.dropWhile isWordChar := by
      rw [drop_skip, hr, List.dropWhile_cons, if_pos hword]
    rw [hskip] at htext hrest
    rw [tokenize, if_neg hc, if_neg hgt, hk, List.map_cons, Tok.map, htext, ih hrest]

/-- The argument lists of the simple commands in a tree. -/
def Cmd.execs {W : Type} : Cmd W → List (List W)
  | .exec argv => [argv]
  | .redir cmd _ _ _ => cmd.execs
  | .pipe left right => left.execs ++ right.execs
  | .list left right => left.execs ++ right.execs
  | .back cmd => cmd.execs

/-- The array `argv` of a simple command: the pointers that were stored in the zeroed node. -/
def argvArray (argv : List Span) : List (Option ℕ) :=
  (argv.map fun w => some w.q) ++ List.replicate (MAXARGS - argv.length) none

theorem execs_wrap {W : Type} (rs : List (Redir W)) : ∀ c : Cmd W, (wrap c rs).execs = c.execs := by
  induction rs with
  | nil => exact fun _ => rfl
  | cons r rs ih =>
    intro c
    obtain ⟨k, file⟩ := r
    show (wrap (Redir.around c ⟨k, file⟩) rs).execs = c.execs
    rw [ih]
    cases k <;> rfl

theorem execs_backs {W : Type} (n : ℕ) (c : Cmd W) : (backs n c).execs = c.execs := by
  induction n with
  | zero => rfl
  | succ n ih =>
    rw [backs, Function.iterate_succ_apply']
    exact ih

/-- Every simple command in a tree has at most nine words. -/
def Cmd.Few {W : Type} (c : Cmd W) : Prop := ∀ argv ∈ c.execs, argv.length < MAXARGS

theorem Cmd.Few.append {W : Type} {c c' : Cmd W} (h : c.Few) (h' : c'.Few) :
    ∀ argv ∈ c.execs ++ c'.execs, argv.length < MAXARGS := by
  intro argv hargv
  rcases List.mem_append.mp hargv with hargv | hargv
  · exact h argv hargv
  · exact h' argv hargv

theorem few_wrap {W : Type} {c : Cmd W} (h : c.Few) (rs : List (Redir W)) : (wrap c rs).Few := by
  rw [Cmd.Few, execs_wrap]
  exact h

theorem few_backs {W : Type} {c : Cmd W} (h : c.Few) (n : ℕ) : (backs n c).Few := by
  rw [Cmd.Few, execs_backs]
  exact h

theorem few_exec {W : Type} {ws : List W} (h : ws.length < MAXARGS) : (Cmd.exec ws).Few := by
  intro argv hargv
  rw [List.mem_singleton.mp hargv]
  exact h

mutual

theorem Line.few {W : Type} {ts : List (Tok W)} {c : Cmd W} : Line ts c → c.Few
  | .last hpipe n => few_backs hpipe.few n
  | .semi hpipe n hline => (few_backs hpipe.few n).append hline.few

theorem Pipe.few {W : Type} {ts : List (Tok W)} {c : Cmd W} : Pipe ts c → c.Few
  | .last hexec => hexec.few
  | .bar hexec hpipe => hexec.few.append hpipe.few

theorem Exec.few {W : Type} {ts : List (Tok W)} {c : Cmd W} : Exec ts c → c.Few
  | .block hline _ => few_wrap hline.few _
  | .simple _ _ few => few_wrap (few_exec few) _

end

theorem argvArray_of_lt {argv : List Span} (h : argv.length < MAXARGS) :
    ∃ rest, argvArray argv = (argv.map fun w => some w.q) ++ none :: rest := by
  obtain ⟨n, hn⟩ : ∃ n, MAXARGS - argv.length = n + 1 := ⟨MAXARGS - argv.length - 1, by omega⟩
  rw [argvArray, hn, List.replicate_succ]
  exact ⟨_, rfl⟩

/-- **Argument strings survive their termination in place.**  The tree that `parsecmd` returns is
that of a derivation of the tokens at their places; every pointer in it, read as a string, is the
text of the word at its place; and a null pointer follows the arguments of each simple command. -/
theorem parsecmd_words (h0 : 0 ∉ s) {fuel : ℕ} {mem : List UInt8} {c : Cmd Span}
    (h : parsecmd fuel s = .ok (mem, c)) :
    (spanTokens 0 s).map (Tok.map (text s)) = tokenize s ∧ Line (spanTokens 0 s) c ∧
      (∀ w ∈ c.words, cstrOf (mem.drop w.q) = text s w) ∧
      ∀ argv ∈ c.execs, ∃ rest, argvArray argv = (argv.map fun w => some w.q) ++ none :: rest := by
  rcases hr : parseline s fuel 0 with stop | ⟨c', p⟩
  · rw [parsecmd_of_error hr] at h
    cases h
  · rw [parsecmd_of_ok hr] at h
    split_ifs at h with hend
    obtain ⟨rfl, rfl⟩ : nulterminate c' (s ++ [0]) = mem ∧ c' = c := by simpa using h
    obtain ⟨_, _, -, -, hdenotes⟩ := ((allParse h0 fuel).line 0).sound c' p hr
    obtain ⟨ts, hspans, hline⟩ := (allReadAs h0 fuel).line 0 c' p hr
    have hnil : spansAt s p = [] := by
      have hmap := map_text_spanTokens p (s.drop p) rfl
      rw [← tokensAt, hend] at hmap
      exact List.map_eq_nil_iff.mp hmap
    rw [hnil, List.append_nil] at hspans
    have hts : spanTokens 0 s = ts := hspans
    refine ⟨map_text_spanTokens 0 s rfl, hts ▸ hline, ?_, ?_⟩
    · exact fun w hw => cstrOf_nulterminate h0 hdenotes.isWord hw
    · exact fun argv hargv => argvArray_of_lt (hline.few argv hargv)

/-- The line `a>b|c`, where every terminator falls on a symbol. -/
def tightLine : CStr := cstr ['a', '>', 'b', '|', 'c']

theorem parsecmd_words_tightLine :
    parsecmd 24 tightLine = .ok ([97, 0, 98, 0, 99, 0],
        .pipe (.redir (.exec [⟨0, 1⟩]) ⟨2, 3⟩ 0o1101 1) (.exec [⟨4, 5⟩])) ∧
      Line (spanTokens 0 tightLine)
        (.pipe (.redir (.exec [⟨0, 1⟩]) ⟨2, 3⟩ 0o1101 1) (.exec [⟨4, 5⟩])) := by
  have h : parsecmd 24 tightLine = .ok ([97, 0, 98, 0, 99, 0],
      .pipe (.redir (.exec [⟨0, 1⟩]) ⟨2, 3⟩ 0o1101 1) (.exec [⟨4, 5⟩])) := by
    decide +kernel
  exact ⟨h, (parsecmd_words (by decide) h).2.1⟩

end Jyyos.Sh
