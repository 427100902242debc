import Jyyos.Sh.Equiv.Token

/-!
# The parser accepts exactly the grammar

For a line without NULs, `parsecmd` returns a tree iff the tokens of the line are derivable, and
then it is the tree of the derivation, with its words as terminated strings (`parsecmd_iff`).

Each parse function is described twice, by induction on the fuel.  `Parses`: if it returns, it has
read a piece of the tokens that has the form it looks for, and with enough fuel for the tokens
that are left it does not run out.  `Reads`: if the tokens begin with a piece of that form and
go on with something that can follow it, then exactly this piece is read, or the fuel runs out.
-/

namespace Jyyos.Sh

variable {s : CStr}

/-! ### Trees with pointers -/

/-- The words of a tree, in the order of `nulterminate`. -/
def Cmd.words {W : Type} : Cmd W → List W
  | .exec argv => argv
  | .redir cmd file _ _ => cmd.words ++ [file]
  | .pipe left right => left.words ++ right.words
  | .list left right => left.words ++ right.words
  | .back cmd => cmd.words

/-- The pointers of `c` are those of words, and with their texts it is the tree `t`. -/
structure Denotes (s : CStr) (c : Cmd Span) (t : Cmd CStr) : Prop where
  text : c.map (text s) = t
  isWord : ∀ w ∈ c.words, IsWord s w

namespace Denotes

theorem exec_nil : Denotes s (.exec []) (.exec []) := ⟨rfl, nofun⟩

theorem back {c : Cmd Span} {t : Cmd CStr} (h : Denotes s c t) : Denotes s (.back c) (.back t) :=
  ⟨by rw [Cmd.map, h.text], h.isWord⟩

theorem isWord_append {c c' : Cmd Span} {t t' : Cmd CStr} (h : Denotes s c t)
    (h' : Denotes s c' t') : ∀ w ∈ c.words ++ c'.words, IsWord s w := by
  intro w hw
  rcases List.mem_append.mp hw with hw | hw
  · exact h.isWord w hw
  · exact h'.isWord w hw

theorem pipe {c c' : Cmd Span} {t t' : Cmd CStr} (h : Denotes s c t) (h' : Denotes s c' t') :
    Denotes s (.pipe c c') (.pipe t t') :=
  ⟨by rw [Cmd.map, h.text, h'.text], h.isWord_append h'⟩

theorem list {c c' : Cmd Span} {t t' : Cmd CStr} (h : Denotes s c t) (h' : Denotes s c' t') :
    Denotes s (.list c c') (.list t t') :=
  ⟨by rw [Cmd.map, h.text, h'.text], h.isWord_append h'⟩

/-- `redirFor` puts the redirection of the token around the command. -/
theorem redirFor {c : Cmd Span} {t : Cmd CStr} (h : Denotes s c t) {k : Sym} (hk : k.IsRedir)
    {w : Span} (hw : IsWord s w) :
    Denotes s (redirFor k.code c w) (Redir.around t ⟨k, Sh.text s w⟩) := by
  have hredir : ∀ mode fd, Denotes s (.redir c w mode fd) (.redir t (Sh.text s w) mode fd) := by
    intro mode fd
    refine ⟨by rw [Cmd.map, h.text], fun w' hw' => ?_⟩
    rcases List.mem_append.mp hw' with hw' | hw'
    · exact h.isWord w' hw'
    · rw [List.mem_singleton.mp hw']
      exact hw
  rcases hk with rfl | rfl | rfl
  · exact hredir O_RDONLY 0
  · exact hredir (O_WRONLY ||| O_CREAT ||| O_TRUNC) 1
  · exact hredir (O_WRONLY ||| O_CREAT) 1

end Denotes

/-- An argument goes to the simple command inside the redirections. -/
theorem pushArg_wrap {W : Type} (w : W) (rs : List (Redir W)) : ∀ c : Cmd W,
    (wrap c rs).pushArg w = wrap (c.pushArg w) rs := by
  induction rs with
  | nil => exact fun _ => rfl
  | cons r rs ih =>
    intro c
    have hr : (r.around c).pushArg w = r.around (c.pushArg w) := by
      obtain ⟨k, file⟩ := r
      cases k <;> rfl
    show (wrap (r.around c) rs).pushArg w = wrap (r.around (c.pushArg w)) rs
    rw [ih, hr]

theorem wrap_append {W : Type} (c : Cmd W) (rs rs' : List (Redir W)) :
    wrap c (rs ++ rs') = wrap (wrap c rs) rs' := by
  rw [wrap, wrap, wrap, List.foldl_append]

theorem map_pushArg {V W : Type} (f : V → W) (w : V) (c : Cmd V) :
    (c.pushArg w).map f = (c.map f).pushArg (f w) := by
  induction c with
  | exec argv => simp [Cmd.pushArg, Cmd.map]
  | redir c file mode fd ih => rw [Cmd.pushArg, Cmd.map, Cmd.map, Cmd.pushArg, ih]
  | pipe | list | back => rfl

theorem mem_words_pushArg {W : Type} {w v : W} {c : Cmd W} (h : v ∈ (c.pushArg w).words) :
    v = w ∨ v ∈ c.words := by
  induction c with
  | exec argv => simpa [Cmd.pushArg, Cmd.words, or_comm] using h
  | redir c file mode fd ih =>
    rw [Cmd.pushArg, Cmd.words, List.mem_append] at h
    rw [Cmd.words, List.mem_append]
    rcases h with h | h
    · exact (ih h).imp_right Or.inl
    · exact Or.inr (Or.inr h)
  | pipe | list | back => exact Or.inr h

theorem Denotes.pushArg {c : Cmd Span} {t : Cmd CStr} (h : Denotes s c t) {w : Span}
    (hw : IsWord s w) : Denotes s (c.pushArg w) (t.pushArg (Sh.text s w)) := by
  refine ⟨by rw [map_pushArg, h.text], fun v hv => ?_⟩
  rcases mem_words_pushArg hv with rfl | hv
  · exact hw
  · exact h.isWord v hv

/-! ### What a call has read -/

/-- A parse function called at `p` with result `r`: what it has read has the form `G`, and if there
was `enough` fuel it has not run out. -/
structure Parses (s : CStr) (p : ℕ) (G : List (Tok CStr) → Cmd CStr → Prop) (enough : Prop)
    (r : Parsed (Cmd Span × ℕ)) : Prop where
  sound : ∀ c p', r = .ok (c, p') →
    ∃ ts t, tokensAt s p = ts ++ tokensAt s p' ∧ G ts t ∧ Denotes s c t
  total : enough → r ≠ .error .outOfFuel

namespace Parses

variable {p p₁ : ℕ} {G G' : List (Tok CStr) → Cmd CStr → Prop} {e e' : Prop}
  {r : Parsed (Cmd Span × ℕ)}

theorem mono (h : Parses s p G e r) (hG : ∀ ts t, G ts t → G' ts t) (he : e' → e) :
    Parses s p G' e' r := by
  refine ⟨fun c p' hr => ?_, fun h' => h.total (he h')⟩
  obtain ⟨ts, t, htokens, hg, hd⟩ := h.sound c p' hr
  exact ⟨ts, t, htokens, hG ts t hg, hd⟩

theorem congr (h : Parses s p₁ G e r) (hp : tokensAt s p₁ = tokensAt s p) : Parses s p G e r :=
  ⟨fun c p' hr => by rw [← hp]; exact h.sound c p' hr, h.total⟩

/-- A call that returns at once. -/
theorem ok {c : Cmd Span} {t : Cmd CStr} (hG : G [] t) (hd : Denotes s c t)
    (hp : tokensAt s p₁ = tokensAt s p) : Parses s p G e (.ok (c, p₁)) := by
  refine ⟨fun c' p' hr => ?_, fun _ => nofun⟩
  obtain ⟨rfl, rfl⟩ : c = c' ∧ p₁ = p' := by simpa using hr
  exact ⟨[], t, hp.symm, hG, hd⟩

theorem panic : Parses s p G e (.error .panic) := ⟨nofun, fun _ => nofun⟩

theorem outOfFuel (h : ¬ e) : Parses s p G e (.error .outOfFuel) := ⟨nofun, fun h' => absurd h' h⟩

/-- A call after tokens that have been taken away. -/
theorem after {ts : List (Tok CStr)} (h : Parses s p₁ (fun ts' t => G (ts ++ ts') t) e r)
    (hp : tokensAt s p = ts ++ tokensAt s p₁) : Parses s p G e r := by
  refine ⟨fun c p' hr => ?_, h.total⟩
  obtain ⟨ts', t, htokens, hg, hd⟩ := h.sound c p' hr
  exact ⟨ts ++ ts', t, by rw [hp, htokens, List.append_assoc], hg, hd⟩

/-- A call after one token. -/
theorem cons {tok : Tok CStr} (h : Parses s p₁ (fun ts t => G (tok :: ts) t) e r)
    (hp : tokensAt s p = tok :: tokensAt s p₁) : Parses s p G e r :=
  after h (show tokensAt s p = [tok] ++ tokensAt s p₁ from hp)

/-- Two calls, one after the other. -/
theorem bind {f : Cmd Span × ℕ → Parsed (Cmd Span × ℕ)} (h : Parses s p G e r) (he : e' → e)
    (hf : ∀ c p₁ ts t, tokensAt s p = ts ++ tokensAt s p₁ → G ts t → Denotes s c t →
      Parses s p₁ (fun ts' t' => G' (ts ++ ts') t') e' (f (c, p₁))) :
    Parses s p G' e' (r >>= f) := by
  cases hr : r with
  | error stop =>
    refine ⟨nofun, fun h' hstop => h.total (he h') ?_⟩
    rw [hr]
    exact hstop
  | ok cp =>
    obtain ⟨c, p₁⟩ := cp
    obtain ⟨ts, t, htokens, hg, hd⟩ := h.sound c p₁ hr
    exact (hf c p₁ ts t htokens hg hd).after htokens

end Parses

/-! ### The loops -/

theorem parseback_parses (fuel : ℕ) : ∀ {c : Cmd Span} {t : Cmd CStr} (p : ℕ), Denotes s c t →
    Parses s p (fun ts t' => ∃ n, ts = List.replicate n (.sym .amp) ∧ t' = backs n t)
      ((tokensAt s p).length < fuel) (parseback s fuel c p) := by
  induction fuel with
  | zero => exact fun p _ => .outOfFuel (by omega)
  | succ fuel ih =>
    intro c t p hd
    rw [parseback]
    have hsym : ∀ c ∈ cstr ['&'], c ∈ symbols := mem_symbols_of_all rfl
    obtain ⟨p₁, hp₁, ⟨k, hk, hpeek, -, htok⟩ | ⟨-, hpeek⟩⟩ := peek_cases s p hsym
    · obtain rfl : k = .amp := by cases k <;> revert hk <;> decide
      simp only [hpeek, ↓reduceIte]
      refine Parses.cons ?_ htok
      refine (ih _ hd.back).mono ?_ fun h => ?_
      · rintro ts' t' ⟨n, rfl, rfl⟩
        exact ⟨n + 1, rfl, rfl⟩
      · rw [htok, List.length_cons] at h
        omega
    · simp only [hpeek, Bool.false_eq_true, ↓reduceIte]
      exact .ok ⟨0, rfl, rfl⟩ hd hp₁

section Words

variable (h0 : 0 ∉ s)

include h0

/-- `gettoken` returns `'a'` for a word only. -/
theorem gettoken_of_ret {p : ℕ} (h : (gettoken s p).ret = 'a'.toUInt8) :
    tokensAt s p = .word (text s (gettoken s p).span) :: tokensAt s (gettoken s p).ps ∧
      IsWord s (gettoken s p).span := by
  cases htokens : tokensAt s p with
  | nil =>
    rw [(gettoken_nil htokens).1] at h
    exact absurd h (by decide)
  | cons tok ts =>
    cases tok with
    | sym k =>
      rw [(gettoken_sym htokens).1] at h
      cases k <;> exact absurd h (by decide)
    | word w =>
      obtain ⟨-, hword, rfl, rfl⟩ := gettoken_word h0 htokens
      exact ⟨rfl, hword⟩

/-- `gettoken` returns 0 at the end only. -/
theorem tokensAt_of_ret {p : ℕ} (h : (gettoken s p).ret = 0) : tokensAt s p = [] := by
  cases htokens : tokensAt s p with
  | nil => rfl
  | cons tok ts =>
    cases tok with
    | sym k =>
      rw [(gettoken_sym htokens).1] at h
      cases k <;> exact absurd h (by decide)
    | word w =>
      rw [(gettoken_word h0 htokens).1] at h
      exact absurd h (by decide)

theorem parseredirs_parses (fuel : ℕ) : ∀ {c : Cmd Span} {t : Cmd CStr} (p : ℕ), Denotes s c t →
    Parses s p (fun ts t' => ∃ rs, Redirs ts rs ∧ t' = wrap t rs)
      ((tokensAt s p).length < fuel) (parseredirs s fuel c p) := by
  induction fuel with
  | zero => exact fun p _ => .outOfFuel (by omega)
  | succ fuel ih =>
    intro c t p hd
    rw [parseredirs]
    have hsym : ∀ c ∈ cstr ['<', '>'], c ∈ symbols := mem_symbols_of_all rfl
    obtain ⟨p₁, hp₁, ⟨k, hk, hpeek, hret, htok⟩ | ⟨-, hpeek⟩⟩ := peek_cases s p hsym
    · have hredir : k.IsRedir := by
        unfold Sym.IsRedir
        cases k <;> revert hk <;> decide
      simp only [hpeek, ↓reduceIte]
      split_ifs with hword
      · obtain ⟨htok₁, hisWord⟩ := gettoken_of_ret h0 hword
        rw [hret]
        refine Parses.cons (Parses.cons ?_ htok₁) htok
        refine (ih _ (hd.redirFor hredir hisWord)).mono ?_ fun h => ?_
        · rintro ts' t' ⟨rs, hrs, rfl⟩
          exact ⟨_ :: rs, .cons hredir _ hrs, rfl⟩
        · rw [htok, htok₁, List.length_cons, List.length_cons] at h
          omega
      · exact .panic
    · simp only [hpeek, Bool.false_eq_true, ↓reduceIte]
      exact .ok ⟨[], .nil, rfl⟩ hd hp₁

theorem parseargs_parses (fuel : ℕ) : ∀ {c : Cmd Span} {ws : List CStr} {rs : List (Redir CStr)}
    (p : ℕ), Denotes s c (wrap (.exec ws) rs) → ws.length < MAXARGS →
    Parses s p (fun ts t => ∃ ws' rs', Args ts ws' rs' ∧ (ws ++ ws').length < MAXARGS ∧
        t = wrap (.exec (ws ++ ws')) (rs ++ rs'))
      ((tokensAt s p).length < fuel) (parseargs s fuel c ws.length p) := by
  induction fuel with
  | zero => exact fun p _ _ => .outOfFuel (by omega)
  | succ fuel ih =>
    intro c ws rs p hd hlen
    have hdone : ∃ ws' rs', Args ([] : List (Tok CStr)) ws' rs' ∧ (ws ++ ws').length < MAXARGS ∧
        wrap (.exec ws) rs = wrap (.exec (ws ++ ws')) (rs ++ rs') :=
      ⟨[], [], .nil, by rwa [List.append_nil], by rw [List.append_nil, List.append_nil]⟩
    rw [parseargs]
    have hsym : ∀ c ∈ cstr ['|', ')', '&', ';'], c ∈ symbols := mem_symbols_of_all rfl
    obtain ⟨p₁, hp₁, ⟨k, hk, hpeek, -, htok⟩ | ⟨-, hpeek⟩⟩ := peek_cases s p hsym
    · simp only [hpeek, ↓reduceIte]
      exact .ok hdone hd hp₁
    · simp only [hpeek, Bool.false_eq_true, ↓reduceIte]
      split_ifs with hzero hword hfew
      · -- the end of the line
        have hnil := tokensAt_of_ret h0 hzero
        exact .ok hdone hd (by rw [(gettoken_nil hnil).2, ← hp₁, hnil])
      · exact .panic
      · obtain ⟨htok, hisWord⟩ := gettoken_of_ret h0 (not_ne_iff.mp hword)
        rw [hp₁] at htok
        have hpush := hd.pushArg hisWord
        rw [pushArg_wrap, Cmd.pushArg] at hpush
        refine Parses.cons ?_ htok
        have hlt : (tokensAt s p).length < fuel + 1 →
            (tokensAt s (gettoken s p₁).ps).length < fuel := by
          rw [htok, List.length_cons]
          omega
        refine (parseredirs_parses h0 fuel _ hpush).bind hlt fun c' p₂ ts t htok₁ hredirs hd' => ?_
        obtain ⟨rs₁, hrs₁, rfl⟩ := hredirs
        rw [← wrap_append] at hd'
        have hargc : ws.length + 1 = (ws ++ [text s (gettoken s p₁).span]).length := by simp
        rw [hargc] at hfew ⊢
        refine (ih p₂ hd' hfew).mono ?_ fun h => ?_
        · rintro ts' t' ⟨ws', rs', hargs, hfew', rfl⟩
          rw [List.append_assoc] at hfew'
          have hcons := Args.cons (text s (gettoken s p₁).span) hrs₁ hargs
          refine ⟨_ :: ws', rs₁ ++ rs', hcons, hfew', ?_⟩
          rw [List.append_assoc, List.append_assoc]
          rfl
        · have hlt' := hlt h
          rw [htok₁, List.length_append] at hlt'
          omega
      · exact .panic

end Words

/-! ### The recursive descent -/

/-- The four parse functions with a given fuel. -/
structure AllParse (s : CStr) (fuel : ℕ) : Prop where
  line : ∀ p, Parses s p Line (4 * (tokensAt s p).length + 4 ≤ fuel) (parseline s fuel p)
  pipe : ∀ p, Parses s p Pipe (4 * (tokensAt s p).length + 3 ≤ fuel) (parsepipe s fuel p)
  exec : ∀ p, Parses s p Exec (4 * (tokensAt s p).length + 2 ≤ fuel) (parseexec s fuel p)
  block : ∀ p, Parses s p Exec (4 * (tokensAt s p).length + 1 ≤ fuel) (parseblock s fuel p)

section Step

variable {fuel : ℕ} (ih : AllParse s fuel) (p : ℕ)

include ih

theorem parseline_parses :
    Parses s p Line (4 * (tokensAt s p).length + 4 ≤ fuel + 1) (parseline s (fuel + 1) p) := by
  rw [parseline]
  refine (ih.pipe p).bind (by omega) fun c p₁ ts t htok hpipe hd => ?_
  have hlen : (tokensAt s p).length = ts.length + (tokensAt s p₁).length := by
    rw [htok, List.length_append]
  dsimp only
  refine (parseback_parses fuel p₁ hd).bind (by omega) fun c p₂ ts₁ t₁ htok₁ hback hd => ?_
  obtain ⟨n, rfl, rfl⟩ := hback
  have hlen₁ : (tokensAt s p₁).length = n + (tokensAt s p₂).length := by
    rw [htok₁, List.length_append, List.length_replicate]
  have hsym : ∀ c ∈ cstr [';'], c ∈ symbols := mem_symbols_of_all rfl
  obtain ⟨p₃, hp₃, ⟨k, hk, hpeek, -, htok₂⟩ | ⟨-, hpeek⟩⟩ := peek_cases s p₂ hsym
  · obtain rfl : k = .semi := by cases k <;> revert hk <;> decide
    have hlen₂ := congrArg List.length htok₂
    rw [List.length_cons] at hlen₂
    simp only [hpeek, ↓reduceIte]
    refine Parses.cons ?_ htok₂
    refine (ih.line _).bind (by omega) fun c' p₄ ts₃ t₃ _ hline hd' => ?_
    refine .ok ?_ (hd.list hd') rfl
    have hsemi := Line.semi hpipe n hline
    simpa using hsemi
  · simp only [hpeek, Bool.false_eq_true, ↓reduceIte]
    refine .ok ?_ hd hp₃
    have hlast := Line.last hpipe n
    simpa using hlast

theorem parsepipe_parses :
    Parses s p Pipe (4 * (tokensAt s p).length + 3 ≤ fuel + 1) (parsepipe s (fuel + 1) p) := by
  rw [parsepipe]
  refine (ih.exec p).bind (by omega) fun c p₁ ts t htok hexec hd => ?_
  have hlen : (tokensAt s p).length = ts.length + (tokensAt s p₁).length := by
    rw [htok, List.length_append]
  have hsym : ∀ c ∈ cstr ['|'], c ∈ symbols := mem_symbols_of_all rfl
  obtain ⟨p₂, hp₂, ⟨k, hk, hpeek, -, htok₁⟩ | ⟨-, hpeek⟩⟩ := peek_cases s p₁ hsym
  · obtain rfl : k = .bar := by cases k <;> revert hk <;> decide
    have hlen₁ := congrArg List.length htok₁
    rw [List.length_cons] at hlen₁
    simp only [hpeek, ↓reduceIte]
    refine Parses.cons ?_ htok₁
    refine (ih.pipe _).bind (by omega) fun c' p₃ ts₂ t₂ _ hpipe hd' => ?_
    refine .ok ?_ (hd.pipe hd') rfl
    have hbar := Pipe.bar hexec hpipe
    simpa using hbar
  · simp only [hpeek, Bool.false_eq_true, ↓reduceIte]
    refine .ok ?_ hd hp₂
    have hlast := Pipe.last hexec
    simpa using hlast

theorem parseexec_parses (h0 : 0 ∉ s) :
    Parses s p Exec (4 * (tokensAt s p).length + 2 ≤ fuel + 1) (parseexec s (fuel + 1) p) := by
  rw [parseexec]
  have hsym : ∀ c ∈ cstr ['('], c ∈ symbols := mem_symbols_of_all rfl
  obtain ⟨p₁, hp₁, ⟨k, -, hpeek, -, -⟩ | ⟨-, hpeek⟩⟩ := peek_cases s p hsym
  · simp only [hpeek, ↓reduceIte]
    refine Parses.congr ?_ hp₁
    refine (ih.block p₁).mono (fun _ _ h => h) fun h => ?_
    rw [hp₁]
    omega
  · simp only [hpeek, Bool.false_eq_true, ↓reduceIte]
    refine Parses.congr ?_ hp₁
    rw [← hp₁]
    refine (parseredirs_parses h0 fuel p₁ .exec_nil).bind (by omega)
      fun c p₂ ts t htok hredirs hd => ?_
    obtain ⟨rs, hrs, rfl⟩ := hredirs
    have hlen : (tokensAt s p₁).length = ts.length + (tokensAt s p₂).length := by
      rw [htok, List.length_append]
    refine (parseargs_parses h0 fuel p₂ hd (by decide)).mono ?_ fun h => by omega
    rintro ts' t' ⟨ws, rs', hargs, hfew, rfl⟩
    exact Exec.simple hrs hargs hfew

theorem parseblock_parses (h0 : 0 ∉ s) :
    Parses s p Exec (4 * (tokensAt s p).length + 1 ≤ fuel + 1) (parseblock s (fuel + 1) p) := by
  rw [parseblock]
  have hsym : ∀ c ∈ cstr ['('], c ∈ symbols := mem_symbols_of_all rfl
  have hsym' : ∀ c ∈ cstr [')'], c ∈ symbols := mem_symbols_of_all rfl
  obtain ⟨p₁, hp₁, ⟨k, hk, hpeek, -, htok⟩ | ⟨-, hpeek⟩⟩ := peek_cases s p hsym
  · obtain rfl : k = .lpar := by cases k <;> revert hk <;> decide
    have hlen := congrArg List.length htok
    rw [List.length_cons] at hlen
    simp only [hpeek, ↓reduceIte]
    refine Parses.cons ?_ htok
    refine (ih.line _).bind (by omega) fun c p₂ ts₁ t₁ htok₁ hline hd => ?_
    have hlen₁ := congrArg List.length htok₁
    rw [List.length_append] at hlen₁
    obtain ⟨p₃, hp₃, ⟨k, hk, hpeek, -, htok₂⟩ | ⟨-, hpeek⟩⟩ := peek_cases s p₂ hsym'
    · obtain rfl : k = .rpar := by cases k <;> revert hk <;> decide
      have hlen₂ := congrArg List.length htok₂
      rw [List.length_cons] at hlen₂
      simp only [hpeek, ↓reduceIte]
      refine Parses.cons ?_ htok₂
      refine (parseredirs_parses h0 fuel _ hd).mono ?_ fun h => by omega
      rintro ts' t' ⟨rs, hrs, rfl⟩
      exact Exec.block hline hrs
    · simp only [hpeek, Bool.false_eq_true, ↓reduceIte]
      exact .panic
  · simp only [hpeek, Bool.false_eq_true, ↓reduceIte]
    exact .panic

end Step

/-- **What the parse functions return has the form they look for**, and with enough fuel they
return. -/
theorem allParse (h0 : 0 ∉ s) (fuel : ℕ) : AllParse s fuel := by
  induction fuel with
  | zero =>
    refine ⟨fun p => ?_, fun p => ?_, fun p => ?_, fun p => ?_⟩
    · rw [parseline]
      exact .outOfFuel (by omega)
    · rw [parsepipe]
      exact .outOfFuel (by omega)
    · rw [parseexec]
      exact .outOfFuel (by omega)
    · rw [parseblock]
      exact .outOfFuel (by omega)
  | succ fuel ih =>
    exact ⟨fun p => parseline_parses ih p, fun p => parsepipe_parses ih p,
      fun p => parseexec_parses ih p h0, fun p => parseblock_parses ih p h0⟩

end Jyyos.Sh
