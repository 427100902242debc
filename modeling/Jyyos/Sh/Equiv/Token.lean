import Jyyos.Sh.Grammar
import Mathlib.Data.List.TakeWhile
import Mathlib.Tactic.Common

/-!
# The scanner reads the tokens

`peek` and `gettoken` in terms of `tokenize`.  For a line `s` without NULs the tokens that are left
at an offset `p` are `tokensAt s p`.  `peek` looks at the first of them and keeps them
(`peek_iff`, `tokensAt_peek`); `gettoken` takes the first one away and says which it was
(`gettoken_nil`, `gettoken_sym`, `gettoken_word`).  The parse functions are then read on tokens
alone.
-/

namespace Jyyos.Sh

variable {s : CStr}

/-- The tokens from an offset on. -/
def tokensAt (s : CStr) (p : ℕ) : List (Tok CStr) := tokenize (s.drop p)

/-- The text of a word. -/
def text (s : CStr) (w : Span) : CStr := (s.drop w.q).take (w.eq - w.q)

/-- The character of a symbol that `peek` sees. -/
def Sym.char : Sym → UInt8
  | .lt => '<'.toUInt8
  | .gt => '>'.toUInt8
  | .gtgt => '>'.toUInt8
  | .bar => '|'.toUInt8
  | .amp => '&'.toUInt8
  | .semi => ';'.toUInt8
  | .lpar => '('.toUInt8
  | .rpar => ')'.toUInt8

/-- The value that `gettoken` returns for a symbol. -/
def Sym.code : Sym → UInt8
  | .gtgt => '+'.toUInt8
  | k => k.char

theorem drop_length_takeWhile (ok : UInt8 → Bool) (r : CStr) :
    r.drop (r.takeWhile ok).length = r.dropWhile ok := by
  induction r with
  | nil => rfl
  | cons c r ih =>
    rw [List.takeWhile_cons, List.dropWhile_cons]
    split_ifs
    · rw [List.length_cons, List.drop_succ_cons, ih]
    · rfl

theorem drop_skip (ok : UInt8 → Bool) (p : ℕ) :
    s.drop (skip s ok p) = (s.drop p).dropWhile ok := by
  rw [skip, ← List.drop_drop, drop_length_takeWhile]

theorem charAt_of_drop {p : ℕ} {c : UInt8} {cs : CStr} (h : s.drop p = c :: cs) :
    charAt s p = c := by
  rw [charAt, List.getD_eq_getElem?_getD, getElem?_of_drop h]
  rfl

theorem charAt_of_drop_nil {p : ℕ} (h : s.drop p = []) : charAt s p = 0 := by
  have hget : s[p]? = none := by
    rw [← List.head?_drop, h]
    rfl
  rw [charAt, List.getD_eq_getElem?_getD, hget]
  rfl

theorem tokenize_blank {c : UInt8} (hc : isWhitespace c = true) (cs : CStr) :
    tokenize (c :: cs) = tokenize cs := by
  rw [tokenize, if_pos hc]

/-- Blanks before a token do not count. -/
theorem tokenize_dropWhile (r : CStr) : tokenize (r.dropWhile isWhitespace) = tokenize r := by
  induction r with
  | nil => rfl
  | cons c r ih =>
    rw [List.dropWhile_cons]
    split_ifs with hc
    · rw [ih, tokenize_blank hc]
    · rfl

theorem tokensAt_skip (p : ℕ) : tokensAt s (skip s isWhitespace p) = tokensAt s p := by
  rw [tokensAt, drop_skip, tokenize_dropWhile, tokensAt]

theorem Sym.ofChar_char {c : UInt8} {k : Sym} (h : Sym.ofChar c = some k) :
    k.char = c ∧ k ≠ .gtgt := by
  unfold Sym.ofChar at h
  split_ifs at h with h1 h2 h3 h4 h5 h6 h7 <;> obtain rfl := Option.some.inj h
  · exact ⟨h1.symm, by decide⟩
  · exact ⟨h2.symm, by decide⟩
  · exact ⟨h3.symm, by decide⟩
  · exact ⟨h4.symm, by decide⟩
  · exact ⟨h5.symm, by decide⟩
  · exact ⟨h6.symm, by decide⟩
  · exact ⟨h7.symm, by decide⟩

/-- The first character after the blanks, and the token it begins. -/
inductive Next (s : CStr) (p : ℕ) : Prop
  | nil (rest : s.drop p = []) (tokens : tokensAt s p = [])
  | gtgt (cs : CStr) (rest : s.drop p = '>'.toUInt8 :: '>'.toUInt8 :: cs)
      (tokens : tokensAt s p = .sym .gtgt :: tokenize cs)
  | sym (k : Sym) (cs : CStr) (ne : k ≠ .gtgt) (rest : s.drop p = k.char :: cs)
      (one : k = .gt → cs.head? ≠ some '>'.toUInt8)
      (tokens : tokensAt s p = .sym k :: tokenize cs)
  | word (c : UInt8) (cs : CStr) (rest : s.drop p = c :: cs) (hc : isWordChar c = true)
      (tokens : tokensAt s p =
        .word (c :: cs.takeWhile isWordChar) :: tokenize (cs.dropWhile isWordChar))

/-- A character that is neither blank nor a symbol is part of a word. -/
theorem isWordChar_of_ofChar {c : UInt8} (hc : isWhitespace c = false)
    (h : Sym.ofChar c = none) : isWordChar c = true := by
  unfold Sym.ofChar at h
  split_ifs at h with h1 h2 h3 h4 h5 h6 h7
  have hsym : symbols.contains c = false := by
    simp only [symbols, cstr, List.map_cons, List.map_nil, List.contains_cons, List.contains_nil,
      Bool.or_false, Bool.or_eq_false_iff, beq_eq_false_iff_ne]
    exact ⟨h1, h3, h2, h4, h5, h6, h7⟩
  rw [isWordChar, hsym]
  rw [isWhitespace] at hc
  rw [hc]
  rfl

theorem next_of_not_blank {p : ℕ} (h : ∀ c cs, s.drop p = c :: cs → isWhitespace c = false) :
    Next s p := by
  cases hrest : s.drop p with
  | nil => exact .nil hrest (by rw [tokensAt, hrest, tokenize])
  | cons c cs =>
    have hc := h c cs hrest
    by_cases hgt : c = '>'.toUInt8 ∧ cs.head? = some '>'.toUInt8
    · have htokens : tokensAt s p = .sym .gtgt :: tokenize cs.tail := by
        rw [tokensAt, hrest, tokenize, hc, if_neg Bool.false_ne_true, if_pos hgt]
      obtain ⟨rfl, hhead⟩ := hgt
      cases cs with
      | nil => cases hhead
      | cons d cs =>
        obtain rfl : d = '>'.toUInt8 := Option.some.inj hhead
        exact .gtgt cs hrest htokens
    · cases hk : Sym.ofChar c with
      | some k =>
        have htokens : tokensAt s p = .sym k :: tokenize cs := by
          rw [tokensAt, hrest, tokenize, hc, if_neg Bool.false_ne_true, if_neg hgt, hk]
        obtain ⟨hchar, hne⟩ := Sym.ofChar_char hk
        refine .sym k cs hne (by rw [hrest, hchar]) ?_ htokens
        rintro rfl hhead
        exact hgt ⟨hchar.symm, hhead⟩
      | none =>
        have htokens : tokensAt s p = .word (c :: cs.takeWhile isWordChar) ::
            tokenize (cs.dropWhile isWordChar) := by
          rw [tokensAt, hrest, tokenize, hc, if_neg Bool.false_ne_true, if_neg hgt, hk]
        exact .word c cs hrest (isWordChar_of_ofChar hc hk) htokens

/-- What stands at an offset after the blanks. -/
theorem next_skip (s : CStr) (p : ℕ) : Next s (skip s isWhitespace p) := by
  apply next_of_not_blank
  intro c cs h
  rw [drop_skip] at h
  have hhead := List.head?_dropWhile_not isWhitespace (s.drop p)
  rw [h] at hhead
  simpa using hhead

/-! ### `peek` and `gettoken` -/

theorem tokensAt_peek (s : CStr) (p : ℕ) (toks : List UInt8) :
    tokensAt s (peek s p toks).2 = tokensAt s p := tokensAt_skip p

theorem mem_symbols_of_all {toks : List UInt8} (h : toks.all symbols.contains = true) :
    ∀ c ∈ toks, c ∈ symbols := by
  intro c hc
  exact List.contains_iff_mem.mp (List.all_eq_true.mp h c hc)

/-- `peek` says whether the next token begins with one of the symbols. -/
theorem peek_iff (s : CStr) (p : ℕ) {toks : List UInt8} (htoks : ∀ c ∈ toks, c ∈ symbols) :
    (peek s p toks).1 = true ↔ ∃ k rest, tokensAt s p = .sym k :: rest ∧ k.char ∈ toks := by
  have hchar : ∀ k : Sym, k.char ≠ 0 := by
    intro k
    cases k <;> decide
  have hpeek : (peek s p toks).1 = true ↔ charAt s (skip s isWhitespace p) ≠ 0 ∧
      charAt s (skip s isWhitespace p) ∈ toks := by
    simp [peek]
  rw [hpeek, ← tokensAt_skip p]
  cases next_skip s p with
  | nil hrest htokens =>
    rw [charAt_of_drop_nil hrest, htokens]
    simp
  | gtgt cs hrest htokens =>
    rw [charAt_of_drop hrest, htokens]
    constructor
    · exact fun h => ⟨.gtgt, _, rfl, h.2⟩
    · rintro ⟨k, rest, heq, hk⟩
      injection heq with h1 _
      injection h1 with h1
      subst h1
      exact ⟨by decide, hk⟩
  | sym k cs hne hrest _ htokens =>
    rw [charAt_of_drop hrest, htokens]
    constructor
    · exact fun h => ⟨k, _, rfl, h.2⟩
    · rintro ⟨k', rest, heq, hk⟩
      injection heq with h1 _
      injection h1 with h1
      subst h1
      exact ⟨hchar k, hk⟩
  | word c cs hrest hc htokens =>
    rw [charAt_of_drop hrest, htokens]
    constructor
    · rintro ⟨-, hmem⟩
      -- a character of a word is no symbol
      have hsym : symbols.contains c = true := List.contains_iff_mem.mpr (htoks c hmem)
      rw [isWordChar, hsym] at hc
      simp at hc
    · rintro ⟨k, rest, heq, -⟩
      cases heq

/-- The characters `i` that belong to words. -/
def WordAt (s : CStr) (i : ℕ) : Prop := i < s.length ∧ isWordChar (charAt s i) = true

/-- The span is that of a word. -/
structure IsWord (s : CStr) (w : Span) : Prop where
  inside : ∀ i, w.q ≤ i → i < w.eq → WordAt s i
  lt : w.q < w.eq
  stop : ¬ WordAt s w.eq

/-- At the end of the line `gettoken` returns 0. -/
theorem gettoken_nil {p : ℕ} (h : tokensAt s p = []) :
    (gettoken s p).ret = 0 ∧ tokensAt s (gettoken s p).ps = [] := by
  rw [← tokensAt_skip p] at h
  cases next_skip s p with
  | nil hrest htokens =>
    have hc := charAt_of_drop_nil hrest
    simp only [gettoken, hc, ↓reduceIte]
    rw [tokensAt_skip]
    exact ⟨trivial, h⟩
  | gtgt cs hrest htokens => exact nomatch h.symm.trans htokens
  | sym k cs hne hrest hone htokens => exact nomatch h.symm.trans htokens
  | word c cs hrest hc htokens => exact nomatch h.symm.trans htokens

/-- `gettoken` on `>>`. -/
theorem gettoken_at_gtgt {p : ℕ} {cs : CStr}
    (hrest : s.drop (skip s isWhitespace p) = '>'.toUInt8 :: '>'.toUInt8 :: cs) :
    (gettoken s p).ret = Sym.gtgt.code ∧
      (gettoken s p).ps = skip s isWhitespace (skip s isWhitespace p + 2) := by
  have hgt : '>'.toUInt8 ≠ 0 ∧ '>'.toUInt8 ∉ cstr ['|', '(', ')', ';', '&', '<'] := by decide
  have hc := charAt_of_drop hrest
  have hc' := charAt_of_drop (drop_succ_of_drop hrest)
  simp only [gettoken, hc, hc', hgt.1, hgt.2, ↓reduceIte]
  exact ⟨rfl, trivial⟩

/-- `gettoken` on a symbol of one character. -/
theorem gettoken_at_sym {p : ℕ} {k : Sym} {cs : CStr} (hne : k ≠ .gtgt)
    (hrest : s.drop (skip s isWhitespace p) = k.char :: cs)
    (hone : k = .gt → cs.head? ≠ some '>'.toUInt8) :
    (gettoken s p).ret = k.code ∧
      (gettoken s p).ps = skip s isWhitespace (skip s isWhitespace p + 1) := by
  have hgt : '>'.toUInt8 ≠ 0 ∧ '>'.toUInt8 ∉ cstr ['|', '(', ')', ';', '&', '<'] := by decide
  have hrest' := drop_succ_of_drop hrest
  have hc := charAt_of_drop hrest
  cases k with
  | gtgt => exact absurd rfl hne
  | gt =>
    have hc' : charAt s (skip s isWhitespace p + 1) ≠ '>'.toUInt8 := by
      have hnext := hone rfl
      cases cs with
      | nil => rw [charAt_of_drop_nil hrest']; decide
      | cons d cs =>
        rw [charAt_of_drop hrest']
        exact fun hd => hnext (congrArg some hd)
    simp only [gettoken, hc, Sym.char, hc', hgt.1, hgt.2, ↓reduceIte]
    exact ⟨rfl, trivial⟩
  | lt | bar | amp | semi | lpar | rpar =>
    simp only [gettoken, hc]
    exact ⟨rfl, rfl⟩

/-- `gettoken` takes a symbol away. -/
theorem gettoken_sym {p : ℕ} {k : Sym} {ts : List (Tok CStr)} (h : tokensAt s p = .sym k :: ts) :
    (gettoken s p).ret = k.code ∧ tokensAt s (gettoken s p).ps = ts := by
  rw [← tokensAt_skip p] at h
  cases next_skip s p with
  | nil hrest htokens => exact nomatch h.symm.trans htokens
  | gtgt cs hrest htokens =>
    obtain ⟨rfl, rfl⟩ : k = .gtgt ∧ ts = tokenize cs := by simpa using h.symm.trans htokens
    obtain ⟨hret, hps⟩ := gettoken_at_gtgt hrest
    refine ⟨hret, ?_⟩
    rw [hps, tokensAt_skip, tokensAt, drop_succ_of_drop (drop_succ_of_drop hrest)]
  | sym k' cs hne hrest hone htokens =>
    obtain ⟨rfl, rfl⟩ : k = k' ∧ ts = tokenize cs := by simpa using h.symm.trans htokens
    obtain ⟨hret, hps⟩ := gettoken_at_sym hne hrest hone
    refine ⟨hret, ?_⟩
    rw [hps, tokensAt_skip, tokensAt, drop_succ_of_drop hrest]
  | word c cs hrest hc htokens => exact nomatch h.symm.trans htokens

/-- The run of word characters at an offset. -/
theorem isWord_skip {q : ℕ} {c : UInt8} {cs : CStr} (hrest : s.drop q = c :: cs)
    (hc : isWordChar c = true) : IsWord s ⟨q, skip s isWordChar q⟩ := by
  obtain ⟨after, hsplit⟩ : (s.drop q).takeWhile isWordChar <+: s.drop q := List.takeWhile_prefix _
  refine ⟨fun i hq hi => ?_, ?_, ?_⟩
  · simp only [skip] at hq hi
    obtain ⟨j, rfl⟩ : ∃ j, i = q + j := ⟨i - q, by omega⟩
    have hj : j < ((s.drop q).takeWhile isWordChar).length := by omega
    have hget : s[q + j]? = some ((s.drop q).takeWhile isWordChar)[j] := by
      have hleft : ((s.drop q).takeWhile isWordChar ++ after)[j]? =
          ((s.drop q).takeWhile isWordChar)[j]? := List.getElem?_append_left hj
      rw [hsplit, List.getElem?_drop] at hleft
      rw [hleft, List.getElem?_eq_getElem hj]
    refine ⟨(List.getElem?_eq_some_iff.mp hget).1, ?_⟩
    rw [charAt, List.getD_eq_getElem?_getD, hget, Option.getD_some]
    exact List.mem_takeWhile_imp (List.getElem_mem hj)
  · simp only [skip, hrest, List.takeWhile_cons, hc, ↓reduceIte, List.length_cons]
    omega
  · rintro ⟨hlt, hword⟩
    have hdrop := drop_skip isWordChar q (s := s)
    have hhead := List.head?_dropWhile_not isWordChar (s.drop q)
    rw [← hdrop, List.head?_drop, List.getElem?_eq_getElem hlt] at hhead
    rw [charAt, List.getD_eq_getElem?_getD, List.getElem?_eq_getElem hlt, Option.getD_some] at hword
    exact Bool.false_ne_true (hhead.symm.trans hword)

theorem text_skip (q : ℕ) :
    text s ⟨q, skip s isWordChar q⟩ = (s.drop q).takeWhile isWordChar := by
  simp only [text, skip, Nat.add_sub_cancel_left]
  exact (List.prefix_iff_eq_take.mp (List.takeWhile_prefix _)).symm

theorem not_mem_symbols_of_isWordChar {c : UInt8} (hc : isWordChar c = true) : c ∉ symbols := by
  intro hmem
  rw [isWordChar, List.contains_iff_mem.mpr hmem] at hc
  simp at hc

/-- `gettoken` on a word. -/
theorem gettoken_at_word (h0 : 0 ∉ s) {p : ℕ} {c : UInt8} {cs : CStr}
    (hrest : s.drop (skip s isWhitespace p) = c :: cs) (hc : isWordChar c = true) :
    gettoken s p = ⟨'a'.toUInt8,
      ⟨skip s isWhitespace p, skip s isWordChar (skip s isWhitespace p)⟩,
      skip s isWhitespace (skip s isWordChar (skip s isWhitespace p))⟩ := by
  have hchar := charAt_of_drop hrest
  have hne : c ≠ 0 := by
    rintro rfl
    apply h0
    have hmem : (0 : UInt8) ∈ s.drop (skip s isWhitespace p) := by
      rw [hrest]
      exact List.mem_cons_self
    exact List.mem_of_mem_drop hmem
  have hsym := not_mem_symbols_of_isWordChar hc
  have hsub : ∀ x ∈ cstr ['|', '(', ')', ';', '&', '<'], x ∈ symbols :=
    mem_symbols_of_all (by decide)
  have hone : c ∉ cstr ['|', '(', ')', ';', '&', '<'] := fun hmem => hsym (hsub c hmem)
  have hgt : c ≠ '>'.toUInt8 := by
    rintro rfl
    exact hsym (by decide)
  simp only [gettoken, hchar, hne, hone, hgt, ↓reduceIte]

/-- `gettoken` takes a word away and gives its span. -/
theorem gettoken_word (h0 : 0 ∉ s) {p : ℕ} {w : CStr} {ts : List (Tok CStr)}
    (h : tokensAt s p = .word w :: ts) :
    (gettoken s p).ret = 'a'.toUInt8 ∧ IsWord s (gettoken s p).span ∧
      text s (gettoken s p).span = w ∧ tokensAt s (gettoken s p).ps = ts := by
  rw [← tokensAt_skip p] at h
  cases next_skip s p with
  | nil hrest htokens => exact nomatch h.symm.trans htokens
  | gtgt cs hrest htokens => exact nomatch h.symm.trans htokens
  | sym k cs hne hrest hone htokens => exact nomatch h.symm.trans htokens
  | word c cs hrest hc htokens =>
    obtain ⟨rfl, rfl⟩ : w = c :: cs.takeWhile isWordChar ∧
        ts = tokenize (cs.dropWhile isWordChar) := by
      simpa using h.symm.trans htokens
    rw [gettoken_at_word h0 hrest hc]
    refine ⟨rfl, isWord_skip hrest hc, ?_, ?_⟩
    · rw [text_skip, hrest, List.takeWhile_cons, if_pos hc]
    · rw [tokensAt_skip, tokensAt, drop_skip, hrest, List.dropWhile_cons, if_pos hc]

/-- The two ways a call of `peek` ends.  Both leave the tokens; after the first one `gettoken` takes
the symbol. -/
theorem peek_cases (s : CStr) (p : ℕ) {toks : List UInt8} (htoks : ∀ c ∈ toks, c ∈ symbols) :
    ∃ p₁, tokensAt s p₁ = tokensAt s p ∧
      ((∃ k, k.char ∈ toks ∧ peek s p toks = (true, p₁) ∧ (gettoken s p₁).ret = k.code ∧
          tokensAt s p = .sym k :: tokensAt s (gettoken s p₁).ps) ∨
        ((∀ k ts, tokensAt s p = .sym k :: ts → k.char ∉ toks) ∧ peek s p toks = (false, p₁))) := by
  have hp₁ := tokensAt_peek s p toks
  have hiff := peek_iff s p htoks
  rcases hpeek : peek s p toks with ⟨b, p₁⟩
  rw [hpeek] at hp₁ hiff
  refine ⟨p₁, hp₁, ?_⟩
  cases b with
  | true =>
    obtain ⟨k, ts, htokens, hk⟩ := hiff.mp rfl
    obtain ⟨hret, hps⟩ := gettoken_sym (hp₁.trans htokens)
    exact Or.inl ⟨k, hk, rfl, hret, by rw [htokens, hps]⟩
  | false =>
    refine Or.inr ⟨fun k ts htokens hk => ?_, rfl⟩
    exact Bool.false_ne_true (hiff.mpr ⟨k, ts, htokens, hk⟩)

end Jyyos.Sh
