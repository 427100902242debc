import Jyyos.Fle.Toolchain

/-!
# What the compiler driver makes of relocations

When no table is taken for a table of another section, `elf_to_fle` reads for every section the
relocations of its own tables (`Binary.relocations_eq`).  The text that it makes of a printed entry
for `f + n` or `f - n` is parsed as the distance to `f`, plus or minus `n` (`parseReloc_relocText`).
So the lines that show relocations are read as these (`Binary.ownRelocations_shown`), and they show
no others (`Shown.unique`).
-/

namespace Jyyos.Fle

open PyStr

/-! ### Reading -/

/-- A section gets the relocations of its own tables. -/
theorem Binary.relocations_eq {bin : Binary} {sec : Section}
    (h : ∀ t ∈ bin.tables, t.head.name ≠ sec.name → ¬ (rela ++ sec.name) <:+: t.head.line) :
    bin.relocations sec = bin.ownRelocations sec := by
  have hread : readRelocations sec.name bin.relocs =
      readEntries (ownLines sec.name bin.tables) := by
    unfold Binary.relocs
    cases htables : bin.tables with
    | nil => rfl
    | cons t tables => exact readRelocations_report (htables ▸ h)
  rw [relocations, ownRelocations, hread]

theorem mapM_ok {α β ε : Type} {f : α → Except ε β} {g : α → β} {l : List α}
    (h : ∀ a ∈ l, f a = .ok (g a)) : l.mapM f = .ok (l.map g) := by
  induction l with
  | nil => rfl
  | cons a l ih =>
    rw [List.mapM_cons, h a List.mem_cons_self, ih fun b hb => h b (List.mem_cons_of_mem _ hb)]
    rfl

/-! ### Parsing -/

theorem subHex_true {n : Str} (hn : ∀ c ∈ n, isHex c = true) : subHex true n = n := by
  induction n with
  | nil => rfl
  | cons c n ih =>
    rw [subHex, if_pos (hn c List.mem_cons_self), if_pos rfl,
      ih fun d hd => hn d (List.mem_cons_of_mem _ hd)]

theorem subHex_hex {n : Str} (hne : n ≠ []) (hn : ∀ c ∈ n, isHex c = true) :
    subHex false n = '0' :: 'x' :: n := by
  cases n with
  | nil => exact absurd rfl hne
  | cons c n =>
    rw [subHex, if_pos (hn c List.mem_cons_self), if_neg Bool.false_ne_true,
      subHex_true fun d hd => hn d (List.mem_cons_of_mem _ hd)]

theorem replaceChar_hex {n : Str} (hn : ∀ c ∈ n, isHex c = true) : replaceChar '.' '_' n = n := by
  refine (List.map_congr_left fun c hc => if_neg ?_).trans (List.map_id n)
  rintro rfl
  exact absurd (hn '.' hc) (by decide)

theorem isSpace_of_nameChar {c : Char} (h : (c.isAlphanum || c == '_') = true) :
    isSpace c = false := by
  have hge : 48 ≤ c.toNat := by
    rw [Bool.or_eq_true, beq_iff_eq] at h
    rcases h with h | rfl
    · delta Char.isAlphanum Char.isAlpha Char.isUpper Char.isLower Char.isDigit at h
      simp only [Bool.or_eq_true, Bool.and_eq_true, decide_eq_true_eq, ge_iff_le,
        UInt32.le_iff_toNat_le] at h
      rcases h with (h | h) | h
      · exact le_trans (by decide) h.1
      · exact le_trans (by decide) h.1
      · exact h.1
    · decide
  rw [isSpace, Bool.or_eq_false_iff, Bool.and_eq_false_iff]
  refine ⟨?_, Or.inr ?_⟩
  · rw [beq_eq_false_iff_ne]
    rintro rfl
    exact absurd hge (by decide)
  · rw [decide_eq_false_iff_not, toNat_le_toNat]
    exact fun hle => absurd (le_trans hge hle) (by decide)

section Name

variable {w : Str} (h : isName w = true)
include h

theorem isName_ne_nil : w ≠ [] := by
  rintro rfl
  cases h

theorem isSpace_of_isName : ∀ c ∈ w, isSpace c = false := by
  intro c hc
  rw [isName, Bool.and_eq_true, Bool.and_eq_true, List.all_eq_true] at h
  exact isSpace_of_nameChar (h.1.2 c hc)

theorem parseOperand_name : parseOperand w = some (.name w) := by
  have hmark : w ≠ "📍".toList := by
    rintro rfl
    exact absurd h (by decide)
  have hnumber : w.take 2 ≠ "0x".toList := by
    intro htake
    cases w with
    | nil => cases htake
    | cons c w =>
      obtain ⟨rfl, -⟩ := List.cons.inj htake
      rw [isName, Bool.and_eq_true, Bool.and_eq_true] at h
      exact Bool.false_ne_true h.1.1
  rw [parseOperand, if_neg hmark, if_neg hnumber, if_pos h]

end Name

theorem parseOperand_number {n : Str} {v : ℕ} (hv : intHex n = some v) :
    parseOperand ('0' :: 'x' :: n) = some (.const v) := by
  have hmark : '0' :: 'x' :: n ≠ "📍".toList := fun h => absurd (List.cons.inj h).1 (by decide)
  have hnumber : ('0' :: 'x' :: n).take 2 = "0x".toList := rfl
  rw [parseOperand, if_neg hmark, if_pos hnumber, List.drop_succ_cons, List.drop_succ_cons,
    List.drop_zero, hv]
  rfl

/-- The text that is made of an entry for `f + n` or `f - n`. -/
theorem relocText_eq {f n : Str} {sign : Char} (hsign : sign = '+' ∨ sign = '-') (hne : n ≠ [])
    (hn : ∀ c ∈ n, isHex c = true) :
    relocText f [[sign], n] = "i32(".toList ++
      (join ' ' [replaceChar '.' '_' f, [sign], '0' :: 'x' :: n, ['-'], ['📍']] ++ [')']) := by
  have hsub : subHex false [sign] = [sign] := by
    rcases hsign with rfl | rfl <;> decide
  have hsame : replaceChar '.' '_' [sign] = [sign] := by
    rcases hsign with rfl | rfl <;> decide
  have hhex := replaceChar_hex hn
  unfold replaceChar at hhex hsame ⊢
  simp only [relocText, replaceChar, List.map_cons, List.map_nil, hsub, subHex_hex hne hn, join,
    List.map_append, List.append_assoc, List.cons_append, List.nil_append, hhex]
  rcases hsign with rfl | rfl <;> rfl

/-- **The expression of an entry**: the distance to the symbol, plus or minus the number. -/
theorem parseReloc_relocText {f n : Str} {v : ℕ} {sign : Char} (hsign : sign = '+' ∨ sign = '-')
    (hf : isName (replaceChar '.' '_' f) = true) (hne : n ≠ []) (hn : ∀ c ∈ n, isHex c = true)
    (hv : intHex n = some v) :
    (parseReloc (relocText f [[sign], n])).bind Expr.target =
      some (replaceChar '.' '_' f, if sign = '+' then (v : ℤ) else -v) := by
  have hwords : split (join ' '
      [replaceChar '.' '_' f, [sign], '0' :: 'x' :: n, ['-'], ['📍']]) =
        [replaceChar '.' '_' f, [sign], '0' :: 'x' :: n, ['-'], ['📍']] := by
    have hnumber : ∀ c ∈ '0' :: 'x' :: n, isSpace c = false := by
      intro c hc
      rw [List.mem_cons, List.mem_cons] at hc
      rcases hc with rfl | rfl | hc
      · decide
      · decide
      · exact isSpace_of_isHex (hn c hc)
    have hsignSpace : isSpace sign = false := by
      rcases hsign with rfl | rfl <;> rfl
    apply split_join
    · simp [isName_ne_nil hf]
    · intro w hw
      simp only [List.mem_cons, List.not_mem_nil, or_false] at hw
      rcases hw with rfl | rfl | rfl | rfl | rfl
      · exact isSpace_of_isName hf
      · exact List.forall_mem_singleton.mpr hsignSpace
      · exact hnumber
      · exact List.forall_mem_singleton.mpr rfl
      · exact List.forall_mem_singleton.mpr rfl
  have hprefix : "i32(".toList.length = 4 := rfl
  have hlast : ∀ s : Str, ("i32(".toList ++ (s ++ [')'])).getLast? = some ')' := by
    intro s
    rw [← List.append_assoc, List.getLast?_concat]
  rw [parseReloc, relocText_eq hsign hne hn, if_pos ⟨List.prefix_append _ _, hlast _⟩,
    List.drop_left' hprefix, List.dropLast_concat, hwords]
  have hmark : parseOperand ['📍'] = some .current := by decide
  rcases hsign with rfl | rfl <;>
    simp [parseSum, parseOperand_name hf, parseOperand_number hv, hmark, Expr.target]

/-! ### Lines that show relocations -/

theorem foldlM_hexValue {s : Str} : ∀ {n v : ℕ},
    s.foldlM (fun n c => (hexValue c).map fun d => 16 * n + d) n = some v →
      ∀ c ∈ s, isHex c = true := by
  induction s with
  | nil => exact fun _ => List.forall_mem_nil _
  | cons c s ih =>
    intro n v h
    rw [List.foldlM_cons, Option.bind_eq_bind, Option.bind_eq_some_iff] at h
    obtain ⟨m, hm, hs⟩ := h
    obtain ⟨d, hd, -⟩ := Option.map_eq_some_iff.mp hm
    intro c' hc'
    rcases List.mem_cons.mp hc' with rfl | hc'
    · exact Option.isSome_iff_exists.mpr ⟨d, hd⟩
    · exact ih hs c' hc'

/-- What is read as a number has digits only. -/
theorem isHex_of_intHex {s : Str} {v : ℕ} (h : intHex s = some v) :
    s ≠ [] ∧ ∀ c ∈ s, isHex c = true := by
  unfold intHex at h
  split_ifs at h with hs
  exact ⟨hs, foldlM_hexValue h⟩

/-- The words of the last column. -/
theorem split_expr {symbol digits : Str} {sign : Char} {v : ℕ}
    (hname : isName (replaceChar '.' '_' symbol) = true) (hsign : sign = '+' ∨ sign = '-')
    (hv : intHex digits = some v) :
    split (join ' ' [symbol, [sign], digits]) = [symbol, [sign], digits] := by
  obtain ⟨hne, hhex⟩ := isHex_of_intHex hv
  have hsymbol : symbol ≠ [] := fun hnil =>
    isName_ne_nil hname (congrArg (replaceChar '.' '_') hnil)
  have hspace : ∀ c ∈ symbol, isSpace c = false := by
    intro c hc
    by_cases hdot : c = '.'
    · rw [hdot]
      rfl
    · have hmem : c ∈ replaceChar '.' '_' symbol := List.mem_map.mpr ⟨c, hc, if_neg hdot⟩
      exact isSpace_of_isName hname c hmem
  have hsignSpace : isSpace sign = false := by
    rcases hsign with rfl | rfl <;> rfl
  apply split_join
  · simp [hsymbol, hne]
  · intro w hw
    simp only [List.mem_cons, List.not_mem_nil, or_false] at hw
    rcases hw with rfl | rfl | rfl
    · exact hspace
    · exact List.forall_mem_singleton.mpr hsignSpace
    · exact fun c hc => isSpace_of_isHex (hhex c hc)

/-- The text means the relocation. -/
def TextOf (text : Str) (r : Rela) : Prop :=
  (parseReloc text).bind Expr.target = some (r.name, r.addend)

theorem readEntry_shows {e : RelaEntry} {r : Rela} (h : e.Shows r) (blanks : ℕ) :
    ∃ text, TextOf text r ∧ ∀ relocations : Relocations,
      readEntry relocations (e.line blanks) = .ok (relocations.set r.offset (4, text)) := by
  obtain ⟨symbol, sign, digits, v, hexpr, hname, hv, hadd⟩ := h.expr
  have hsign : sign = '+' ∨ sign = '-' := hadd.imp And.left And.left
  have hisName := h.name
  rw [hname] at hisName
  have hsplit := split_expr hisName hsign hv
  rw [← hexpr] at hsplit
  obtain ⟨hne, hhex⟩ := isHex_of_intHex hv
  refine ⟨relocText symbol [[sign], digits], ?_, fun relocations =>
    readEntry_line h.printed h.kind h.offset hsplit blanks relocations⟩
  rw [TextOf, parseReloc_relocText hsign hisName hne hhex hv, hname]
  obtain ⟨rfl, hadd⟩ | ⟨rfl, hadd⟩ := hadd
  · rw [hadd]
    rfl
  · rw [hadd]
    rfl

theorem readEntry_other {line : Str} (h : ∀ c ∈ (line.dropWhile isSpace).head?, isHex c = false)
    (relocations : Relocations) : readEntry relocations line = .ok relocations := by
  have htake : (line.dropWhile isSpace).takeWhile isHex = [] := by
    cases hdrop : line.dropWhile isSpace with
    | nil => rfl
    | cons c s =>
      rw [hdrop] at h
      exact List.takeWhile_cons_of_neg (by simp [h c rfl])
  have hmatch : matchEntry line = none := by
    rw [matchEntry, plus, if_pos htake]
    rfl
  rw [readEntry, hmatch]

/-- A line shows one relocation at most. -/
theorem RelaEntry.Shows.unique {e e' : RelaEntry} {r r' : Rela} {blanks blanks' : ℕ}
    (h : e.Shows r) (h' : e'.Shows r') (hline : e.line blanks = e'.line blanks') : r = r' := by
  have hmatch := (matchEntry_line h.printed blanks).symm.trans
    (hline ▸ matchEntry_line h'.printed blanks')
  obtain ⟨hoffset, hrest⟩ := Prod.mk.inj (Option.some.inj hmatch)
  have hexpr := (Prod.mk.inj hrest).2
  obtain ⟨symbol, sign, digits, v, hwords, hname, hv, hadd⟩ := h.expr
  obtain ⟨symbol', sign', digits', v', hwords', hname', hv', hadd'⟩ := h'.expr
  have hsplit := split_expr (hname ▸ h.name) (hadd.imp And.left And.left) hv
  have hsplit' := split_expr (hname' ▸ h'.name) (hadd'.imp And.left And.left) hv'
  rw [← hwords, hexpr, hwords', hsplit'] at hsplit
  cases hsplit
  cases Option.some.inj (hv.symm.trans hv')
  have hoff := h.offset.symm.trans (hoffset ▸ h'.offset)
  obtain ⟨offset, name, addend⟩ := r
  obtain ⟨offset', name', addend'⟩ := r'
  cases Option.some.inj hoff
  cases hname.trans hname'.symm
  congr 1
  obtain ⟨hs, ha⟩ | ⟨hs, ha⟩ := hadd
  · obtain ⟨-, ha'⟩ | ⟨hs', -⟩ := hadd'
    · exact ha.trans ha'.symm
    · exact absurd (hs.symm.trans hs') (by decide)
  · obtain ⟨hs', -⟩ | ⟨-, ha'⟩ := hadd'
    · exact absurd (hs.symm.trans hs') (by decide)
    · exact ha.trans ha'.symm

/-- The lines of a table show one list of relocations. -/
theorem Shown.unique {lines : List Str} {rs rs' : List Rela} (h : Shown lines rs)
    (h' : Shown lines rs') : rs = rs' := by
  induction h generalizing rs' with
  | nil =>
    cases h'
    rfl
  | @entry e r lines rs entry blanks rest ih =>
    generalize hline : e.line blanks = line at h'
    cases h' with
    | entry entry' blanks' rest' => rw [entry.unique entry' hline, ih rest']
    | other other' rest' =>
      have hread := readEntry_other other' .empty
      obtain ⟨text, -, hset⟩ := readEntry_shows entry blanks
      rw [← hline, hset] at hread
      cases hread
  | @other line lines rs other rest ih =>
    generalize hline : line = line' at h'
    cases h' with
    | entry entry' blanks' rest' =>
      have hread := readEntry_other other .empty
      obtain ⟨text, -, hset⟩ := readEntry_shows entry' blanks'
      rw [hline, hset] at hread
      cases hread
    | other other' rest' => exact ih rest'

/-- **The lines that show relocations are read as these.** -/
theorem Shown.foldlM_readEntry {lines : List Str} {rs : List Rela} (h : Shown lines rs) :
    (rs.map Rela.offset).Nodup → ∀ relocations : Relocations,
      (∀ r ∈ rs, r.offset ∉ relocations.keys) →
      ∃ texts relocations', lines.foldlM readEntry relocations = .ok relocations' ∧
        relocations'.entries = relocations.entries ++ texts ∧
        List.Forall₂ (fun t r => t.1 = r.offset ∧ TextOf t.2.2 r) texts rs := by
  induction h with
  | nil => exact fun _ relocations _ => ⟨[], relocations, rfl, (List.append_nil _).symm, .nil⟩
  | @entry e r lines rs entry blanks rest ih =>
    intro hnodup relocations hfresh
    obtain ⟨hr, hnodup⟩ := List.nodup_cons.mp hnodup
    obtain ⟨text, htext, hread⟩ := readEntry_shows entry blanks
    have hnew := hfresh r List.mem_cons_self
    have hset : (relocations.set r.offset (4, text)).entries =
        relocations.entries ++ [(r.offset, 4, text)] := Dict.setEntry_of_not_mem hnew
    obtain ⟨texts, relocations', hfold, hentries, hall⟩ := ih hnodup
      (relocations.set r.offset (4, text)) fun r' hr' hmem => by
        rw [Dict.keys, hset, List.map_append, List.mem_append] at hmem
        rcases hmem with hmem | hmem
        · exact hfresh r' (List.mem_cons_of_mem _ hr') hmem
        · have heq : r'.offset = r.offset := List.mem_singleton.mp hmem
          exact hr (heq ▸ List.mem_map_of_mem hr')
    refine ⟨(r.offset, 4, text) :: texts, relocations', ?_, ?_, .cons ⟨rfl, htext⟩ hall⟩
    · rw [List.foldlM_cons, hread]
      exact hfold
    · rw [hentries, hset, List.append_assoc]
      rfl
  | other other rest ih =>
    intro hnodup relocations hfresh
    obtain ⟨texts, relocations', hfold, hrest⟩ := ih hnodup relocations hfresh
    refine ⟨texts, relocations', ?_, hrest⟩
    rw [List.foldlM_cons, readEntry_other other]
    exact hfold

theorem mapM_parseText {texts : List (ℕ × ℕ × Str)} {rs : List Rela}
    (h : List.Forall₂ (fun t r => t.1 = r.offset ∧ TextOf t.2.2 r) texts rs) :
    ∃ exprs, texts.mapM parseText = .ok exprs ∧
      List.Forall₂ (fun e r => e.1 = r.offset ∧ e.2.target = some (r.name, r.addend)) exprs rs := by
  induction h with
  | nil => exact ⟨[], rfl, .nil⟩
  | @cons t r texts rs ht _ ih =>
    obtain ⟨exprs, hmap, hall⟩ := ih
    obtain ⟨expr, hparse, htarget⟩ := Option.bind_eq_some_iff.mp ht.2
    refine ⟨(t.1, expr) :: exprs, ?_, .cons ⟨ht.1, htarget⟩ hall⟩
    have htext : parseText t = .ok (t.1, expr) := by rw [parseText, hparse]
    rw [List.mapM_cons, htext, hmap]
    rfl

/-- **A section's own relocations** are those that its tables show. -/
theorem Binary.ownRelocations_shown {bin : Binary} {sec : Section} {rs : List Rela}
    (h : Shown (ownLines sec.name bin.tables) rs) (hnodup : (rs.map Rela.offset).Nodup) :
    ∃ relocations, bin.ownRelocations sec = .ok relocations ∧
      List.Forall₂ (fun e r => e.1 = r.offset ∧ e.2.target = some (r.name, r.addend))
        relocations.entries rs := by
  obtain ⟨texts, relocations, hfold, hentries, htexts⟩ :=
    h.foldlM_readEntry hnodup .empty fun _ _ => List.not_mem_nil
  rw [Dict.empty, List.nil_append] at hentries
  obtain ⟨exprs, hmap, hexprs⟩ := mapM_parseText htexts
  have hkeys : exprs.map Prod.fst = rs.map Rela.offset := by
    rw [← List.forall₂_eq_eq_eq, List.forall₂_map_left_iff, List.forall₂_map_right_iff]
    exact hexprs.imp fun _ _ h => h.1
  refine ⟨Dict.ofList exprs, ?_, ?_⟩
  · rw [ownRelocations, readEntries, hfold]
    show (relocations.entries.mapM parseText).map Dict.ofList = _
    rw [hentries, hmap]
    rfl
  · rw [Dict.entries_ofList (hkeys ▸ hnodup)]
    exact hexprs

end Jyyos.Fle
