import Jyyos.Fle.Relocs
import Mathlib.Tactic.Common

/-!
# Which relocations a section gets

`readelf -r` prints the relocation tables of a binary one after the other (`report`).  The loop
reads the entries of a table iff `.rela` and the name of the section stand anywhere in its header
line (`foldlM_table`).  So a section also gets the relocations of every section whose name continues
its own: `readRelocations_own_iff`.
-/

namespace Jyyos.Fle

open PyStr

/-- The relocations of a list of entries. -/
def readEntries (lines : List Str) : Except RelocError Relocations :=
  lines.foldlM readEntry .empty

/-- The lines of the tables for a section. -/
def ownLines (sec : Str) (tables : List RelaTable) : List Str :=
  (tables.filter fun t => t.head.name = sec).flatMap RelaTable.lines

/-! ### The loop over a table -/

theorem contains_iff {sub s : Str} : contains sub s = true ↔ sub <:+: s := decide_eq_true_iff

theorem contains_header (h : RelaHead) : contains headerMark h.line = true :=
  contains_iff.mpr (List.prefix_append _ _).isInfix

/-- A header line names its own section. -/
theorem contains_name (h : RelaHead) : contains (rela ++ h.name) h.line = true := by
  rw [contains_iff, RelaHead.line, ← List.append_assoc headerMark]
  exact List.infix_append' _ _ _

section Loop

variable {sec : Str}

theorem relocStep_header (s : RelocState) (h : RelaHead) :
    relocStep sec s h.line = .ok ⟨s.relocations, contains (rela ++ sec) h.line⟩ := by
  rw [relocStep, if_pos (contains_header h)]

theorem relocStep_plain {s : RelocState} {line : Str}
    (hline : contains headerMark line = false) : relocStep sec s line =
      if s.enabled then (readEntry s.relocations line).map (⟨·, s.enabled⟩) else .ok s := by
  rw [relocStep, if_neg (by rw [hline]; exact Bool.false_ne_true)]

/-- The lines of a table that is read. -/
theorem foldlM_enabled {lines : List Str}
    (hlines : ∀ line ∈ lines, contains headerMark line = false) :
    ∀ relocations, lines.foldlM (relocStep sec) ⟨relocations, true⟩ =
      (lines.foldlM readEntry relocations).map (⟨·, true⟩) := by
  induction lines with
  | nil => exact fun _ => rfl
  | cons line lines ih =>
    intro relocations
    rw [List.foldlM_cons, List.foldlM_cons, relocStep_plain (hlines line List.mem_cons_self),
      if_pos rfl]
    cases readEntry relocations line with
    | error e => rfl
    | ok relocations' => exact ih (fun l hl => hlines l (List.mem_cons_of_mem _ hl)) relocations'

/-- The lines of a table that is not read. -/
theorem foldlM_disabled {lines : List Str}
    (hlines : ∀ line ∈ lines, contains headerMark line = false)
    (relocations : Relocations) : lines.foldlM (relocStep sec) ⟨relocations, false⟩ =
      .ok ⟨relocations, false⟩ := by
  induction lines with
  | nil => rfl
  | cons line lines ih =>
    rw [List.foldlM_cons, relocStep_plain (hlines line List.mem_cons_self),
      if_neg Bool.false_ne_true]
    exact ih fun l hl => hlines l (List.mem_cons_of_mem _ hl)

/-- **A table is read iff its header line contains the name** after `.rela`. -/
theorem foldlM_table (t : RelaTable) (s : RelocState) :
    (t.head.line :: t.lines).foldlM (relocStep sec) s =
      if contains (rela ++ sec) t.head.line then
        (t.lines.foldlM readEntry s.relocations).map (⟨·, true⟩)
      else .ok ⟨s.relocations, false⟩ := by
  rw [List.foldlM_cons, relocStep_header]
  cases hcontains : contains (rela ++ sec) t.head.line with
  | true => exact foldlM_enabled t.plain s.relocations
  | false => exact foldlM_disabled t.plain s.relocations

theorem report_blank (tables : List RelaTable) : readRelocations sec (report tables) =
    ((tables.flatMap fun t => t.head.line :: t.lines).foldlM (relocStep sec) ⟨.empty, true⟩).map
      RelocState.relocations := by
  have hblank : relocStep sec ⟨.empty, true⟩ [] = .ok ⟨.empty, true⟩ := by
    rw [relocStep_plain (by decide), if_pos rfl]
    rfl
  rw [readRelocations, report, List.foldlM_cons, hblank]
  rfl

theorem ownLines_cons (t : RelaTable) (tables : List RelaTable) : ownLines sec (t :: tables) =
    (if t.head.name = sec then t.lines else []) ++ ownLines sec tables := by
  rw [ownLines, List.filter_cons]
  by_cases hname : t.head.name = sec
  · rw [if_pos (decide_eq_true hname), if_pos hname]
    rfl
  · rw [if_neg (by simpa using hname), if_neg hname]
    rfl

/-- Tables of which exactly those for the section are read. -/
theorem foldlM_tables {tables : List RelaTable}
    (h : ∀ t ∈ tables, t.head.name ≠ sec → contains (rela ++ sec) t.head.line = false) :
    ∀ s : RelocState, ((tables.flatMap fun t => t.head.line :: t.lines).foldlM (relocStep sec)
        s).map RelocState.relocations =
      (ownLines sec tables).foldlM readEntry s.relocations := by
  induction tables with
  | nil => exact fun _ => rfl
  | cons t tables ih =>
    intro s
    have hrest := ih fun t' ht' => h t' (List.mem_cons_of_mem _ ht')
    rw [List.flatMap_cons, List.foldlM_append, foldlM_table, ownLines_cons, List.foldlM_append]
    by_cases hname : t.head.name = sec
    · have hown : contains (rela ++ sec) t.head.line = true := hname ▸ contains_name t.head
      rw [if_pos hown, if_pos hname]
      cases t.lines.foldlM readEntry s.relocations with
      | error e => rfl
      | ok relocations => exact hrest ⟨relocations, true⟩
    · rw [h t List.mem_cons_self hname, if_neg Bool.false_ne_true, if_neg hname]
      exact hrest ⟨s.relocations, false⟩

/-- When the header lines of the other tables do not contain the name, a section gets its own
relocations. -/
theorem readRelocations_report {tables : List RelaTable}
    (h : ∀ t ∈ tables, t.head.name ≠ sec → ¬ (rela ++ sec) <:+: t.head.line) :
    readRelocations sec (report tables) = readEntries (ownLines sec tables) := by
  rw [report_blank, foldlM_tables]
  · rfl
  · intro t ht hname
    rw [← Bool.not_eq_true, contains_iff]
    exact h t ht hname

end Loop

/-! ### Entries -/

/-- The fields of an entry as they are printed; `expr` is the symbol with its addend. -/
structure RelaEntry where
  offset : Str
  info : Str
  kind : Str
  value : Str
  expr : Str

/-- The fields are what `readelf` prints there. -/
structure RelaEntry.Printed (e : RelaEntry) : Prop where
  offset : e.offset ≠ [] ∧ ∀ c ∈ e.offset, isHex c = true
  info : e.info ≠ [] ∧ ∀ c ∈ e.info, isHex c = true
  kind : e.kind ≠ [] ∧ ∀ c ∈ e.kind, isSpace c = false
  value : e.value ≠ [] ∧ ∀ c ∈ e.value, isHex c = true
  expr : ∀ c ∈ e.expr.head?, isSpace c = false

/-- The line of an entry, with blanks between the columns. -/
def RelaEntry.line (e : RelaEntry) (blanks : ℕ) : Str :=
  e.offset ++ ([' ', ' '] ++ (e.info ++ ([' '] ++ (e.kind ++ (List.replicate (blanks + 1) ' ' ++
    (e.value ++ ([' '] ++ e.expr)))))))

theorem dropWhile_of_head {ok : Char → Bool} {t : Str} (ht : ∀ c ∈ t.head?, ok c = false) :
    t.dropWhile ok = t := by
  cases t with
  | nil => rfl
  | cons c t => exact List.dropWhile_cons_of_neg (by simp [ht c rfl])

theorem plus_append {ok : Char → Bool} {s t : Str} (hs : s ≠ [] ∧ ∀ c ∈ s, ok c = true)
    (ht : ∀ c ∈ t.head?, ok c = false) : plus ok (s ++ t) = some (s, t) := by
  have htake : t.takeWhile ok = [] := by
    cases t with
    | nil => rfl
    | cons c t => exact List.takeWhile_cons_of_neg (by simp [ht c rfl])
  rw [plus, List.takeWhile_append_of_pos hs.2, List.dropWhile_append_of_pos hs.2, htake,
    dropWhile_of_head ht, List.append_nil, if_neg hs.1]

theorem head?_append_of_ne_nil {s : Str} (hs : s ≠ []) (t : Str) : (s ++ t).head? = s.head? := by
  cases s with
  | nil => exact absurd rfl hs
  | cons c s => rfl

theorem toNat_le_toNat {c d : Char} : c ≤ d ↔ c.toNat ≤ d.toNat := Iff.rfl

theorem isSpace_of_isHex {c : Char} (h : isHex c = true) : isSpace c = false := by
  have hhex : '0'.toNat ≤ c.toNat := by
    rw [isHex, hexValue] at h
    split_ifs at h with h0 ha hA
    · exact toNat_le_toNat.mp h0.1
    · exact Nat.le_trans (by decide) (toNat_le_toNat.mp ha.1)
    · exact Nat.le_trans (by decide) (toNat_le_toNat.mp hA.1)
    · cases h
  rw [isSpace, Bool.or_eq_false_iff, Bool.and_eq_false_iff]
  refine ⟨?_, Or.inr ?_⟩
  · rw [beq_eq_false_iff_ne]
    rintro rfl
    exact absurd hhex (by decide)
  · rw [decide_eq_false_iff_not, toNat_le_toNat]
    exact fun hle => absurd (Nat.le_trans hhex hle) (by decide)

theorem hex_head {s : Str} (hs : s ≠ [] ∧ ∀ c ∈ s, isHex c = true) (t : Str) :
    ∀ c ∈ (s ++ t).head?, isSpace c = false := by
  intro c hc
  rw [head?_append_of_ne_nil hs.1] at hc
  exact isSpace_of_isHex (hs.2 c (List.mem_of_mem_head? hc))

/-- **A printed entry is read as its fields.** -/
theorem matchEntry_line {e : RelaEntry} (h : e.Printed) (blanks : ℕ) :
    matchEntry (e.line blanks) = some (e.offset, e.kind, e.expr) := by
  have hblank : isHex ' ' = false := by decide
  have hspace : isSpace ' ' = true := by decide
  have hskip : (e.line blanks).dropWhile isSpace = e.line blanks :=
    dropWhile_of_head (hex_head h.offset _)
  have hkind : ∀ t : Str, ∀ c ∈ (e.kind ++ t).head?, isSpace c = false := by
    intro t c hc
    rw [head?_append_of_ne_nil h.kind.1] at hc
    exact h.kind.2 c (List.mem_of_mem_head? hc)
  rw [matchEntry, hskip, RelaEntry.line, plus_append h.offset (by simp [hblank])]
  dsimp only [Option.bind_eq_bind, Option.bind_some]
  rw [plus_append (by simp [hspace]) (hex_head h.info _)]
  dsimp only [Option.bind_some]
  rw [plus_append h.info (by simp [hblank])]
  dsimp only [Option.bind_some]
  rw [plus_append (by simp [hspace]) (hkind _)]
  dsimp only [Option.bind_some]
  rw [plus_append ⟨h.kind.1, by simpa using h.kind.2⟩ (by simp [hspace, List.replicate_succ])]
  dsimp only [Option.bind_some]
  rw [plus_append (by simp [hspace]) (hex_head h.value _)]
  dsimp only [Option.bind_some]
  rw [plus_append h.value (by simp [hblank])]
  dsimp only [Option.bind_some]
  rw [plus_append (by simp [hspace]) h.expr]
  rfl

/-- The text that is stored for the words of a symbol with its addend. -/
def relocText (r : Str) (rs : List Str) : Str :=
  replaceChar '.' '_' ("i32(".toList ++ (join ' ' (r :: rs.map (subHex false)) ++
    " - 📍".toList) ++ [')'])

theorem readEntry_line {e : RelaEntry} (h : e.Printed) (hkind : e.kind ∈ supported) {i : ℕ}
    (hi : intHex e.offset = some i) {r : Str} {rs : List Str} (hexpr : split e.expr = r :: rs)
    (blanks : ℕ) (relocations : Relocations) : readEntry relocations (e.line blanks) =
      .ok (relocations.set i (4, relocText r rs)) := by
  simp only [readEntry, matchEntry_line h blanks, hexpr, hi, hkind, not_true_eq_false, ↓reduceIte,
    relocText]

/-! ### A table that is not the section's own -/

/-- An entry at offset 0. -/
def sampleEntry : RelaEntry :=
  ⟨['0'], ['0'], "R_X86_64_32".toList, ['0'], ['a']⟩

theorem readEntry_sampleEntry (relocations : Relocations) :
    readEntry relocations (sampleEntry.line 0) =
      .ok (relocations.set 0 (4, relocText ['a'] [])) := by
  have hzero : (['0'] : Str) ≠ [] ∧ ∀ c ∈ ['0'], isHex c = true :=
    ⟨List.cons_ne_nil _ _, List.all_eq_true.mp (by decide)⟩
  have hkind : sampleEntry.kind.all (fun c => !isSpace c) = true := by decide
  have hspace : ∀ c ∈ sampleEntry.kind, isSpace c = false := fun c hc =>
    (Bool.not_eq_true' _).mp (List.all_eq_true.mp hkind c hc)
  have hexpr : ∀ c ∈ sampleEntry.expr.head?, isSpace c = false := by
    rintro c ⟨rfl⟩
    decide
  exact readEntry_line ⟨hzero, hzero, ⟨by decide, hspace⟩, hzero, hexpr⟩ (by decide) rfl rfl 0
    relocations

/-- The table with the sample entry for one header, and no entry for the others. -/
def sampleTable (head h : RelaHead) : RelaTable where
  head := h
  lines := if h = head then [sampleEntry.line 0] else []
  plain := by
    intro line hline
    split_ifs at hline
    · rw [List.mem_singleton.mp hline]
      decide
    · cases hline

/-- A table that is read leaves its entry in the relocations. -/
theorem get?_sampleTables {sec : Str} {head : RelaHead}
    (hhead : contains (rela ++ sec) head.line = true) (heads : List RelaHead) :
    ∀ s : RelocState, head ∈ heads ∨ s.relocations.get? 0 = some (4, relocText ['a'] []) →
      ∃ s', ((heads.map (sampleTable head)).flatMap fun t => t.head.line :: t.lines).foldlM
          (relocStep sec) s = .ok s' ∧ s'.relocations.get? 0 = some (4, relocText ['a'] []) := by
  induction heads with
  | nil =>
    intro s hs
    exact ⟨s, rfl, hs.resolve_left List.not_mem_nil⟩
  | cons h heads ih =>
    intro s hs
    rw [List.map_cons, List.flatMap_cons, List.foldlM_append, foldlM_table]
    by_cases hh : h = head
    · have hlines : (sampleTable head h).lines = [sampleEntry.line 0] := if_pos hh
      have hcontains : contains (rela ++ sec) (sampleTable head h).head.line = true := hh ▸ hhead
      rw [hlines, if_pos hcontains, List.foldlM_cons, readEntry_sampleEntry]
      exact ih ⟨_, true⟩ (Or.inr (Dict.get?_set_self ..))
    · have hlines : (sampleTable head h).lines = [] := if_neg hh
      have hs' : head ∈ heads ∨ s.relocations.get? 0 = some (4, relocText ['a'] []) :=
        hs.imp_left fun hmem => (List.mem_cons.mp hmem).resolve_left (Ne.symm hh)
      rw [hlines]
      cases contains (rela ++ sec) (sampleTable head h).head.line with
      | true => exact ih ⟨s.relocations, true⟩ hs'
      | false => exact ih ⟨s.relocations, false⟩ hs'

theorem ownLines_sampleTables {sec : Str} {head : RelaHead} (hname : head.name ≠ sec)
    (heads : List RelaHead) : ownLines sec (heads.map (sampleTable head)) = [] := by
  induction heads with
  | nil => rfl
  | cons h heads ih =>
    rw [List.map_cons, ownLines_cons, ih, List.append_nil]
    by_cases hh : h = head
    · have hother : (sampleTable head h).head.name ≠ sec := hh ▸ hname
      rw [if_neg hother]
    · have hlines : (sampleTable head h).lines = [] := if_neg hh
      rw [hlines, ite_self]

/-- **A section gets its own relocations**, whatever the entries are, iff the header line of no
other table contains `.rela` and the name of the section. -/
theorem readRelocations_own_iff (sec : Str) (heads : List RelaHead) :
    (∀ tables : List RelaTable, tables.map RelaTable.head = heads →
      readRelocations sec (report tables) = readEntries (ownLines sec tables)) ↔
    ∀ h ∈ heads, h.name ≠ sec → ¬ (rela ++ sec) <:+: h.line := by
  constructor
  · intro hall h hh hname hinfix
    have hmap : (heads.map (sampleTable h)).map RelaTable.head = heads := by
      rw [List.map_map]
      exact List.map_id _
    have heq := hall _ hmap
    obtain ⟨s, hs, hget⟩ :=
      get?_sampleTables (contains_iff.mpr hinfix) heads ⟨.empty, true⟩ (Or.inl hh)
    rw [report_blank, hs, ownLines_sampleTables hname] at heq
    injection heq with heq
    rw [heq] at hget
    cases hget
  · rintro h tables rfl
    exact readRelocations_report fun t ht hname => h t.head (List.mem_map_of_mem ht) hname

/-! ### A section whose name continues another -/

/-- The table of `.text` in an object with a call in `.text` and one in `.text.startup`, without the
line of column titles. -/
def textTable : RelaTable where
  head := ⟨".text".toList, "190".toList, "1 entry".toList⟩
  lines := ["00000000000a  000300000004 R_X86_64_PLT32    0000000000000000 f - 4".toList, []]
  plain := by decide +kernel

def startupTable : RelaTable where
  head := ⟨".text.startup".toList, "1a8".toList, "1 entry".toList⟩
  lines := ["00000000000a  000400000004 R_X86_64_PLT32    0000000000000000 g - 4".toList]
  plain := by decide +kernel

/-- **The call in `.text` is patched for the symbol of the call in `.text.startup`.** -/
theorem readRelocations_startup :
    (readRelocations ".text".toList (report [textTable, startupTable])).map (·.get? 10) =
        .ok (some (4, "i32(g - 0x4 - 📍)".toList)) ∧
      readRelocations ".text".toList (report [textTable, startupTable]) ≠
        readEntries (ownLines ".text".toList [textTable, startupTable]) := by
  have hread : (readRelocations ".text".toList (report [textTable, startupTable])).map (·.get? 10) =
      .ok (some (4, "i32(g - 0x4 - 📍)".toList)) := by
    decide +kernel
  refine ⟨hread, fun heq => ?_⟩
  rw [heq] at hread
  exact absurd hread (by decide +kernel)

end Jyyos.Fle
