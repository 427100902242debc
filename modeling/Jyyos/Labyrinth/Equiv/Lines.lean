import Jyyos.Labyrinth.Equiv.LoadMap
import Jyyos.Lines

/-!
# Which files `loadMap` accepts

`fgets` with room for 101 characters reads a line of at most 100 characters whole, and 101
characters of a longer one, which is then refused by its width (`chomp_read`, `length_read`).  So
without NULs the rows that are read are the lines of the file (`readRows_eq`), but only the first
hundred: the loop ends when it has a hundred rows, and the test `rows > MAX_ROWS` after it never
holds.  `loadMap_exact_iff` says for which files this makes a difference: those of more than a
hundred lines whose beginning would be accepted by itself.
-/

namespace Jyyos

theorem chomp_cons {c : UInt8} (hc : c ≠ newline) (s : CStr) : chomp (c :: s) = c :: chomp s := by
  cases s with
  | nil => simp [chomp, hc]
  | cons d s =>
    unfold chomp
    rw [List.getLast?_cons_cons, List.dropLast_cons_cons]
    split_ifs <;> rfl

theorem chomp_of_not_mem {s : CStr} (h : newline ∉ s) : chomp s = s := by
  rw [chomp, if_neg]
  intro hlast
  exact h (List.mem_of_getLast? hlast)

/-- `fgets` takes the beginning of the file. -/
theorem read_append (n : ℕ) : ∀ file : List UInt8,
    (fgets.read n file).1 ++ (fgets.read n file).2 = file := by
  induction n with
  | zero => exact fun _ => rfl
  | succ n ih =>
    intro file
    cases file with
    | nil => rfl
    | cons c file =>
      rw [fgets.read]
      split_ifs
      · rfl
      · exact congrArg (c :: ·) (ih file)

/-- A line that fits is read whole, and the rest of the file has the other lines. -/
theorem chomp_read (file : List UInt8) : ∀ {n : ℕ} {line : CStr} {lines : List CStr},
    linesOf file = line :: lines → line.length < n →
      chomp (fgets.read n file).1 = line ∧ linesOf (fgets.read n file).2 = lines := by
  induction file with
  | nil => intro n line lines h; cases h
  | cons c file ih =>
    intro n line lines h hn
    obtain ⟨n, rfl⟩ : ∃ k, n = k + 1 := ⟨n - 1, by omega⟩
    rw [linesOf] at h
    rw [fgets.read]
    split_ifs at h ⊢ with hc
    · obtain ⟨rfl, rfl⟩ := List.cons.inj h
      refine ⟨?_, rfl⟩
      rw [hc]
      exact chomp_line []
    · dsimp only
      rw [chomp_cons hc]
      cases hrest : linesOf file with
      | nil =>
        -- the last character of a file without a newline at its end
        rw [hrest] at h
        obtain ⟨rfl, rfl⟩ := List.cons.inj h
        obtain rfl := linesOf_eq_nil_iff.mp hrest
        cases n <;> exact ⟨rfl, rfl⟩
      | cons line' lines' =>
        rw [hrest] at h
        obtain ⟨rfl, rfl⟩ := List.cons.inj h
        have hlt : line'.length < n := Nat.lt_of_succ_lt_succ hn
        obtain ⟨h1, h2⟩ := ih hrest hlt
        exact ⟨by rw [h1], h2⟩

/-- Of a line that does not fit, `fgets` reads as much as there is room for. -/
theorem length_read (file : List UInt8) : ∀ {n : ℕ} {line : CStr} {lines : List CStr},
    linesOf file = line :: lines → n ≤ line.length →
      (fgets.read n file).1.length = n ∧ newline ∉ (fgets.read n file).1 := by
  induction file with
  | nil => intro n line lines h; cases h
  | cons c file ih =>
    intro n line lines h hn
    cases n with
    | zero => exact ⟨rfl, List.not_mem_nil⟩
    | succ n =>
      rw [linesOf] at h
      rw [fgets.read]
      split_ifs at h ⊢ with hc
      · obtain ⟨rfl, -⟩ := List.cons.inj h
        cases hn
      · have hcons : ∀ s : List UInt8, s.length = n ∧ newline ∉ s →
            (c :: s).length = n + 1 ∧ newline ∉ c :: s := by
          rintro s ⟨hlen, hmem⟩
          refine ⟨by rw [List.length_cons, hlen], ?_⟩
          rw [List.mem_cons, not_or]
          exact ⟨Ne.symm hc, hmem⟩
        cases hrest : linesOf file with
        | nil =>
          rw [hrest] at h
          obtain ⟨rfl, -⟩ := List.cons.inj h
          obtain rfl : n = 0 := by simpa using hn
          exact hcons _ ⟨rfl, List.not_mem_nil⟩
        | cons line' lines' =>
          rw [hrest] at h
          obtain ⟨rfl, -⟩ := List.cons.inj h
          exact hcons _ (ih hrest (by rw [List.length_cons] at hn; omega))

namespace Labyrinth

/-- **The rows that are read** from a file without NULs are its first lines, unless one of them is
too long; then a row that is read is too long. -/
theorem readRows_eq (left : ℕ) : ∀ {file : List UInt8}, 0 ∉ file →
    (longest ((linesOf file).take left) ≤ 100 → readRows left file = (linesOf file).take left) ∧
      (100 < longest ((linesOf file).take left) → 100 < longest (readRows left file)) := by
  induction left with
  | zero =>
    intro file _
    rw [List.take_zero]
    exact ⟨fun _ => rfl, fun h => absurd h (by decide)⟩
  | succ left ih =>
    intro file h0
    cases hlines : linesOf file with
    | nil =>
      obtain rfl := linesOf_eq_nil_iff.mp hlines
      rw [List.take_nil]
      exact ⟨fun _ => rfl, fun h => absurd h (by decide)⟩
    | cons line lines =>
      have hne : file ≠ [] := by
        rintro rfl
        cases hlines
      have hget : fgets (MAX_COLS + 1) file = some (fgets.read 101 file) := by
        cases file with
        | nil => exact absurd rfl hne
        | cons c file => rfl
      have happ := read_append 101 file
      have h0' : 0 ∉ (fgets.read 101 file).1 ∧ 0 ∉ (fgets.read 101 file).2 := by
        rw [← happ, List.mem_append, not_or] at h0
        exact h0
      rw [readRows, hget]
      dsimp only
      rw [cstrOf_of_not_mem h0'.1, List.take_succ_cons, longest_cons, longest_cons]
      rcases Nat.lt_or_ge line.length 101 with hlt | hge
      · obtain ⟨hchomp, hrest⟩ := chomp_read file hlines hlt
        obtain ⟨ih1, ih2⟩ := ih h0'.2
        rw [hrest] at ih1 ih2
        rw [hchomp]
        refine ⟨fun hle => ?_, fun hlt' => ?_⟩
        · rw [ih1 ((Nat.max_le.mp hle).2)]
        · have := ih2 (by omega)
          omega
      · obtain ⟨hlen, hmem⟩ := length_read file hlines hge
        rw [chomp_of_not_mem hmem, hlen]
        exact ⟨fun hle => by omega, fun _ => by omega⟩

/-- `loadMap` looks at the first hundred lines only. -/
theorem loadMap_isSome_iff {content : List UInt8} (h0 : 0 ∉ content) (mem : Labyrinth) :
    (loadMap mem (some content)).isSome ↔ 0 < longest ((linesOf content).take 100) ∧
      longest ((linesOf content).take 100) ≤ 100 := by
  obtain ⟨hfit, hlong⟩ := readRows_eq MAX_ROWS h0
  have hmax : MAX_ROWS = 100 := rfl
  rw [hmax] at hfit hlong
  rcases Nat.lt_or_ge 100 (longest ((linesOf content).take 100)) with hlt | hle
  · have hread := hlong hlt
    rcases loadMap_cases mem content with ⟨-, hnone⟩ | ⟨-, hle, -⟩
    · rw [hnone]
      simp only [Option.isSome_none, Bool.false_eq_true, false_iff, not_and]
      omega
    · rw [hmax] at hle
      omega
  · have hread := hfit hle
    rcases loadMap_cases mem content with ⟨hbad, hnone⟩ | ⟨hpos, hle', l, hload, -⟩
    · rw [hmax, hread] at hbad
      rw [hnone]
      simp only [Option.isSome_none, Bool.false_eq_true, false_iff, not_and]
      omega
    · rw [hmax, hread] at hpos hle'
      rw [hload]
      simp only [Option.isSome_some, true_iff]
      exact ⟨hpos, hle'⟩

/-- `loadMap` does with a file what it should: it accepts a map of 1 to 100 lines, of which the
longest has 1 to 100 characters, and no other file, and then it holds the lines. -/
structure LoadsExactly (content : List UInt8) : Prop where
  accepts : ∀ mem, (loadMap mem (some content)).isSome ↔
    (1 ≤ (linesOf content).length ∧ (linesOf content).length ≤ 100) ∧
      1 ≤ longest (linesOf content) ∧ longest (linesOf content) ≤ 100
  rows : ∀ mem l, loadMap mem (some content) = some l → l.rows = (linesOf content).length
  cols : ∀ mem l, loadMap mem (some content) = some l → l.cols = longest (linesOf content)
  cells : ∀ mem l, loadMap mem (some content) = some l →
    ∀ (i : ℕ) (row : CStr), (linesOf content)[i]? = some row →
      ∀ (j : ℕ) (c : UInt8), row[j]? = some c → l.cell i j = c

/-- What `loadMap` holds of a file of at most a hundred lines. -/
theorem stored_of_loadMap {content : List UInt8} (h0 : 0 ∉ content)
    (hfew : (linesOf content).length ≤ 100) {mem l : Labyrinth}
    (hload : loadMap mem (some content) = some l) :
    l.rows = (linesOf content).length ∧ l.cols = longest (linesOf content) ∧
      Stored (linesOf content) 0 mem l := by
  have haccept := (loadMap_isSome_iff h0 mem).mp (by rw [hload]; rfl)
  have hread : readRows MAX_ROWS content = linesOf content := by
    rw [(readRows_eq MAX_ROWS h0).1 haccept.2, show MAX_ROWS = 100 from rfl]
    exact List.take_of_length_le hfew
  rcases loadMap_cases mem content with ⟨-, hnone⟩ | ⟨-, -, l', hload', hrows, hcols, hst⟩
  · rw [hnone] at hload
    cases hload
  · obtain rfl : l' = l := Option.some.inj (hload'.symm.trans hload)
    rw [hread] at hrows hcols hst
    exact ⟨hrows, hcols, hst⟩

theorem loadsExactly_of_few {content : List UInt8} (h0 : 0 ∉ content)
    (hfew : (linesOf content).length ≤ 100) : LoadsExactly content := by
  have hheld := @stored_of_loadMap content h0 hfew
  refine ⟨fun mem => ?_, fun mem l h => (hheld h).1, fun mem l h => (hheld h).2.1, ?_⟩
  · rw [loadMap_isSome_iff h0, List.take_of_length_le hfew]
    -- a line that is not empty is a line
    have hlen : 0 < longest (linesOf content) → 1 ≤ (linesOf content).length := by
      intro hpos
      rw [Nat.one_le_iff_ne_zero]
      intro hzero
      rw [List.length_eq_zero_iff.mp hzero] at hpos
      exact absurd hpos (by decide)
    exact ⟨fun h => ⟨⟨hlen h.1, hfew⟩, h⟩, fun h => h.2⟩
  · intro mem l hload i line hline j c hc
    have hcell := (hheld hload).2.2.char i line hline j c hc
    rw [Nat.zero_add] at hcell
    rw [cell, offset_natCast]
    exact hcell

/-- A file that is refused for its width should be refused. -/
theorem loadsExactly_of_width {content : List UInt8} (h0 : 0 ∉ content)
    (hwidth : longest ((linesOf content).take 100) = 0 ∨
      100 < longest ((linesOf content).take 100)) : LoadsExactly content := by
  have hnone : ∀ mem, loadMap mem (some content) = none := by
    intro mem
    rw [← Option.not_isSome_iff_eq_none, loadMap_isSome_iff h0]
    omega
  have hno : ∀ {mem l}, loadMap mem (some content) = some l → False := by
    intro mem l hload
    rw [hnone] at hload
    cases hload
  refine ⟨fun mem => ?_, fun _ _ h => (hno h).elim, fun _ _ h => (hno h).elim,
    fun _ _ h => (hno h).elim⟩
  rw [hnone]
  simp only [Option.isSome_none, Bool.false_eq_true, false_iff, not_and]
  rintro ⟨-, hle⟩ hpos
  rw [List.take_of_length_le hle] at hwidth
  omega

/-- **Which files `loadMap` treats as it should**: those with at most a hundred lines, and those
that are refused for the width of their first hundred lines. -/
theorem loadMap_exact_iff (content : List UInt8) (h0 : 0 ∉ content) :
    LoadsExactly content ↔ (linesOf content).length ≤ 100 ∨
      longest ((linesOf content).take 100) = 0 ∨ 100 < longest ((linesOf content).take 100) := by
  constructor
  · intro h
    by_contra hnot
    have hsome := (loadMap_isSome_iff h0 ⟨fun _ => 0, 0, 0⟩).mpr (by omega)
    have := ((h.accepts _).mp hsome).1.2
    omega
  · rintro (hfew | hwidth)
    · exact loadsExactly_of_few h0 hfew
    · exact loadsExactly_of_width h0 hwidth

/-- A file of 101 lines, each of them one empty cell. -/
def tallFile : List UInt8 := (List.replicate 101 [dot, newline]).flatten

theorem linesOf_tallFile : linesOf tallFile = List.replicate 101 [dot] := by decide +kernel

/-- A map of 101 rows is loaded, without its last row. -/
theorem not_loadsExactly_tallFile : ¬ LoadsExactly tallFile := by
  intro h
  have h0 : 0 ∉ tallFile := by decide +kernel
  have hsome : (loadMap ⟨fun _ => 0, 0, 0⟩ (some tallFile)).isSome := by
    rw [loadMap_isSome_iff h0, linesOf_tallFile]
    decide +kernel
  have hfew := ((h.accepts _).mp hsome).1.2
  rw [linesOf_tallFile, List.length_replicate] at hfew
  omega

/-- A file whose three lines have different lengths, the last without a newline. -/
def stairsFile : List UInt8 := [dot, 49, newline, dot, dot, dot, newline, 50]

theorem loadMap_exact_stairsFile : ∃ l, loadMap ⟨fun _ => 0, 0, 0⟩ (some stairsFile) = some l ∧
    l.rows = 3 ∧ l.cols = 3 ∧ l.cell 0 1 = 49 ∧ l.cell 2 0 = 50 := by
  have hexact := (loadMap_exact_iff stairsFile (by decide)).mpr (Or.inl (by decide))
  have hsome := (hexact.accepts ⟨fun _ => 0, 0, 0⟩).mpr (by decide)
  obtain ⟨l, hload⟩ := Option.isSome_iff_exists.mp hsome
  exact ⟨l, hload, hexact.rows _ l hload, hexact.cols _ l hload,
    hexact.cells _ l hload 0 [dot, 49] (by decide) 1 49 rfl,
    hexact.cells _ l hload 2 [50] (by decide) 0 50 rfl⟩

end Labyrinth

end Jyyos
